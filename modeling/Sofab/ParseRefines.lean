import Sofab.FieldRefines

/-!
# Parsing a buffer reads what is left of a message

`parse` finishes the body in progress and then reads fields until the buffer ends. What it
leaves behind, the item in progress, the depth and the unread tail, determines how the
reference reading goes on.
-/

namespace Sofab

open Reading Reading.Reader DecodeM IStream

/-- The unread tails a stream may be left with, by the item in progress. -/
inductive Held (depth : ℕ) : Resume → List UInt8 → Prop
  | boundary : Held depth .none []
  | head {tail torn : List UInt8} (notes : List Note)
      (short : readHead depth tail = ⟨notes, .short torn⟩) (quiet : calls notes = []) :
      Held depth .none tail
  | body {body : Resume} {tail : List UInt8} (pending : Pending body tail) : Held depth body tail

/-- With no item in progress the rest is fields. -/
theorem readRest_none (depth : ℕ) : readRest .none depth = readFields depth :=
  Reader.pure_bind () _

/-- Behind a body that is whole the rest is fields. -/
theorem readRest_of_done {body : Resume} {bs rest : List UInt8} {notes : List Note}
    (h : readBody body bs = ⟨notes, .done () rest⟩) (depth : ℕ) :
    readRest body depth bs = (readFields depth rest).after notes :=
  bind_of_done h _

/-- A body that is short leaves the rest short. -/
theorem readRest_of_short {body : Resume} {bs torn : List UInt8} {notes : List Note}
    (h : readBody body bs = ⟨notes, .short torn⟩) (depth : ℕ) :
    readRest body depth bs = ⟨notes, .short torn⟩ :=
  bind_of_short h _

/-- A body that is rejected rejects the rest. -/
theorem readRest_of_invalid {body : Resume} {bs : List UInt8} {notes : List Note}
    (h : readBody body bs = ⟨notes, .invalid⟩) (depth : ℕ) :
    readRest body depth bs = ⟨notes, .invalid⟩ :=
  bind_of_invalid h _

/-- A field whose head is read goes on with its body and the fields after it. -/
theorem readFields_of_head {depth depth' : ℕ} {body : Resume} {bs rest : List UInt8}
    {notes : List Note} (h : readHead depth bs = ⟨notes, .done (depth', body) rest⟩) :
    readFields depth bs = (readRest body depth' rest).after notes := by
  have hne : bs ≠ [] := by
    rintro rfl
    cases h
  have hfield : readField depth bs = ((readBody body >>= fun _ => pure depth') rest).after notes :=
    bind_of_done h _
  rcases hbody : readBody body rest with ⟨more, ⟨_, rest'⟩ | torn | _⟩
  · have hdone : readField depth bs = ⟨notes ++ more, .done depth' rest'⟩ := by
      rw [hfield, bind_of_done hbody, Report.after_after]
      exact congrArg₂ Report.mk (List.append_nil _) rfl
    rw [readRest_of_done hbody, Report.after_after]
    exact exhaust_of_done hdone
  · have hshort : readField depth bs = ⟨notes ++ more, .short torn⟩ := by
      rw [hfield, bind_of_short hbody]
      rfl
    rw [readRest_of_short hbody]
    exact exhaust_of_short hne hshort
  · have hinvalid : readField depth bs = ⟨notes ++ more, .invalid⟩ := by
      rw [hfield, bind_of_invalid hbody]
      rfl
    rw [readRest_of_invalid hbody]
    exact exhaust_of_invalid hne hinvalid

/-- No bytes are no fields, and the depth stays. -/
@[simp] theorem readFields_nil (depth : ℕ) : readFields depth [] = ⟨[], .done depth []⟩ :=
  exhaust_nil depth

/-- A torn head ends the reading. -/
theorem readFields_of_short {depth : ℕ} {bs torn : List UInt8} {notes : List Note}
    (hne : bs ≠ []) (h : readHead depth bs = ⟨notes, .short torn⟩) :
    readFields depth bs = ⟨notes, .short torn⟩ :=
  exhaust_of_short hne (bind_of_short h _)

/-- A rejected head ends the reading. -/
theorem readFields_of_invalid {depth : ℕ} {bs : List UInt8} {notes : List Note}
    (h : readHead depth bs = ⟨notes, .invalid⟩) : readFields depth bs = ⟨notes, .invalid⟩ := by
  refine exhaust_of_invalid ?_ (bind_of_invalid h _)
  rintro rfl
  cases h

/-- Reading `bs` with `body` in progress makes the callbacks `made` and leaves `body'` in
progress with the unread `tail`. -/
structure Reads (body : Resume) (depth : ℕ) (bs : List UInt8) (made : List Callback)
    (body' : Resume) (depth' : ℕ) (tail : List UInt8) : Prop where
  now : calls (readRest body depth bs).notes = made
  later (t : List UInt8) : Extends made (readRest body depth (bs ++ t))
    (readRest body' depth' (tail ++ t))
  held : Held depth' body' tail

/-- Finished items in front of what is left to read. -/
theorem Reads.after {body mid body' : Resume} {depth depth₁ depth' : ℕ} {bs rest tail : List UInt8}
    {made : List Callback} (notes : List Note)
    (hstep : ∀ t, readRest body depth (bs ++ t) = (readRest mid depth₁ (rest ++ t)).after notes)
    (hproper : ∀ c ∈ calls notes, Proper c) (h : Reads mid depth₁ rest made body' depth' tail) :
    Reads body depth bs (calls notes ++ made) body' depth' tail where
  now := by
    have hnil := hstep []
    rw [List.append_nil, List.append_nil] at hnil
    rw [hnil, Report.after_notes, calls_append, h.now]
  later t := by
    rw [hstep t]
    exact (h.later t).after hproper
  held := h.held

/-- A suspended body. -/
theorem Suspends.reads {body body' : Resume} {bs tail : List UInt8} {made : List Callback}
    (h : Suspends body bs made body' tail) (depth : ℕ) :
    Reads body depth bs made body' depth tail where
  now := by
    obtain ⟨notes, torn, hnow, rfl⟩ := h.now
    rw [readRest_of_short hnow]
  later t := (h.later t).bind _
  held := .body h.pending

/-- A tail that is held reads no callback until more bytes arrive. -/
theorem Held.reads {body : Resume} {depth : ℕ} {tail : List UInt8} (h : Held depth body tail) :
    Reads body depth tail [] body depth tail where
  now := by
    cases h with
    | boundary => rw [readRest_none, readFields_nil, calls_nil]
    | @head _ torn notes hshort hquiet =>
      rw [readRest_none]
      by_cases hne : tail = []
      · subst hne
        rw [readFields_nil, calls_nil]
      · rw [readFields_of_short hne hshort]
        exact hquiet
    | body hpending =>
      obtain ⟨torn, hquiet⟩ := hpending.quiet
      rw [readRest_of_short hquiet]
      rfl
  later _ := Extends.refl _
  held := h

/-- The report of parsing `buf` from `pos` on with `body` in progress. -/
inductive ParseRefines (buf : List UInt8) (pos : ℕ) (body : Resume) (is : IStream) :
    Parsed ℕ → Prop
  | ok {made : List Callback} {body' : Resume} {depth' stop : ℕ}
      (reads : Reads body is.depth (buf.drop pos) made body' depth' (buf.drop stop))
      (forward : pos ≤ stop) (inside : stop ≤ buf.length) :
      ParseRefines buf pos body is ⟨made, { is with resume := body', depth := depth' }, .ok stop⟩
  | rejected (notes : List Note) {is' : IStream}
      (read : readRest body is.depth (buf.drop pos) = ⟨notes, .invalid⟩) :
      ParseRefines buf pos body is ⟨calls notes, is', .error .invalidMsg⟩

/-- Finished items in front of what is parsed next. -/
theorem ParseRefines.after {buf : List UInt8} {pos next : ℕ} {body mid : Resume}
    {is : IStream} {parsed : Parsed ℕ} (is₁ : IStream) (notes : List Note)
    (hsame : ∀ body' depth', { is₁ with resume := body', depth := depth' } =
      { is with resume := body', depth := depth' })
    (hstep : ∀ t, readRest body is.depth (buf.drop pos ++ t) =
      (readRest mid is₁.depth (buf.drop next ++ t)).after notes)
    (hproper : ∀ c ∈ calls notes, Proper c) (hforward : pos ≤ next)
    (h : ParseRefines buf next mid is₁ parsed) :
    ParseRefines buf pos body is (parsed.after (calls notes)) := by
  cases h with
  | ok hreads hstop hinside =>
    rw [Parsed.after, hsame]
    exact .ok (hreads.after notes hstep hproper) (hforward.trans hstop) hinside
  | rejected more hread =>
    have hnow := hstep []
    rw [List.append_nil, List.append_nil, hread] at hnow
    rw [Parsed.after, ← calls_append]
    exact .rejected _ hnow

/-- The item in progress is not part of what parsing keeps. -/
theorem ParseRefines.of_resume {buf : List UInt8} {pos : ℕ} {body r : Resume} {is : IStream}
    {parsed : Parsed ℕ} (h : ParseRefines buf pos body { is with resume := r } parsed) :
    ParseRefines buf pos body is parsed := by
  cases h with
  | ok hreads hstop hend => exact .ok hreads hstop hend
  | rejected notes hread => exact .rejected notes hread

namespace IStream

variable {buf : List UInt8} {pos : ℕ} {is : IStream}

/-- Going on after a finished body. -/
theorem parseRefines_of_done {body : Resume} {next : ℕ} {notes : List Note} {parsed : Parsed ℕ}
    (hbody : ProperBody body)
    (hread : readBody body (buf.drop pos) = ⟨notes, .done () (buf.drop next)⟩)
    (hforward : pos ≤ next) (h : ParseRefines buf next .none is parsed) :
    ParseRefines buf pos body is (parsed.after (calls notes)) := by
  have hproper := readBody_proper hbody (buf.drop pos)
  rw [hread] at hproper
  refine h.after is notes (fun _ _ => rfl) (fun t => ?_) hproper hforward
  rw [readRest_of_done ((local_readBody body).append hread t), readRest_none]

/-- Going on after the head of a field. -/
theorem parseRefines_of_head {body : Resume} {depth mid : ℕ} {notes : List Note}
    {parsed : Parsed ℕ}
    (hread : readHead is.depth (buf.drop pos) = ⟨notes, .done (depth, body) (buf.drop mid)⟩)
    (hproper : ∀ c ∈ calls notes, Proper c) (hforward : pos ≤ mid)
    (h : ParseRefines buf mid body { is with depth := depth } parsed) :
    ParseRefines buf pos .none is (parsed.after (calls notes)) := by
  refine h.after { is with depth := depth } notes (fun _ _ => rfl) (fun t => ?_) hproper hforward
  rw [readRest_none]
  exact readFields_of_head ((local_readHead is.depth).append hread t)

/-- The field loop reads fields. -/
theorem parseFields_refines (hnone : is.resume = .none) (hpos : pos ≤ buf.length) :
    ParseRefines buf pos .none is (parseFields buf pos is) := by
  induction hn : buf.length - pos using Nat.strongRecOn generalizing pos is with
  | _ n ih =>
    subst hn
    have hsame : is = { is with resume := .none, depth := is.depth } := by rw [← hnone]
    by_cases hend : buf.length ≤ pos
    · have hnil : buf.drop pos = [] := List.drop_eq_nil_of_le hend
      have hheld : Held is.depth .none (buf.drop pos) := hnil ▸ .boundary
      rw [parseFields_of_le is hend]
      conv in (Parsed.mk _ is _) => rw [hsame]
      exact .ok hheld.reads (Nat.le_refl _) hpos
    have hlt : pos < buf.length := Nat.lt_of_not_le hend
    have hfield : TurnRefines buf pos pos is (readHead is.depth) (parseField buf pos is) :=
      parseField_refines hnone
    generalize hturn : parseField buf pos is = turn at hfield
    cases hfield with
    | @body notes depth mid body parsed hread hproper hforward hbody =>
      have hproperBody : ProperBody body := (returning_readHead is.depth hread).properBody
      cases hbody with
      | @done more next hdone hnext hinside =>
        rw [turn_of_done (by exact hnone)] at hturn
        have hadvances : pos < next := parseField_advances (congrArg Parsed.result hturn)
        have hrest : ParseRefines buf next .none { is with depth := depth }
            (parseFields buf next { is with depth := depth }) :=
          ih (buf.length - next) (by omega) hnone hinside rfl
        have hmid := parseRefines_of_done hproperBody hdone hnext hrest
        have hall := parseRefines_of_head hread hproper hforward hmid
        rw [parseFields_of_proceed hlt hturn]
        simpa [Parsed.after] using hall
      | @suspended made body' stop hsuspends hstop hinside =>
        rw [turn_of_suspended (by exact hsuspends.pending.ne_none)] at hturn
        have hmid : ParseRefines buf mid body { is with depth := depth } _ :=
          .ok (hsuspends.reads depth) hstop hinside
        rw [parseFields_of_finish hlt hturn]
        exact parseRefines_of_head hread hproper hforward hmid
      | @rejected more is' hbody =>
        have hmid : ParseRefines buf mid body { is with depth := depth }
            ⟨calls more, is', .error .invalidMsg⟩ := .rejected more (readRest_of_invalid hbody _)
        rw [parseFields_of_error hlt hturn]
        exact parseRefines_of_head hread hproper hforward hmid
    | torn notes torn hread hquiet =>
      have hheld : Held is.depth .none (buf.drop pos) := .head notes hread hquiet
      rw [parseFields_of_finish hlt hturn]
      conv in (Parsed.mk _ is _) => rw [hsame]
      exact .ok hheld.reads (Nat.le_refl _) hpos
    | rejected notes hread =>
      rw [parseFields_of_error hlt hturn]
      refine .rejected notes ?_
      rw [readRest_none]
      exact readFields_of_invalid hread

/-- An item that can be in progress: a payload in progress misses some of its bytes. -/
def Resumable : Resume → Prop
  | .payload _ _ total remaining => 0 < remaining ∧ remaining ≤ total
  | _ => True

/-- A payload that can be resumed has bytes missing. -/
theorem Resumable.properBody {body : Resume} (h : Resumable body) : ProperBody body := by
  cases body with
  | payload id isBlob total remaining => exact fun hrem => absurd hrem h.1.ne'
  | _ => trivial

/-- Continuing the item in progress reads its body. -/
theorem resumeItem_refines (hbody : is.resume ≠ .none) (hresumable : Resumable is.resume)
    (hpos : pos ≤ buf.length) :
    BodyRefines buf pos is.resume { is with resume := .none } (resumeItem buf pos is) := by
  rw [resumeItem, self_bind]
  rcases hresume : is.resume with _ | ⟨id, isBlob, total, remaining⟩ | ⟨id, signed, remaining⟩ |
    ⟨id, fp64, remaining⟩
  · exact absurd hresume hbody
  · rw [hresume] at hresumable
    exact deliverPayload_refines hpos hresume hresumable.1 hresumable.2
  · exact intArray_refines signed id remaining _ hpos
  · exact fixArray_refines fp64 id remaining _ hpos

/-- With no item in progress parsing begins with a field. -/
theorem parse_of_none (h : is.resume = .none) : parse buf is = parseFields buf 0 is := by
  rw [parse, self_bind, if_pos h]

/-- A body finished by this buffer is followed by the field loop. -/
theorem parse_of_done {is' : IStream} {calls : List Callback} {next : ℕ}
    (h : is.resume ≠ .none) (hitem : resumeItem buf 0 is = ⟨calls, is', .ok next⟩)
    (hdone : is'.resume = .none) : parse buf is = (parseFields buf next is').after calls := by
  rw [parse, self_bind, if_neg h, DecodeM.bind_ok hitem, self_bind, if_pos hdone]

/-- A body not finished by this buffer ends the parse. -/
theorem parse_of_suspended {is' : IStream} {calls : List Callback} {stop : ℕ}
    (h : is.resume ≠ .none) (hitem : resumeItem buf 0 is = ⟨calls, is', .ok stop⟩)
    (hmore : is'.resume ≠ .none) : parse buf is = ⟨calls, is', .ok stop⟩ := by
  rw [parse, self_bind, if_neg h, DecodeM.bind_ok hitem, self_bind, if_neg hmore,
    DecodeM.pure_apply, Parsed.after, List.append_nil]

/-- A rejected body ends the parse. -/
theorem parse_of_error {is' : IStream} {calls : List Callback} {e : Error}
    (h : is.resume ≠ .none) (hitem : resumeItem buf 0 is = ⟨calls, is', .error e⟩) :
    parse buf is = ⟨calls, is', .error e⟩ := by
  rw [parse, self_bind, if_neg h, DecodeM.bind_error hitem]

/-- Parsing reads what is left of the message. -/
theorem parse_refines (is : IStream) (buf : List UInt8) (hresumable : Resumable is.resume) :
    ParseRefines buf 0 is.resume is (parse buf is) := by
  by_cases hnone : is.resume = .none
  · rw [parse_of_none hnone, hnone]
    exact parseFields_refines hnone (Nat.zero_le _)
  · have hitem := resumeItem_refines hnone hresumable (Nat.zero_le buf.length)
    generalize hrun : resumeItem buf 0 is = parsed at hitem
    cases hitem with
    | @done notes next hread hforward hinside =>
      have hrest : ParseRefines buf next .none { is with resume := .none }
          (parseFields buf next { is with resume := .none }) := parseFields_refines rfl hinside
      have hall := parseRefines_of_done hresumable.properBody hread hforward hrest
      rw [parse_of_done hnone hrun rfl]
      exact hall.of_resume
    | @suspended made body' stop hsuspends hforward hinside =>
      rw [parse_of_suspended hnone hrun hsuspends.pending.ne_none]
      exact .ok (hsuspends.reads is.depth) hforward hinside
    | @rejected notes is' hread =>
      rw [parse_of_error hnone hrun]
      exact .rejected notes (readRest_of_invalid hread _)

end IStream

end Sofab
