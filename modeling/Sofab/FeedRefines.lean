import Sofab.Blindness
import Sofab.Consumption

/-!
# Feeding a chunk goes on with the message

A well-formed stream holds an unread tail of fewer bytes than the carry has room for.
Feeding a chunk reads this tail and the chunk, and leaves a well-formed stream whose
remaining reading continues the message.
-/

namespace Sofab

open Reading Reading.Reader DecodeM IStream

/-- The bytes carried to the next chunk. -/
def IStream.live (is : IStream) : List UInt8 := is.carry.take is.carryLen

/-- The invariant of a stream between feeds: the carry has room left, and its bytes are the
unread tail of the item in progress. -/
structure WellFormed (is : IStream) : Prop where
  fits : is.carryLen < carryCap
  held : Held is.depth is.resume is.live

/-- Between feeds as many bytes are held as the carry says. -/
theorem WellFormed.live_length {is : IStream} (h : WellFormed is) : is.live.length = is.carryLen := by
  rw [IStream.live, List.length_take, is.carrySize, Nat.min_eq_left h.fits.le]

/-- A held tail leaves room in the carry. -/
theorem Held.length_lt {depth : ℕ} {body : Resume} {tail : List UInt8} (h : Held depth body tail) :
    tail.length < carryCap := by
  change tail.length < 30
  cases h with
  | boundary => decide
  | head notes hshort _ => exact Nat.lt_succ_of_le (shortWithin_readHead depth hshort)
  | body hpending =>
    cases body with
    | none => exact hpending.elim
    | payload id isBlob total remaining =>
      rw [hpending.1]
      decide
    | arrayInt id signed remaining =>
      have hle := shortWithin_readWord hpending.2
      omega
    | arrayFix id fp64 remaining =>
      have hlt : tail.length < elemLen fp64 := hpending.2
      have hle : elemLen fp64 ≤ 8 := by cases fp64 <;> decide
      omega

/-- An item that waits for bytes can be resumed. -/
theorem Held.resumable {depth : ℕ} {body : Resume} {tail : List UInt8} (h : Held depth body tail) :
    Resumable body := by
  cases h with
  | boundary => trivial
  | head => trivial
  | body hpending => exact Pending.resumable hpending

/-- A fresh stream is well formed. -/
theorem wellFormed_new : WellFormed IStream.new where
  fits := by decide
  held := .boundary

/-- The verdict of a well-formed stream is that of the reading so far. -/
theorem WellFormed.verdict_eq {is : IStream} (h : WellFormed is) :
    verdict (readRest is.resume is.depth is.live) = .ok is.verdict := by
  have hlen := h.live_length
  have hheld := h.held
  generalize hlive : is.live = live at hheld hlen ⊢
  generalize hresume : is.resume = resume at hheld ⊢
  rw [IStream.verdict, IStream.atBoundary, hresume, ← hlen]
  cases hheld with
  | boundary =>
    rw [readRest_none, readFields_nil, Sofab.verdict]
    by_cases hdepth : is.depth = 0 <;> simp [hdepth]
  | head notes hshort _ =>
    rw [readRest_none]
    by_cases hne : live = []
    · subst hne
      rw [readFields_nil, Sofab.verdict]
      by_cases hdepth : is.depth = 0 <;> simp [hdepth]
    · rw [readFields_of_short hne hshort, Sofab.verdict]
      simp [hne]
  | body hpending =>
    obtain ⟨torn, hquiet⟩ := hpending.quiet
    rw [readRest_of_short hquiet, Sofab.verdict]
    simp [hpending.ne_none]

/-- A rejection of what is left of a message stands whatever follows. -/
theorem readRest_invalid_append {body : Resume} {depth : ℕ} {bs : List UInt8} {notes : List Note}
    (h : readRest body depth bs = ⟨notes, .invalid⟩) (t : List UInt8) :
    readRest body depth (bs ++ t) = ⟨notes, .invalid⟩ := by
  rcases bind_eq_invalid h with hbody | ⟨first, _, mid, second, hbody, hfields, rfl⟩
  · exact readRest_of_invalid ((local_readBody body).invalid hbody t) depth
  · have hinvalid : (readFields depth mid).outcome = .invalid := by rw [hfields]
    have hsecond : readFields depth (mid ++ t) = ⟨second, .invalid⟩ :=
      (exhaust_invalid_append local_readField hinvalid t).trans hfields
    rw [readRest_of_done ((local_readBody body).append hbody t), hsecond]
    rfl

/-- The callbacks of what is left of a message are properly sized. -/
theorem readRest_proper {body : Resume} (h : ProperBody body) (depth : ℕ) (bs : List UInt8) :
    ∀ c ∈ calls (readRest body depth bs).notes, Proper c := by
  have hbody := readBody_proper h bs
  rcases hrun : readBody body bs with ⟨notes, ⟨_, rest⟩ | torn | _⟩
  · rw [hrun] at hbody
    rw [readRest_of_done hrun, Report.after_notes, calls_append]
    intro c hc
    exact (List.mem_append.mp hc).elim (hbody c) fun hc => (readFields_whole depth rest c hc).1
  · rw [hrun] at hbody
    rw [readRest_of_short hrun]
    exact hbody
  · rw [hrun] at hbody
    rw [readRest_of_invalid hrun]
    exact hbody

/-- The made callbacks are those of a reading that is rejected. -/
structure Rejects (made : List Callback) (whole : Report Note UInt8 ℕ) : Prop where
  outcome : whole.outcome = .invalid
  joined : Joined made (calls whole.notes)

/-- A rejection after earlier callbacks. -/
theorem Extends.rejects {made made' : List Callback} {whole rest : Report Note UInt8 ℕ}
    (h : Extends made whole rest) (hrest : Rejects made' rest) : Rejects (made ++ made') whole where
  outcome := h.outcome.trans hrest.outcome
  joined := by
    have hrun : Joined made' (calls rest.notes ++ []) := by
      rw [List.append_nil]
      exact hrest.joined
    have hjoined := h.joined hrun
    rwa [List.append_nil] at hjoined

/-- A rejected reading stays rejected with the same callbacks. -/
theorem rejects_of_invalid {body : Resume} {depth : ℕ} {bs : List UInt8} {notes : List Note}
    (hbody : ProperBody body) (h : readRest body depth bs = ⟨notes, .invalid⟩) (t : List UInt8) :
    Rejects (calls notes) (readRest body depth (bs ++ t)) := by
  have hproper := readRest_proper hbody depth bs
  rw [h] at hproper
  rw [readRest_invalid_append h t]
  have hjoined : Joined (calls notes ++ []) (calls notes ++ []) := .of_proper hproper .nil
  rw [List.append_nil] at hjoined
  exact ⟨rfl, hjoined⟩

namespace IStream

variable {is : IStream}

/-- A rejection is latched. -/
def Latched {α : Type} (p : Parsed α) : Prop := ∀ e, p.result = .error e → p.is.invalid = true

/-- What is made of a position does not touch the latch. -/
theorem Latched.map {α β : Type} {p : Parsed α} (h : Latched p) (f : α → β) :
    Latched ⟨p.calls, p.is, p.result.map f⟩ := by
  intro e he
  rcases hp : p.result with e' | a
  · exact h e' hp
  · rw [hp] at he
    cases he

/-- Latching keeps what parsing reports and records a rejection. -/
theorem latch_refines {buf : List UInt8} {body : Resume} {m : DecodeM ℕ}
    (h : ParseRefines buf 0 body is (m is)) :
    ParseRefines buf 0 body is (latch m is) ∧ Latched (latch m is) := by
  rw [latch]
  generalize m is = parsed at h
  cases h with
  | ok hreads hforward hinside =>
    refine ⟨.ok hreads hforward hinside, ?_⟩
    intro e he
    cases he
  | rejected notes hread =>
    refine ⟨.rejected notes hread, ?_⟩
    intro e _
    rfl

/-- Positions in the rest of a buffer are positions in the buffer. -/
theorem parseRefines_shift {buf : List UInt8} {pos : ℕ} {body : Resume} {parsed : Parsed ℕ}
    (hpos : pos ≤ buf.length) (h : ParseRefines (buf.drop pos) 0 body is parsed) :
    ParseRefines buf pos body is
      ⟨parsed.calls, parsed.is, parsed.result.map fun more => pos + more⟩ := by
  cases h with
  | @ok made body' depth' stop hreads hforward hinside =>
    rw [List.drop_zero, List.drop_drop] at hreads
    rw [List.length_drop] at hinside
    exact .ok hreads (Nat.le_add_right _ _) (show pos + stop ≤ buf.length by omega)
  | rejected notes hread => exact .rejected notes hread

/-- The bytes past the carry are read like any buffer. -/
theorem consume_refines (rest : List UInt8) (hresumable : Resumable is.resume) :
    ParseRefines rest 0 is.resume is (consume rest is) ∧ Latched (consume rest is) := by
  rw [consume, self_bind]
  rcases hresume : is.resume with _ | ⟨id, isBlob, total, remaining⟩ | _ | _
  case payload =>
    rw [hresume] at hresumable
    simp only
    have hdeliver := deliverPayload_refines (Nat.zero_le rest.length) hresume hresumable.1
      hresumable.2
    generalize hrun : deliverPayload rest 0 is = parsed at hdeliver
    cases hdeliver with
    | @done notes next hread hforward hinside =>
      have hparse := latch_refines
        (parse_refines { is with resume := .none } (rest.drop next) trivial)
      have hshift := parseRefines_shift hinside hparse.1
      have hall := parseRefines_of_done hresumable.properBody hread hforward hshift
      rw [DecodeM.bind_ok hrun, self_bind, if_pos rfl, bind_pure_apply]
      exact ⟨hall.of_resume, hparse.2.map _⟩
    | @suspended made body' stop hsuspends hforward hinside =>
      rw [DecodeM.bind_ok hrun, self_bind, if_neg hsuspends.pending.ne_none, DecodeM.pure_apply,
        Parsed.after, List.append_nil]
      exact ⟨.ok (hsuspends.reads is.depth) hforward hinside, fun e he => by cases he⟩
    | rejected notes hread =>
      rw [readBody, payload] at hread
      split at hread
      · cases hread
      · split at hread <;> cases hread
  all_goals
    have hplain := latch_refines (parse_refines is rest hresumable)
    rw [hresume] at hplain
    exact hplain

/-- The stream that holds `tail` in its carry. -/
def holding (is : IStream) (tail : List UInt8) : IStream :=
  { is.storeCarry 0 tail with carryLen := tail.length }

/-- What was put into the carry is what it holds. -/
theorem holding_live {tail : List UInt8} (h : tail.length ≤ carryCap) :
    (is.holding tail).live = tail := by
  have hfit : 0 + tail.length ≤ is.carry.length := by
    rw [is.carrySize]
    omega
  have htake := Splice.take_overwrite is.carry tail hfit
  rw [Nat.zero_add, List.take_zero, List.nil_append] at htake
  exact htake

/-- Stashing a tail that fits. -/
theorem stash_eq (is : IStream) {tail : List UInt8} (h : tail.length ≤ carryCap) :
    stash tail is = ⟨[], is.holding tail, .ok ()⟩ := by
  rw [stash, if_neg (Nat.not_lt.mpr h)]
  rfl

/-- A stream that holds a held tail is well formed. -/
theorem wellFormed_holding {tail : List UInt8} (h : Held is.depth is.resume tail) :
    WellFormed (is.holding tail) where
  fits := h.length_lt
  held := by
    rw [holding_live h.length_lt.le]
    exact h

/-- Latching does not change a result that is no error. -/
theorem latch_result {α : Type} {m : DecodeM α} {a : α} (h : (latch m is).result = .ok a) :
    (m is).result = .ok a := by
  rw [latch] at h
  rcases hm : m is with ⟨calls, is', e | b⟩
  · rw [hm] at h
    cases h
  · rw [hm] at h
    exact h

/-- A stream with an empty carry is well formed at a boundary or between the pieces of a
body. -/
theorem wellFormed_of_nil (hcarry : is.carryLen = 0) (h : Held is.depth is.resume []) :
    WellFormed is where
  fits := by
    rw [hcarry]
    decide
  held := by
    rw [live, hcarry, List.take_zero]
    exact h

/-- The report of feeding the bytes `bs`, carried ones first, to a stream. -/
inductive FeedRefines (is : IStream) (bs : List UInt8) : Parsed Status → Prop
  | ok {made : List Callback} {is' : IStream} (wellFormed : WellFormed is')
      (valid : is'.invalid = false)
      (later : ∀ t, Extends made (readRest is.resume is.depth (bs ++ t))
        (readRest is'.resume is'.depth (is'.live ++ t))) :
      FeedRefines is bs ⟨made, is', .ok is'.verdict⟩
  | rejected {made : List Callback} {is' : IStream} (latched : is'.invalid = true)
      (rejects : ∀ t, Rejects made (readRest is.resume is.depth (bs ++ t))) :
      FeedRefines is bs ⟨made, is', .error .invalidMsg⟩

/-- The in-place path reads its bytes. -/
theorem feedRest_refines (rest : List UInt8) (hresumable : Resumable is.resume)
    (hcarry : is.carryLen = 0) (hvalid : is.invalid = false) :
    FeedRefines is rest (feedRest rest is) := by
  obtain ⟨hconsume, hlatched⟩ := consume_refines rest hresumable
  rw [feedRest]
  generalize hrun : consume rest is = parsed at hconsume hlatched
  cases hconsume with
  | @ok made body' depth' stop hreads _ hinside =>
    rw [DecodeM.bind_ok hrun]
    have hlater (t : List UInt8) : Extends made (readRest is.resume is.depth (rest ++ t))
        (readRest body' depth' (rest.drop stop ++ t)) := hreads.later t
    by_cases hmore : stop < rest.length
    · have hfits : (rest.drop stop).length ≤ carryCap := hreads.held.length_lt.le
      have hstash := stash_eq { is with resume := body', depth := depth' } hfits
      rw [if_pos hmore, DecodeM.bind_ok hstash]
      change FeedRefines is rest ⟨made ++ [],
        holding { is with resume := body', depth := depth' } (rest.drop stop), .ok _⟩
      rw [List.append_nil]
      refine .ok (wellFormed_holding hreads.held) hvalid fun t => ?_
      rw [holding_live hfits]
      exact hlater t
    · have hnil : rest.drop stop = [] := List.drop_eq_nil_of_le (by omega)
      have hheld := hreads.held
      rw [hnil] at hheld
      rw [if_neg hmore]
      change FeedRefines is rest ⟨made ++ [], { is with resume := body', depth := depth' }, .ok _⟩
      rw [List.append_nil]
      refine .ok (wellFormed_of_nil hcarry hheld) hvalid fun t => ?_
      have hlive : IStream.live { is with resume := body', depth := depth' } = rest.drop stop := by
        rw [hnil, live, hcarry, List.take_zero]
      rw [hlive]
      exact hlater t
  | @rejected notes is' hread =>
    rw [DecodeM.bind_error hrun]
    exact .rejected (hlatched _ rfl) (rejects_of_invalid hresumable.properBody hread)

/-- A feed after earlier bytes were read. -/
theorem FeedRefines.after {is₁ : IStream} {bs rest : List UInt8} {made : List Callback}
    {parsed : Parsed Status} (h : FeedRefines is₁ rest parsed)
    (hstep : ∀ t, Extends made (readRest is.resume is.depth (bs ++ t))
      (readRest is₁.resume is₁.depth (rest ++ t))) :
    FeedRefines is bs (parsed.after made) := by
  cases h with
  | ok hwell hvalid hlater => exact .ok hwell hvalid fun t => (hstep t).trans (hlater t)
  | rejected hlatched hrejects => exact .rejected hlatched fun t => (hstep t).rejects (hrejects t)

/-- The stitched carry is the held bytes and the head of the chunk. -/
theorem storeCarry_take (chunk : List UInt8) (hfits : is.carryLen ≤ carryCap) :
    let take := min (carryCap - is.carryLen) chunk.length
    (is.storeCarry is.carryLen (chunk.take take)).carry.take (is.carryLen + take) =
      is.live ++ chunk.take take := by
  have hlen : (chunk.take (min (carryCap - is.carryLen) chunk.length)).length =
      min (carryCap - is.carryLen) chunk.length := by
    rw [List.length_take]
    omega
  have hroom : is.carryLen + (chunk.take (min (carryCap - is.carryLen) chunk.length)).length ≤
      is.carry.length := by
    rw [hlen, is.carrySize]
    omega
  have htake := Splice.take_overwrite is.carry _ hroom
  rw [hlen] at htake
  exact htake

/-- What becomes of the carry once the stitched bytes are parsed up to `consumed`. -/
def settle (chunk : List UInt8) (held take : ℕ) (stitched : List UInt8) (consumed : ℕ) :
    DecodeM (Option (List UInt8)) :=
  if held ≤ consumed then do
    update fun is => { is with carryLen := 0 }
    pure (some (chunk.drop (consumed - held)))
  else do
    update fun is => is.holding (stitched.drop consumed)
    if take < chunk.length then
      latch (fail .invalidMsg)
    else
      pure none

/-- Completing the carried item is parsing the live bytes with the head of the chunk. -/
theorem resumeCarried_eq (chunk : List UInt8) (hfits : is.carryLen ≤ carryCap) :
    let take := min (carryCap - is.carryLen) chunk.length
    let stitched := is.live ++ chunk.take take
    resumeCarried chunk is =
      (latch (parse stitched) >>= settle chunk is.carryLen take stitched)
        (is.storeCarry is.carryLen (chunk.take take)) := by
  intro take stitched
  have hbuf : (is.storeCarry is.carryLen (chunk.take take)).carry.take (is.carryLen + take) =
      stitched := storeCarry_take chunk hfits
  have hlen : stitched.length = is.carryLen + take := by
    rw [← hbuf, List.length_take, carrySize]
    omega
  rw [resumeCarried]
  change (latch (parse ((is.storeCarry is.carryLen (chunk.take take)).carry.take _)) >>= _)
    (is.storeCarry is.carryLen (chunk.take take)) = _
  rw [hbuf]
  have hkept := ((blind_latch (blind_parse stitched)).kept
    (is.storeCarry is.carryLen (chunk.take take))).1
  rcases hrun : latch (parse stitched) (is.storeCarry is.carryLen (chunk.take take)) with
    ⟨calls, is', e | consumed⟩
  · rw [DecodeM.bind_error hrun, DecodeM.bind_error hrun]
  · rw [hrun] at hkept
    rw [DecodeM.bind_ok hrun, DecodeM.bind_ok hrun, settle]
    split
    · rfl
    · have hstitched : is'.carry.take (is.carryLen + take) = stitched := by
        rw [hkept]
        exact hbuf
      have hheld : { is'.storeCarry 0 ((is'.carry.take (is.carryLen + take)).drop consumed) with
          carryLen := is.carryLen + take - consumed } = is'.holding (stitched.drop consumed) := by
        rw [hstitched, holding, List.length_drop, hlen]
      rw [update_bind, update_bind, update_bind, hheld]

/-- Stitched bytes that still hold no whole item leave no chunk behind: nothing of them is
consumed, and they are fewer than the carry has room for. -/
theorem stitched_short {chunk : List UInt8} {take stop : ℕ} (hwell : WellFormed is)
    (htake : min (carryCap - is.carryLen) chunk.length = take)
    (h : (parse (is.live ++ chunk.take take) (is.storeCarry is.carryLen (chunk.take take))).result =
      .ok stop) (hshort : stop < is.carryLen) : stop = 0 ∧ take = chunk.length := by
  have hlen := hwell.live_length
  have hzero : stop = 0 := by
    have hconsumed :=
      parse_consumed (is.storeCarry is.carryLen (chunk.take take)) hwell.held h
    omega
  subst hzero
  have hparse := parse_refines (is.storeCarry is.carryLen (chunk.take take))
    (is.live ++ chunk.take take) hwell.held.resumable
  generalize parse (is.live ++ chunk.take take)
    (is.storeCarry is.carryLen (chunk.take take)) = parsed at h hparse
  cases hparse with
  | @ok made body' depth' stop' hreads _ _ =>
    cases h
    have hroom := hreads.held.length_lt
    rw [List.drop_zero, List.length_append, List.length_take, hlen] at hroom
    change _ < 30 at hroom
    change min (30 - is.carryLen) chunk.length = take at htake
    exact ⟨rfl, by omega⟩
  | rejected => cases h

/-- The report of completing the carried item with the head of a chunk. -/
inductive CarriedRefines (is : IStream) (chunk : List UInt8) :
    Parsed (Option (List UInt8)) → Prop
  | handed {made : List Callback} {is' : IStream} {rest : List UInt8} (carry : is'.carryLen = 0)
      (valid : is'.invalid = false) (resumable : Resumable is'.resume)
      (later : ∀ t, Extends made (readRest is.resume is.depth (is.live ++ chunk ++ t))
        (readRest is'.resume is'.depth (rest ++ t))) :
      CarriedRefines is chunk ⟨made, is', .ok (some rest)⟩
  | absorbed {made : List Callback} {is' : IStream} (wellFormed : WellFormed is')
      (valid : is'.invalid = false)
      (later : ∀ t, Extends made (readRest is.resume is.depth (is.live ++ chunk ++ t))
        (readRest is'.resume is'.depth (is'.live ++ t))) :
      CarriedRefines is chunk ⟨made, is', .ok none⟩
  | rejected {made : List Callback} {is' : IStream} (latched : is'.invalid = true)
      (rejects : ∀ t, Rejects made (readRest is.resume is.depth (is.live ++ chunk ++ t))) :
      CarriedRefines is chunk ⟨made, is', .error .invalidMsg⟩

/-- Completing the carried item reads the carry and the head of the chunk. -/
theorem resumeCarried_refines (chunk : List UInt8) (hwell : WellFormed is)
    (hvalid : is.invalid = false) : CarriedRefines is chunk (resumeCarried chunk is) := by
  have hlen := hwell.live_length
  have hcarried := resumeCarried_eq chunk hwell.fits.le
  simp only at hcarried
  generalize htake : min (carryCap - is.carryLen) chunk.length = take at hcarried
  have hsplit : chunk = chunk.take take ++ chunk.drop take := (List.take_append_drop take chunk).symm
  obtain ⟨hparse, hlatched⟩ := latch_refines
    (parse_refines (is.storeCarry is.carryLen (chunk.take take)) (is.live ++ chunk.take take)
      hwell.held.resumable)
  rw [hcarried]
  generalize hrun : latch (parse (is.live ++ chunk.take take))
    (is.storeCarry is.carryLen (chunk.take take)) = parsed at hparse hlatched
  cases hparse with
  | @ok made body' depth' stop hreads _ hinside =>
    have hbytes (t : List UInt8) :
        is.live ++ chunk ++ t = is.live ++ chunk.take take ++ (chunk.drop take ++ t) := by
      rw [List.append_assoc, List.append_assoc, ← List.append_assoc (chunk.take take),
        List.take_append_drop]
    have hlater (t : List UInt8) : Extends made (readRest is.resume is.depth (is.live ++ chunk ++ t))
        (readRest body' depth' ((is.live ++ chunk.take take).drop stop ++ (chunk.drop take ++ t))) := by
      rw [hbytes]
      exact hreads.later _
    rw [DecodeM.bind_ok hrun]
    by_cases hle : is.carryLen ≤ stop
    · have hrest : (is.live ++ chunk.take take).drop stop ++ chunk.drop take =
          chunk.drop (stop - is.carryLen) := by
        rw [← List.drop_append_of_le_length hinside, List.append_assoc, List.take_append_drop,
          List.drop_append, List.drop_eq_nil_of_le (by omega), hlen, List.nil_append]
      rw [settle, if_pos hle]
      change CarriedRefines is chunk ⟨made ++ [], _, .ok (some (chunk.drop (stop - is.carryLen)))⟩
      rw [List.append_nil]
      refine .handed rfl hvalid hreads.held.resumable fun t => ?_
      have hnext := hlater t
      rw [← List.append_assoc, hrest] at hnext
      exact hnext
    · have hresult := latch_result (congrArg Parsed.result hrun)
      obtain ⟨rfl, hall⟩ := stitched_short hwell htake hresult (Nat.lt_of_not_le hle)
      have hheld := hreads.held
      rw [List.drop_zero] at hheld
      have hmore : ¬take < chunk.length := by omega
      have hgoal : CarriedRefines is chunk ⟨made, holding { is.storeCarry is.carryLen
          (chunk.take take) with resume := body', depth := depth' } (is.live ++ chunk.take take),
          .ok none⟩ := by
        refine .absorbed (wellFormed_holding hheld) hvalid fun t => ?_
        have hnext := hlater t
        rw [List.drop_zero, List.drop_of_length_le hall.ge, List.nil_append] at hnext
        rw [holding_live hheld.length_lt.le]
        exact hnext
      rw [← List.append_nil made] at hgoal
      rw [settle, if_neg hle, update_bind, if_neg hmore, List.drop_zero]
      exact hgoal
  | @rejected notes is' hread =>
    rw [DecodeM.bind_error hrun]
    refine .rejected (hlatched _ rfl) fun t => ?_
    rw [hsplit, ← List.append_assoc, List.append_assoc _ _ t]
    exact rejects_of_invalid hwell.held.resumable.properBody hread _

/-- Feeding a chunk to a well-formed stream goes on with the message. -/
theorem feed_refines (chunk : List UInt8) (hwell : WellFormed is) (hvalid : is.invalid = false) :
    FeedRefines is (is.live ++ chunk) (feed chunk is) := by
  rw [feed, self_bind, hvalid, if_neg Bool.false_ne_true, self_bind]
  by_cases hcarry : is.carryLen = 0
  · have hlive : is.live = [] := by rw [live, hcarry, List.take_zero]
    rw [hlive, List.nil_append, if_pos hcarry]
    exact feedRest_refines chunk hwell.held.resumable hcarry hvalid
  · have hcarried := resumeCarried_refines chunk hwell hvalid
    rw [if_neg hcarry]
    generalize hrun : resumeCarried chunk is = parsed at hcarried
    cases hcarried with
    | handed hnil hvalid' hresumable hlater =>
      rw [DecodeM.bind_ok hrun]
      exact (feedRest_refines _ hresumable hnil hvalid').after hlater
    | absorbed hwell' hvalid' hlater =>
      rw [DecodeM.bind_ok hrun]
      change FeedRefines is _ ⟨_ ++ [], _, .ok _⟩
      rw [List.append_nil]
      exact .ok hwell' hvalid' hlater
    | rejected hlatched hrejects =>
      rw [DecodeM.bind_error hrun]
      exact .rejected hlatched hrejects

end IStream

end Sofab
