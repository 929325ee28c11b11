import Sofab.ArrayRefines

/-!
# One turn of the field loop reads one field

Every arm of the field loop reads the head its wire type prescribes, checks what the
reference demands in the same order, and hands the body to its loop.
-/

namespace Sofab

open Reading Reading.Reader DecodeM IStream

/-- What the field loop makes of a body: it goes on unless the body was suspended. -/
def Parsed.turn (p : Parsed ℕ) : Parsed Turn :=
  ⟨p.calls, p.is, p.result.map fun pos =>
    if p.is.resume = .none then .proceed pos else .finish pos⟩

/-- The loop goes on behind a field that is done. -/
theorem turn_of_done {calls : List Callback} {is : IStream} {next : ℕ} (hnone : is.resume = .none) :
    (Parsed.mk calls is (.ok next)).turn = ⟨calls, is, .ok (.proceed next)⟩ := by
  simp only [Parsed.turn, Except.map, if_pos hnone]

/-- The loop stops behind an item that waits for bytes. -/
theorem turn_of_suspended {calls : List Callback} {is : IStream} {stop : ℕ}
    (hne : is.resume ≠ .none) :
    (Parsed.mk calls is (.ok stop)).turn = ⟨calls, is, .ok (.finish stop)⟩ := by
  simp only [Parsed.turn, Except.map, if_neg hne]

/-- The report of a turn that still has to read `head` at `pos`, in a field that starts at
`fieldStart`. -/
inductive TurnRefines (buf : List UInt8) (fieldStart pos : ℕ) (is : IStream)
    (head : WireReader (ℕ × Resume)) : Parsed Turn → Prop
  | body (notes : List Note) {depth mid : ℕ} {body : Resume} {parsed : Parsed ℕ}
      (read : head (buf.drop pos) = ⟨notes, .done (depth, body) (buf.drop mid)⟩)
      (proper : ∀ c ∈ calls notes, Proper c) (forward : pos ≤ mid)
      (refines : BodyRefines buf mid body { is with depth := depth } parsed) :
      TurnRefines buf fieldStart pos is head (parsed.turn.after (calls notes))
  | torn (notes torn)
      (read : head (buf.drop pos) = ⟨notes, .short torn⟩) (quiet : calls notes = []) :
      TurnRefines buf fieldStart pos is head ⟨[], is, .ok (.finish fieldStart)⟩
  | rejected (notes : List Note) {is' : IStream}
      (read : head (buf.drop pos) = ⟨notes, .invalid⟩) :
      TurnRefines buf fieldStart pos is head ⟨calls notes, is', .error .invalidMsg⟩

variable {buf : List UInt8} {fieldStart pos : ℕ} {is : IStream}

/-- A turn that fails rejects. -/
theorem turnRefines_fail : TurnRefines buf fieldStart pos is reject (fail .invalidMsg is) :=
  .rejected [] rfl

/-- A check of the source is a demand of the reference. -/
theorem turnRefines_demand {p c : Prop} [Decidable p] [Decidable c] {head : WireReader (ℕ × Resume)}
    {m : DecodeM Turn} (hpc : c ↔ ¬p) (h : p → TurnRefines buf fieldStart pos is head (m is)) :
    TurnRefines buf fieldStart pos is (demand p >>= fun _ => head)
      ((if c then fail .invalidMsg else m) is) := by
  by_cases hp : p
  · rw [if_neg (fun hc => hpc.mp hc hp), demand_of_pos hp, Reader.pure_bind]
    exact h hp
  · rw [if_pos (hpc.mpr hp), demand_of_neg hp, reject_bind]
    exact turnRefines_fail

/-- Silent notes in front of a head. -/
theorem TurnRefines.after {head head' : WireReader (ℕ × Resume)} {next : ℕ} {parsed : Parsed Turn}
    (notes : List Note) (hstep : head (buf.drop pos) = (head' (buf.drop next)).after notes)
    (hquiet : calls notes = []) (hforward : pos ≤ next)
    (h : TurnRefines buf fieldStart next is head' parsed) :
    TurnRefines buf fieldStart pos is head parsed := by
  have hcalls (more : List Note) : calls more = calls (notes ++ more) := by
    rw [calls_append, hquiet, List.nil_append]
  cases h with
  | body more hread hproper hmid hrefines =>
    rw [hcalls more]
    refine .body _ ?_ (hcalls more ▸ hproper) (hforward.trans hmid) hrefines
    rw [hstep, hread]
    rfl
  | torn more torn hread hmore =>
    have hread' : head (buf.drop pos) = ⟨notes ++ more, .short torn⟩ := by
      rw [hstep, hread]
      rfl
    exact .torn _ _ hread' (hcalls more ▸ hmore)
  | rejected more hread =>
    rw [hcalls more]
    refine .rejected _ ?_
    rw [hstep, hread]
    rfl

/-- Reading one more varint of a head. -/
theorem turnRefines_word {noted : List UInt8 → ℕ → Note} {next : ℕ → WireReader (ℕ × Resume)}
    {k : Option (Unsigned × ℕ) → DecodeM Turn} (hquiet : ∀ spelling n, calls [noted spelling n] = [])
    (hnone : k none = pure (.finish fieldStart))
    (hsome : ∀ value p, pos < p → p ≤ buf.length →
      TurnRefines buf fieldStart p is (next value.toNat) (k (some (value, p)) is)) :
    TurnRefines buf fieldStart pos is (notedWord noted >>= next)
      ((ofExcept (readVarint buf pos) >>= k) is) := by
  rcases readVarint_cases buf pos with
    ⟨value, p, spelling, hread, hlt, hinside, hword⟩ | ⟨hread, hword⟩ | ⟨hread, hword⟩
  · rw [hread]
    refine (hsome value p hlt hinside).after [noted spelling value.toNat] ?_ (hquiet _ _) hlt.le
    rw [bind_of_done (notedWord_of_done noted hword)]
  · have hk : (DecodeM.ofExcept (.ok none) >>= k) is = ⟨[], is, .ok (.finish fieldStart)⟩ := by
      change (k none is).after [] = _
      rw [hnone]
      rfl
    rw [hread, hk]
    exact .torn [] _ (bind_of_short (notedWord_of_short noted hword) _) rfl
  · rw [hread]
    exact .rejected [] (bind_of_invalid (notedWord_of_invalid noted hword) _)

/-- Announcing a body and reading it. -/
theorem turnRefines_announce {call : Callback} {body : Resume} {m : DecodeM ℕ}
    (hproper : Proper call) (h : BodyRefines buf pos body is (m is)) :
    TurnRefines buf fieldStart pos is (announce is.depth call body)
      ((visit call >>= fun _ => m >>= orSuspended) is) := by
  have hturn : (m >>= orSuspended) is = (m is).turn := by
    rcases hm : m is with ⟨made, is', e | p⟩
    · rw [DecodeM.bind_error hm]
      rfl
    · rw [DecodeM.bind_ok hm, orSuspended, self_bind]
      by_cases hnone : is'.resume = .none
      · rw [turn_of_done hnone, if_pos hnone, DecodeM.pure_apply, Parsed.after, List.append_nil]
      · rw [turn_of_suspended hnone, if_neg hnone, DecodeM.pure_apply, Parsed.after,
          List.append_nil]
  rw [visit_bind, hturn]
  exact .body [.call call] rfl (List.forall_mem_singleton.mpr hproper) (Nat.le_refl _) h

/-- A field that ends with its head. -/
theorem turnRefines_ends {call : Callback} {depth : ℕ} (hnone : is.resume = .none)
    (hproper : Proper call) (hpos : pos ≤ buf.length) :
    TurnRefines buf fieldStart pos is (announce depth call .none)
      ⟨[call], { is with depth := depth }, .ok (.proceed pos)⟩ := by
  have hread : announce depth call .none (buf.drop pos) =
      ⟨[.call call], .done (depth, .none) (buf.drop pos)⟩ := rfl
  have hbody : BodyRefines buf pos .none { is with depth := depth }
      ⟨calls [], { is with depth := depth }, .ok pos⟩ := .done [] rfl (Nat.le_refl _) hpos
  have hturn : TurnRefines buf fieldStart pos is (announce depth call .none) _ :=
    .body [.call call] hread (List.forall_mem_singleton.mpr hproper) (Nat.le_refl _) hbody
  rwa [turn_of_done (by exact hnone)] at hturn

/-- The tag in the low three bits of a word. -/
theorem tag_eq (w : Unsigned) : (w &&& (0x07 : UInt64)).toUInt8 = UInt8.ofNat (w.toNat % 8) := by
  apply UInt8.toNat_inj.mp
  rw [UInt64.toNat_toUInt8, UInt64.toNat_and, UInt8.toNat_ofNat']
  change (w.toNat &&& (2 ^ 3 - 1)) % 256 = _
  rw [Nat.and_two_pow_sub_one_eq_mod]

/-- The part of a word above its tag. -/
theorem shiftRight_three (w : Unsigned) : (w >>> 3).toNat = w.toNat / 8 := by
  rw [UInt64.toNat_shiftRight, Nat.shiftRight_eq_div_pow]
  rfl

section Arms

variable {id : Id}

/-- A scalar integer field. -/
theorem parseVarint_refines (signed : Bool) (hnone : is.resume = .none) :
    TurnRefines buf fieldStart pos is
      (word >>= fun value => announce is.depth (.integer signed id (.ofNat value)) .none)
      (parseVarint signed buf fieldStart pos id is) := by
  refine turnRefines_word (fun _ _ => rfl) rfl fun value p _ hp => ?_
  rw [UInt64.ofNat_toNat]
  exact turnRefines_ends hnone (proper_integer _ _ _) hp

/-- A scalar float field. -/
theorem parseFloat_refines (fp64 : Bool) (len : ℕ) (hpos : pos ≤ buf.length) :
    TurnRefines buf fieldStart pos is
      (demand (len = elemLen fp64) >>= fun _ =>
        announce is.depth (.fixlenBegin id (if fp64 then .fp64 else .fp32) len)
          (.arrayFix id fp64 1))
      (parseFloat fp64 buf pos id len is) :=
  turnRefines_demand Iff.rfl fun _ =>
    turnRefines_announce trivial (fixArray_refines fp64 id 1 is hpos)

/-- A loop that leaves its body short does not go on to the next field. -/
theorem BodyRefines.turn_of_short {body : Resume} {parsed : Parsed ℕ} {notes : List Note}
    {torn : List UInt8} (h : BodyRefines buf pos body is parsed)
    (hshort : readBody body (buf.drop pos) = ⟨notes, .short torn⟩) :
    parsed.turn = ⟨parsed.calls, parsed.is, parsed.result.map .finish⟩ := by
  cases h with
  | done more hread =>
    rw [hread] at hshort
    cases hshort
  | suspended hsuspends => exact turn_of_suspended hsuspends.pending.ne_none
  | rejected more hread =>
    rw [hread] at hshort
    cases hshort

/-- A string or blob field. -/
theorem parsePayload_refines (isBlob : Bool) (len : ℕ) (hnone : is.resume = .none)
    (hpos : pos ≤ buf.length) :
    TurnRefines buf fieldStart pos is
      (announce is.depth (.fixlenBegin id (if isBlob then .blob else .str) len)
        (.payload id isBlob len len))
      (parsePayload isBlob buf pos id len is) := by
  have hlen : (buf.drop pos).length = buf.length - pos := List.length_drop
  have hsame : { is with resume := .none } = is := by rw [← hnone]
  rw [parsePayload, visit_bind]
  generalize (if isBlob then FixlenType.blob else FixlenType.str) = subtype
  have hcall : ∀ c ∈ calls [.call (.fixlenBegin id subtype len)], Proper c :=
    List.forall_mem_singleton.mpr trivial
  have hhead : announce is.depth (.fixlenBegin id subtype len) (.payload id isBlob len len)
      (buf.drop pos) = ⟨[.call (.fixlenBegin id subtype len)],
        .done (is.depth, .payload id isBlob len len) (buf.drop pos)⟩ := rfl
  by_cases hle : len ≤ buf.length - pos
  · have hread : readBody (.payload id isBlob len len) (buf.drop pos) =
        ⟨[.raw ((buf.drop pos).take len), .call (.payload isBlob id len 0 ((buf.drop pos).take len))],
          .done () (buf.drop (pos + len))⟩ := by
      rw [readBody, payload, if_pos (by omega), List.drop_drop, Nat.sub_self]
    have hbody : BodyRefines buf pos (.payload id isBlob len len) is _ :=
      .done _ hread (Nat.le_add_right _ _) (by omega)
    have hturn : TurnRefines buf fieldStart pos is _ _ := .body _ hhead hcall (Nat.le_refl _) hbody
    rw [turn_of_done hnone] at hturn
    rw [if_pos hle]
    exact hturn
  · have hpos' : 0 < len := by omega
    have hbody : BodyRefines buf pos (.payload id isBlob len len) { is with resume := .none }
        (deliverPayload buf pos { is with resume := .payload id isBlob len len }) :=
      @deliverPayload_refines buf pos len len id isBlob
        { is with resume := .payload id isBlob len len } hpos rfl hpos' (Nat.le_refl _)
    have hshort : ∃ notes torn, readBody (.payload id isBlob len len) (buf.drop pos) =
        ⟨notes, .short torn⟩ := by
      have hmissing : ¬len ≤ (buf.drop pos).length := by omega
      rw [readBody, payload, if_neg hmissing]
      split <;> exact ⟨_, _, rfl⟩
    obtain ⟨notes, torn, hshort⟩ := hshort
    have hturn := hbody.turn_of_short hshort
    rw [hsame] at hbody
    have hrefines : TurnRefines buf fieldStart pos is _ _ :=
      .body _ hhead hcall (Nat.le_refl _) hbody
    rw [hturn] at hrefines
    rw [if_neg hle, update_bind]
    rcases hd : deliverPayload buf pos { is with resume := .payload id isBlob len len } with
      ⟨made, is', e | stop⟩
    · rw [hd] at hrefines
      rw [DecodeM.bind_error hd]
      exact hrefines
    · rw [hd] at hrefines
      rw [DecodeM.bind_ok hd, DecodeM.pure_apply]
      simpa [Parsed.after, Except.map] using hrefines

/-- A scalar fixlen field. -/
theorem parseFixlen_refines (hnone : is.resume = .none) :
    TurnRefines buf fieldStart pos is (fixlenHead is.depth id)
      (parseFixlen buf fieldStart pos id is) := by
  refine turnRefines_word (fun _ _ => rfl) rfl fun w p _ hp => turnRefines_demand ?_ fun hlen => ?_
  · rw [shiftRight_three, Nat.not_le]
  · rw [shiftRight_three]
    simp only [tag_eq]
    have hfloat (fp64 : Bool) : TurnRefines buf fieldStart p is _
        (parseFloat fp64 buf p id (w.toNat / 8) is) := parseFloat_refines fp64 _ hp
    have hpayload (isBlob : Bool) : TurnRefines buf fieldStart p is _
        (parsePayload isBlob buf p id (w.toNat / 8) is) := parsePayload_refines isBlob _ hnone hp
    have htag : w.toNat % 8 < 8 := Nat.mod_lt _ (by decide)
    generalize w.toNat % 8 = tag at htag ⊢
    match tag with
    | 0 => exact hfloat false
    | 1 => exact hfloat true
    | 2 => exact hpayload false
    | 3 => exact hpayload true
    | 4 | 5 | 6 | 7 => exact turnRefines_fail
    | tag + 8 => omega

/-- An integer array. -/
theorem parseVarintArray_refines (signed : Bool) :
    TurnRefines buf fieldStart pos is (integersHead is.depth id signed)
      (parseVarintArray signed buf fieldStart pos id is) := by
  refine turnRefines_word (fun _ _ => rfl) rfl fun count p _ hp => turnRefines_demand Nat.not_le.symm fun _ => ?_
  exact turnRefines_announce trivial (intArray_refines signed id count.toNat is hp)

/-- The type word of a float array is one of two. -/
theorem fixlenArrayType_eq (w : Unsigned) :
    fixlenArrayType w =
      if w.toNat % 8 = 0 ∧ w.toNat / 8 = 4 then some false
      else if w.toNat % 8 = 1 ∧ w.toNat / 8 = 8 then some true
      else none := by
  have htag (t : ℕ) (ht : t < 8) :
      (w &&& (0x07 : UInt64)).toUInt8 = UInt8.ofNat t ↔ w.toNat % 8 = t := by
    rw [tag_eq, ← UInt8.toNat_inj, UInt8.toNat_ofNat', UInt8.toNat_ofNat']
    omega
  have hwidth (n : ℕ) (hn : n < 2 ^ 64) : w >>> 3 = UInt64.ofNat n ↔ w.toNat / 8 = n := by
    rw [← UInt64.toNat_inj, shiftRight_three, UInt64.toNat_ofNat_of_lt' hn]
  have h0 := htag 0 (by decide)
  have h1 := htag 1 (by decide)
  have h4 := hwidth 4 (by decide)
  have h8 := hwidth 8 (by decide)
  rw [fixlenArrayType]
  exact if_congr (and_congr h0 h4) rfl (if_congr (and_congr h1 h8) rfl rfl)

/-- A float array. -/
theorem parseFixlenArray_refines :
    TurnRefines buf fieldStart pos is (floatsHead is.depth id)
      (parseFixlenArray buf fieldStart pos id is) := by
  refine turnRefines_word (fun _ _ => rfl) rfl fun count p _ hp => turnRefines_demand Nat.not_le.symm fun _ => ?_
  refine turnRefines_word (fun _ _ => rfl) rfl fun w q _ hq => ?_
  have hbody (fp64 : Bool) : TurnRefines buf fieldStart q is
      (announce is.depth (.arrayBegin id (if fp64 then .fp64 else .fp32) count.toNat) _) _ :=
    turnRefines_announce trivial (fixArray_refines fp64 id count.toNat is hq)
  simp only [fixlenArrayType_eq, floatsOf]
  by_cases hfp32 : w.toNat % 8 = 0 ∧ w.toNat / 8 = 4
  · rw [if_pos hfp32, hfp32.1, hfp32.2]
    exact hbody false
  · rw [if_neg hfp32]
    by_cases hfp64 : w.toNat % 8 = 1 ∧ w.toNat / 8 = 8
    · rw [if_pos hfp64, hfp64.1, hfp64.2]
      exact hbody true
    · rw [if_neg hfp64]
      split
      · next h0 h4 => exact absurd ⟨h0, h4⟩ hfp32
      · next h1 h8 => exact absurd ⟨h1, h8⟩ hfp64
      · exact turnRefines_fail

/-- Opening a sequence. -/
theorem parseSequenceStart_refines (hnone : is.resume = .none) (hpos : pos ≤ buf.length) :
    TurnRefines buf fieldStart pos is
      (demand (is.depth < maxDepth) >>= fun _ =>
        announce (is.depth + 1) (.sequenceBegin id) .none)
      (parseSequenceStart pos id is) := by
  rw [parseSequenceStart, self_bind]
  exact turnRefines_demand Nat.not_lt.symm fun _ => turnRefines_ends hnone trivial hpos

/-- Closing a sequence. -/
theorem parseSequenceEnd_refines (hnone : is.resume = .none) (hpos : pos ≤ buf.length) :
    TurnRefines buf fieldStart pos is
      (demand (0 < is.depth) >>= fun _ => announce (is.depth - 1) .sequenceEnd .none)
      (parseSequenceEnd pos is) := by
  rw [parseSequenceEnd, self_bind]
  exact turnRefines_demand Nat.pos_iff_ne_zero.not_left.symm fun _ => turnRefines_ends hnone trivial hpos

end Arms

/-- The id above the wire type of a header. -/
theorem id_eq (header : Unsigned) : (header >>> 3).toUInt32 = UInt32.ofNat (header.toNat / 8) := by
  apply UInt32.toNat_inj.mp
  rw [UInt64.toNat_toUInt32, shiftRight_three, UInt32.toNat_ofNat']

/-- One turn of the field loop reads one field. -/
theorem parseField_refines (hnone : is.resume = .none) :
    TurnRefines buf fieldStart fieldStart is (readHead is.depth) (parseField buf fieldStart is) := by
  have hquiet (spelling : List UInt8) (n : ℕ) : calls [headerNote spelling n] = [] := by
    rw [headerNote]
    split <;> rfl
  refine turnRefines_word hquiet rfl fun header p _ hp => turnRefines_demand ?_ fun _ => ?_
  · rw [shiftRight_three, Nat.not_le]
  · simp only [tag_eq, id_eq]
    have hwire : header.toNat % 8 < 8 := Nat.mod_lt _ (by decide)
    generalize UInt32.ofNat (header.toNat / 8) = id
    generalize header.toNat % 8 = wire at hwire ⊢
    interval_cases wire
    · exact parseVarint_refines false hnone
    · exact parseVarint_refines true hnone
    · exact parseFixlen_refines hnone
    · exact parseVarintArray_refines false
    · exact parseVarintArray_refines true
    · exact parseFixlenArray_refines
    · exact parseSequenceStart_refines hnone hp
    · exact parseSequenceEnd_refines hnone hp

end Sofab
