import Sofab.WireFacts

/-!
# What a suspended body goes on with

When a chunk ends inside a payload or an array, `Resume` and the unread tail determine how
the reading goes on, whatever the next bytes are. `Suspends` says this of one suspension.
-/

namespace Sofab

open Reading Reading.Reader

/-- The suspended bodies: the unread tail is a started element, and something is missing. -/
def Pending : Resume → List UInt8 → Prop
  | .none, _ => False
  | .payload _ _ total remaining, tail => tail = [] ∧ 0 < remaining ∧ remaining ≤ total
  | .arrayInt _ _ remaining, tail => 0 < remaining ∧ readWord tail = ⟨[], .short tail⟩
  | .arrayFix _ fp64 remaining, tail => 0 < remaining ∧ tail.length < elemLen fp64

/-- A body in progress is none of the absent one. -/
theorem Pending.ne_none {body : Resume} {tail : List UInt8} (h : Pending body tail) :
    body ≠ .none := by
  rintro rfl
  exact h

/-- The body `body` read from `bs` makes the callbacks `made` and is left as `body'` with the
unread `tail`. -/
structure Suspends (body : Resume) (bs : List UInt8) (made : List Callback) (body' : Resume)
    (tail : List UInt8) : Prop where
  now : ∃ notes torn, readBody body bs = ⟨notes, .short torn⟩ ∧ calls notes = made
  later (t : List UInt8) : Extends made (readBody body (bs ++ t)) (readBody body' (tail ++ t))
  pending : Pending body' tail

/-- A noted varint is short when the varint is. -/
theorem notedWord_of_short (noted : List UInt8 → ℕ → Note) {bs torn : List UInt8}
    (h : readWord bs = ⟨[], .short torn⟩) : notedWord noted bs = ⟨[], .short torn⟩ :=
  bind_of_short h _

/-- A noted varint is rejected when the varint is. -/
theorem notedWord_of_invalid (noted : List UInt8 → ℕ → Note) {bs : List UInt8}
    (h : readWord bs = ⟨[], .invalid⟩) : notedWord noted bs = ⟨[], .invalid⟩ :=
  bind_of_invalid h _

/-- A noted varint gives the value of the varint. -/
theorem notedWord_of_done (noted : List UInt8 → ℕ → Note) {bs rest spelling : List UInt8}
    {value : ℕ} (h : readWord bs = ⟨[], .done (spelling, value) rest⟩) :
    notedWord noted bs = ⟨[noted spelling value], .done value rest⟩ :=
  bind_of_done h _

/-- With no byte left a payload that misses some is short and silent. -/
theorem payload_nil {id : Id} {isBlob : Bool} {total remaining : ℕ} (hpos : 0 < remaining) :
    payload id isBlob total remaining [] = ⟨[], .short []⟩ := by
  have hmissing : ¬remaining ≤ ([] : List UInt8).length := Nat.not_le.mpr hpos
  rw [payload, if_neg hmissing, if_pos rfl]

/-- A pending body is quiet until more bytes arrive. -/
theorem Pending.quiet {body : Resume} {tail : List UInt8} (h : Pending body tail) :
    ∃ torn, readBody body tail = ⟨[], .short torn⟩ := by
  cases body with
  | none => exact h.elim
  | payload id isBlob total remaining =>
    obtain ⟨rfl, hpos, -⟩ := h
    refine ⟨[], ?_⟩
    exact payload_nil hpos
  | arrayInt id signed remaining =>
    obtain ⟨hpos, hshort⟩ := h
    obtain ⟨n, rfl⟩ := Nat.exists_eq_succ_of_ne_zero hpos.ne'
    exact ⟨tail, bind_of_short (notedWord_of_short _ hshort) _⟩
  | arrayFix id fp64 remaining =>
    obtain ⟨hpos, hlen⟩ := h
    obtain ⟨n, rfl⟩ := Nat.exists_eq_succ_of_ne_zero hpos.ne'
    have hshort : rawBytes (elemLen fp64) tail = ⟨[], .short []⟩ := by
      rw [rawBytes, if_neg (Nat.not_le.mpr hlen)]
    exact ⟨[], bind_of_short hshort _⟩

/-- A pending body suspends at once. -/
theorem Pending.suspends {body : Resume} {tail : List UInt8} (h : Pending body tail) :
    Suspends body tail [] body tail where
  now := by
    obtain ⟨torn, hquiet⟩ := h.quiet
    exact ⟨[], torn, hquiet, rfl⟩
  later _ := Extends.refl _
  pending := h

/-- A suspension after finished elements. -/
theorem Suspends.after {body mid body' : Resume} {bs rest tail : List UInt8} {made : List Callback}
    (notes : List Note)
    (hstep : ∀ t, readBody body (bs ++ t) = (readBody mid (rest ++ t)).after notes)
    (hproper : ∀ c ∈ calls notes, Proper c) (h : Suspends mid rest made body' tail) :
    Suspends body bs (calls notes ++ made) body' tail where
  now := by
    obtain ⟨more, torn, hnow, rfl⟩ := h.now
    refine ⟨notes ++ more, torn, ?_, calls_append _ _⟩
    have hnil := hstep []
    rw [List.append_nil, List.append_nil] at hnil
    rw [hnil, hnow]
    rfl
  later t := by
    rw [hstep t]
    exact (h.later t).after hproper
  pending := h.pending

/-- One finished integer element. -/
theorem integers_of_done {id : Id} {signed : Bool} {n value : ℕ} {bs rest spelling : List UInt8}
    (h : readWord bs = ⟨[], .done (spelling, value) rest⟩) :
    integers id signed (n + 1) bs = (integers id signed n rest).after
      [.varint spelling value, .call (.integer signed id (UInt64.ofNat value))] := by
  rw [integers, word, bind_of_done (notedWord_of_done _ h), note_bind_apply, Report.after_after]
  rfl

/-- One finished float element. -/
theorem floats_of_le (id : Id) {fp64 : Bool} (n : ℕ) {bs : List UInt8}
    (h : elemLen fp64 ≤ bs.length) :
    floats id fp64 (n + 1) bs = (floats id fp64 n (bs.drop (elemLen fp64))).after
      [.raw (bs.take (elemLen fp64)), .call (.float fp64 id (bs.take (elemLen fp64)))] := by
  have hraw : rawBytes (elemLen fp64) bs =
      ⟨[.raw (bs.take (elemLen fp64))], .done (bs.take (elemLen fp64)) (bs.drop (elemLen fp64))⟩ := by
    rw [rawBytes, if_pos h]
  rw [floats, bind_of_done hraw, note_bind_apply, Report.after_after]
  rfl

/-- A payload that is longer than what there is of it is delivered as far as it goes. -/
theorem suspends_payload (id : Id) (isBlob : Bool) {total remaining : ℕ} {bs : List UInt8}
    (hne : bs ≠ []) (hlen : bs.length < remaining) (hle : remaining ≤ total) :
    Suspends (.payload id isBlob total remaining) bs
      [.payload isBlob id total (total - remaining) bs]
      (.payload id isBlob total (remaining - bs.length)) [] where
  now := by
    refine ⟨[.raw bs, .call (.payload isBlob id total (total - remaining) bs)], [], ?_, rfl⟩
    rw [readBody, payload, if_neg (Nat.not_le.mpr hlen), if_neg hne]
  later t := by
    have hoffset : total - (remaining - bs.length) = total - remaining + bs.length := by omega
    rw [readBody, readBody, List.nil_append, payload, payload, hoffset]
    by_cases hdone : remaining ≤ (bs ++ t).length
    · have hdone' : remaining - bs.length ≤ t.length := by
        rw [List.length_append] at hdone
        omega
      rw [if_pos hdone, if_pos hdone', List.take_append, List.drop_append,
        List.take_of_length_le hlen.le, List.drop_eq_nil_of_le hlen.le]
      exact ⟨rfl, fun hrun => .piece hne hrun⟩
    · have hdone' : ¬remaining - bs.length ≤ t.length := by
        rw [List.length_append] at hdone
        omega
      rw [if_neg hdone, if_neg hdone', if_neg (List.append_ne_nil_of_left_ne_nil hne t)]
      by_cases ht : t = []
      · subst ht
        rw [if_pos rfl, List.append_nil]
        exact ⟨rfl, fun hrun => .call (proper_payload.mpr fun hnil => absurd hnil hne) hrun⟩
      · rw [if_neg ht]
        exact ⟨rfl, fun hrun => .piece hne hrun⟩
  pending := ⟨rfl, by omega, by omega⟩

end Sofab
