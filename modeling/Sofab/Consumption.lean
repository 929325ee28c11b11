import Sofab.ParseRefines

/-!
# A held tail is consumed whole or not at all

The bytes carried over a chunk boundary are the start of one item. With more bytes behind
them, parsing either still cannot finish that item and consumes nothing, or goes past all of
the carried bytes.
-/

namespace Sofab

open Reading Reading.Reader DecodeM IStream

namespace IStream

variable {is : IStream} {held x : List UInt8}

/-- The position behind a rest shorter than the new bytes is past the held ones. -/
theorem held_lt_of_rest {next : ℕ} (hrest : ((held ++ x).drop next).length < x.length) :
    held.length < next := by
  rw [List.length_drop, List.length_append] at hrest
  omega

/-- A field loop that returns moved forward. -/
theorem parseFields_forward {buf : List UInt8} {pos stop : ℕ} (is : IStream) (hnone : is.resume = .none)
    (hpos : pos ≤ buf.length) (h : (parseFields buf pos is).result = .ok stop) : pos ≤ stop := by
  have hrefines := parseFields_refines hnone hpos
  generalize parseFields buf pos is = parsed at h hrefines
  cases hrefines with
  | ok _ hforward _ =>
    cases h
    exact hforward
  | rejected => cases h

/-- The field loop goes past a held head or stays in front of it. -/
theorem parseFields_consumed {torn : List UInt8} {notes : List Note} {stop : ℕ}
    (hnone : is.resume = .none) (hshort : readHead is.depth held = ⟨notes, .short torn⟩)
    (h : (parseFields (held ++ x) 0 is).result = .ok stop) : stop = 0 ∨ held.length ≤ stop := by
  by_cases hend : (held ++ x).length ≤ 0
  · right
    rw [List.length_append] at hend
    omega
  have hlt : 0 < (held ++ x).length := Nat.lt_of_not_le hend
  have hfield : TurnRefines (held ++ x) 0 0 is (readHead is.depth) (parseField (held ++ x) 0 is) :=
    parseField_refines hnone
  generalize hturn : parseField (held ++ x) 0 is = turn at hfield
  cases hfield with
  | @body more depth mid body parsed hread hproper _ hbody =>
    right
    have hmid : held.length < mid :=
      held_lt_of_rest ((local_readHead is.depth).rest_lt x hshort hread)
    cases hbody with
    | @done more' next hdone hnext hinside =>
      rw [turn_of_done (by exact hnone)] at hturn
      rw [parseFields_of_proceed hlt hturn] at h
      have hforward : next ≤ stop := parseFields_forward { is with depth := depth } hnone hinside h
      omega
    | @suspended made body' stop' hsuspends hstop _ =>
      rw [turn_of_suspended (by exact hsuspends.pending.ne_none)] at hturn
      rw [parseFields_of_finish hlt hturn] at h
      cases h
      omega
    | @rejected more' is' _ =>
      rw [parseFields_of_error hlt hturn] at h
      cases h
  | torn =>
    rw [parseFields_of_finish hlt hturn] at h
    cases h
    exact Or.inl rfl
  | rejected =>
    rw [parseFields_of_error hlt hturn] at h
    cases h

/-- The integer loop goes past a held element or stays in front of it. -/
theorem intArray_consumed {signed : Bool} {id : Id} {rem stop : ℕ}
    (hshort : readWord held = ⟨[], .short held⟩)
    (h : (intArray signed (held ++ x) 0 id rem is).result = .ok stop) :
    stop = 0 ∨ held.length ≤ stop := by
  rw [intArray_eq] at h
  cases rem with
  | zero =>
    cases h
    exact Or.inl rfl
  | succ rem =>
    rw [intArrayTail] at h
    rcases readVarint_cases (held ++ x) 0 with
      ⟨value, next, spelling, hread, -, -, hword⟩ | ⟨hread, -⟩ | ⟨hread, -⟩
    · right
      rw [hread] at h
      have hnext : held.length < next := held_lt_of_rest (local_readWord.rest_lt x hshort hword)
      have hforward : next ≤ stop := intArrayTail_advances h
      omega
    · rw [hread] at h
      cases h
      exact Or.inl rfl
    · rw [hread] at h
      cases h

/-- The float loop goes past a held element or stays in front of it. -/
theorem fixArray_consumed {fp64 : Bool} {id : Id} {rem stop : ℕ}
    (hlen : held.length < elemLen fp64)
    (h : (fixArray fp64 (held ++ x) id rem 0 is).result = .ok stop) :
    stop = 0 ∨ held.length ≤ stop := by
  cases rem with
  | zero =>
    cases h
    exact Or.inl rfl
  | succ rem =>
    rw [fixArray] at h
    split at h
    · cases h
      exact Or.inl rfl
    · right
      have hforward : 0 + elemLen fp64 ≤ stop := fixArray_advances h
      omega

/-- Continuing a held item goes past it or stays in front of it. -/
theorem resumeItem_consumed {stop : ℕ} (hpending : Pending is.resume held)
    (h : (resumeItem (held ++ x) 0 is).result = .ok stop) : stop = 0 ∨ held.length ≤ stop := by
  rw [resumeItem, self_bind] at h
  rcases hresume : is.resume with _ | ⟨id, isBlob, total, remaining⟩ | ⟨id, signed, remaining⟩ |
    ⟨id, fp64, remaining⟩
  · rw [hresume] at hpending
    exact hpending.elim
  · rw [hresume] at hpending
    rw [hpending.1]
    exact Or.inr (Nat.zero_le _)
  · rw [hresume] at hpending h
    exact intArray_consumed hpending.2 h
  · rw [hresume] at hpending h
    exact fixArray_consumed hpending.2 h

/-- What waits for bytes can be resumed. -/
theorem Pending.resumable {body : Resume} {tail : List UInt8} (h : Pending body tail) :
    Resumable body := by
  cases body with
  | payload id isBlob total remaining => exact ⟨h.2.1, h.2.2⟩
  | _ => trivial

/-- Parsing goes past the held bytes or consumes nothing. -/
theorem parse_consumed (is : IStream) {stop : ℕ} (hheld : Held is.depth is.resume held)
    (h : (parse (held ++ x) is).result = .ok stop) : stop = 0 ∨ held.length ≤ stop := by
  generalize hresume : is.resume = resume at hheld
  cases hheld with
  | boundary => exact Or.inr (Nat.zero_le _)
  | head notes hshort _ =>
    rw [parse_of_none hresume] at h
    exact parseFields_consumed hresume hshort h
  | body hpending =>
    rw [← hresume] at hpending
    have hnone := hpending.ne_none
    have hitem := resumeItem_refines hnone (Pending.resumable hpending) (Nat.zero_le (held ++ x).length)
    generalize hrun : resumeItem (held ++ x) 0 is = parsed at hitem
    cases hitem with
    | @done notes next hread _ hinside =>
      right
      obtain ⟨torn, hquiet⟩ := hpending.quiet
      have hnext : held.length < next :=
        held_lt_of_rest ((local_readBody is.resume).rest_lt x hquiet hread)
      rw [parse_of_done hnone hrun rfl] at h
      have hforward : next ≤ stop := parseFields_forward { is with resume := .none } rfl hinside h
      omega
    | suspended hsuspends _ _ =>
      rw [parse_of_suspended hnone hrun hsuspends.pending.ne_none] at h
      cases h
      exact resumeItem_consumed hpending (by rw [hrun])
    | rejected notes _ =>
      rw [parse_of_error hnone hrun] at h
      cases h

end IStream

end Sofab
