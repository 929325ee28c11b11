import Sofab.Lib.Digits

/-!
# Base-128 numbers

A number is spelled seven bits a byte, low group first, with the high bit set on every byte
but the last. A reader of bounded width accepts `left` full groups before a final byte that
may only hold one more bit, so a 64-bit reader has `left = 9`. Spellings need not be
minimal; the minimal one is computed by `encode`.
-/

namespace Leb128

open Digits

/-- Reading ends with a value, in the middle of a number, or past the width. -/
inductive Result
  | done (value : ℕ) (rest : List UInt8)
  | short
  | overflow
  deriving DecidableEq, Repr

/-- Put one more group below the number read so far. -/
def Result.push (b : UInt8) : Result → Result
  | .done value rest => .done (b.toNat % 128 + 128 * value) rest
  | .short => .short
  | .overflow => .overflow

/-- A value one group up comes from a value of the remaining bytes. -/
theorem Result.push_eq_done {b : UInt8} {r : Result} {v : ℕ} {rest : List UInt8} :
    r.push b = .done v rest ↔ ∃ v', r = .done v' rest ∧ v = b.toNat % 128 + 128 * v' := by
  cases r <;> simp [push, and_comm, eq_comm]

/-- A byte in front of a short reading leaves it short, and makes no other one so. -/
@[simp] theorem Result.push_eq_short {b : UInt8} {r : Result} : r.push b = .short ↔ r = .short := by
  cases r <;> simp [push]

/-- A byte in front of an overflow leaves it one, and makes no other reading so. -/
@[simp] theorem Result.push_eq_overflow {b : UInt8} {r : Result} :
    r.push b = .overflow ↔ r = .overflow := by
  cases r <;> simp [push]

/-- Read one number of at most `left` full groups and a one-bit last byte. -/
def read : ℕ → List UInt8 → Result
  | _, [] => .short
  | 0, b :: rest => if b.toNat ≤ 1 then .done b.toNat rest else .overflow
  | left + 1, b :: rest =>
    if b.toNat < 128 then .done b.toNat rest else (read left rest).push b

/-- The minimal spelling. -/
def encode (v : ℕ) : List UInt8 :=
  if v < 128 then [UInt8.ofNat v] else UInt8.ofNat (v % 128 + 128) :: encode (v / 128)
termination_by v

/-- A finished read consumed a nonempty bounded prefix and never looked past it. -/
theorem read_done {left : ℕ} {bs rest : List UInt8} {v : ℕ} (h : read left bs = .done v rest) :
    ∃ z, bs = z ++ rest ∧ z ≠ [] ∧ z.length ≤ left + 1 ∧
      ∀ w, read left (z ++ w) = .done v w := by
  induction left generalizing bs v with
  | zero =>
    cases bs with
    | nil => simp [read] at h
    | cons b bs =>
      rw [read] at h
      split at h
      · next hb =>
        cases h
        exact ⟨[b], rfl, by simp, by simp, fun w => by simp [read, hb]⟩
      · cases h
  | succ left ih =>
    cases bs with
    | nil => simp [read] at h
    | cons b bs =>
      rw [read] at h
      split at h
      · next hb =>
        cases h
        exact ⟨[b], rfl, by simp, by simp, fun w => by simp [read, hb]⟩
      · next hb =>
        obtain ⟨v', hread, rfl⟩ := Result.push_eq_done.mp h
        obtain ⟨z, hz, -, hlen, hlocal⟩ := ih hread
        refine ⟨b :: z, by rw [hz, List.cons_append], by simp, by simpa using hlen, fun w => ?_⟩
        rw [List.cons_append, read, if_neg hb, hlocal, Result.push]

/-- More input cannot change a read that left the width. -/
theorem read_overflow_append {left : ℕ} {bs : List UInt8} (h : read left bs = .overflow)
    (t : List UInt8) : read left (bs ++ t) = .overflow := by
  induction left generalizing bs with
  | zero =>
    cases bs with
    | nil => simp [read] at h
    | cons b bs =>
      rw [List.cons_append, read]
      rw [read] at h
      split at h
      · cases h
      · next hb => rw [if_neg hb]
  | succ left ih =>
    cases bs with
    | nil => simp [read] at h
    | cons b bs =>
      rw [List.cons_append, read]
      rw [read] at h
      split at h
      · cases h
      · next hb => rw [if_neg hb, ih (Result.push_eq_overflow.mp h), Result.push]

/-- A read leaves the width only past all its full groups. -/
theorem read_overflow_length {left : ℕ} {bs : List UInt8} (h : read left bs = .overflow) :
    left < bs.length := by
  induction left generalizing bs with
  | zero =>
    cases bs with
    | nil => simp [read] at h
    | cons b bs => simp
  | succ left ih =>
    cases bs with
    | nil => simp [read] at h
    | cons b bs =>
      rw [read] at h
      split at h
      · cases h
      · simpa using ih (Result.push_eq_overflow.mp h)

/-- A read runs out exactly on a short run of continuing bytes. -/
theorem read_short_iff {left : ℕ} {bs : List UInt8} :
    read left bs = .short ↔ bs.length ≤ left ∧ ∀ b ∈ bs, 128 ≤ b.toNat := by
  induction left generalizing bs with
  | zero =>
    cases bs with
    | nil => simp [read]
    | cons b bs =>
      rw [read]
      split <;> simp
  | succ left ih =>
    cases bs with
    | nil => simp [read]
    | cons b bs =>
      rw [read]
      split
      · next hb => simp [hb]
      · next hb =>
        rw [Result.push_eq_short, ih]
        simp [Nat.le_of_not_lt hb]

/-- The width of the reader bounds every value it returns. -/
theorem read_value_lt {left : ℕ} {bs rest : List UInt8} {v : ℕ}
    (h : read left bs = .done v rest) : v < 2 * 128 ^ left := by
  induction left generalizing bs v with
  | zero =>
    cases bs with
    | nil => simp [read] at h
    | cons b bs =>
      rw [read] at h
      split at h
      · next hb =>
        cases h
        omega
      · cases h
  | succ left ih =>
    cases bs with
    | nil => simp [read] at h
    | cons b bs =>
      have hpow : 2 * 128 ^ (left + 1) = 128 * (2 * 128 ^ left) := by ring
      have hpos : 0 < 128 ^ left := by positivity
      rw [read] at h
      split at h
      · next hb =>
        cases h
        omega
      · obtain ⟨v', hread, rfl⟩ := Result.push_eq_done.mp h
        have hv := ih hread
        omega

/-- A run of continuing bytes closed by a small byte, within the full groups. -/
theorem read_terminated (left : ℕ) (cs : List UInt8) (b : UInt8) (rest : List UInt8)
    (hlen : cs.length < left) (hcs : ∀ c ∈ cs, 128 ≤ c.toNat) (hb : b.toNat < 128) :
    read left (cs ++ b :: rest) = .done (packed 7 ((cs ++ [b]).map UInt8.toNat)) rest := by
  induction cs generalizing left with
  | nil =>
    obtain ⟨left, rfl⟩ := Nat.exists_eq_succ_of_ne_zero (by simpa using hlen.ne')
    simp [read, hb, packed, Nat.mod_eq_of_lt hb]
  | cons c cs ih =>
    obtain ⟨left, rfl⟩ := Nat.exists_eq_succ_of_ne_zero (Nat.ne_zero_of_lt hlen)
    have hc : ¬c.toNat < 128 := Nat.not_lt.mpr (hcs c List.mem_cons_self)
    rw [List.cons_append, read, if_neg hc,
      ih left (by simpa using hlen) fun x hx => hcs x (List.mem_cons_of_mem _ hx), Result.push]
    rfl

/-- After all full groups the last byte may only hold the top bit. -/
theorem read_last (cs : List UInt8) (b : UInt8) (rest : List UInt8)
    (hcs : ∀ c ∈ cs, 128 ≤ c.toNat) :
    read cs.length (cs ++ b :: rest) =
      if b.toNat ≤ 1 then .done (packed 7 ((cs ++ [b]).map UInt8.toNat)) rest else .overflow := by
  induction cs with
  | nil =>
    rw [List.nil_append, List.length_nil, read]
    split
    · next hb =>
      have hmod : b.toNat % 128 = b.toNat := Nat.mod_eq_of_lt (by omega)
      simp [packed, hmod]
    · rfl
  | cons c cs ih =>
    have hc : ¬c.toNat < 128 := Nat.not_lt.mpr (hcs c List.mem_cons_self)
    rw [List.cons_append, List.length_cons, read, if_neg hc,
      ih fun x hx => hcs x (List.mem_cons_of_mem _ hx)]
    split <;> rfl

/-- A number below one group is its own spelling. -/
theorem encode_of_lt {v : ℕ} (hv : v < 128) : encode v = [UInt8.ofNat v] := by
  rw [encode, if_pos hv]

/-- A larger number spells its low group first. -/
theorem encode_of_le {v : ℕ} (hv : 128 ≤ v) :
    encode v = UInt8.ofNat (v % 128 + 128) :: encode (v / 128) := by
  rw [encode, if_neg (Nat.not_lt.mpr hv)]

/-- A spelling has at least one byte. -/
theorem encode_ne_nil (v : ℕ) : encode v ≠ [] := by
  rw [encode]
  split <;> simp

/-- Reading a minimal spelling gives the number back, whatever follows. -/
theorem read_encode {left v : ℕ} (hv : v < 2 * 128 ^ left) (rest : List UInt8) :
    read left (encode v ++ rest) = .done v rest := by
  induction left generalizing v with
  | zero =>
    have hv' : v ≤ 1 := by omega
    rw [encode_of_lt (by omega), List.singleton_append, read, UInt8.toNat_ofNat',
      Nat.mod_eq_of_lt (by omega), if_pos hv']
  | succ left ih =>
    by_cases hsmall : v < 128
    · rw [encode_of_lt hsmall, List.singleton_append, read, UInt8.toNat_ofNat',
        Nat.mod_eq_of_lt (by omega), if_pos hsmall]
    · have hdiv : v / 128 < 2 * 128 ^ left := by
        apply Nat.div_lt_of_lt_mul
        calc v < 2 * 128 ^ (left + 1) := hv
          _ = 128 * (2 * 128 ^ left) := by ring
      have hbyte : (UInt8.ofNat (v % 128 + 128)).toNat = v % 128 + 128 := by
        rw [UInt8.toNat_ofNat']
        omega
      rw [encode_of_le (Nat.le_of_not_lt hsmall), List.cons_append, read, hbyte,
        if_neg (by omega), ih hdiv, Result.push, hbyte]
      congr 1
      omega

/-- A number that does not fit the width leaves it. -/
theorem read_encode_overflow {left v : ℕ} (hv : 2 * 128 ^ left ≤ v) (rest : List UInt8) :
    read left (encode v ++ rest) = .overflow := by
  induction left generalizing v with
  | zero =>
    have hv' : 2 ≤ v := hv
    by_cases hsmall : v < 128
    · rw [encode_of_lt hsmall, List.singleton_append, read, UInt8.toNat_ofNat',
        Nat.mod_eq_of_lt (by omega), if_neg (by omega)]
    · have hbyte : (UInt8.ofNat (v % 128 + 128)).toNat = v % 128 + 128 := by
        rw [UInt8.toNat_ofNat']
        omega
      rw [encode_of_le (Nat.le_of_not_lt hsmall), List.cons_append, read, hbyte, if_neg (by omega)]
  | succ left ih =>
    have hpos : 0 < 128 ^ left := by positivity
    have hpow : 2 * 128 ^ (left + 1) = 2 * 128 ^ left * 128 := by ring
    have hdiv : 2 * 128 ^ left ≤ v / 128 := by
      rw [Nat.le_div_iff_mul_le (by decide), ← hpow]
      exact hv
    have hbyte : (UInt8.ofNat (v % 128 + 128)).toNat = v % 128 + 128 := by
      rw [UInt8.toNat_ofNat']
      omega
    rw [encode_of_le (by omega), List.cons_append, read, hbyte, if_neg (by omega), ih hdiv,
      Result.push]

/-- A number that can be read back in so many bytes is not spelled in more. -/
theorem encode_length_le {v : ℕ} (left : ℕ) (hv : v < 2 * 128 ^ left) : (encode v).length ≤ left + 1 := by
  obtain ⟨z, hz, -, hlen, -⟩ := read_done (read_encode hv [])
  rwa [List.append_cancel_right hz]

/-- A number in front of anything is told apart from any other. -/
theorem encode_append_inj {v w : ℕ} {rest more : List UInt8}
    (h : encode v ++ rest = encode w ++ more) : v = w ∧ rest = more := by
  have hread (u : ℕ) (hu : u ≤ max v w) (tail : List UInt8) :
      read (max v w) (encode u ++ tail) = .done u tail := by
    have hpow : max v w < 128 ^ max v w := Nat.lt_pow_self (by decide)
    exact read_encode (by omega) tail
  have hdone := hread v (Nat.le_max_left v w) rest
  rw [h, hread w (Nat.le_max_right v w) more] at hdone
  cases hdone
  exact ⟨rfl, rfl⟩

/-- No spelling of a value is shorter than the minimal one, and an equally short one is it. -/
theorem encode_minimal {left : ℕ} {z rest : List UInt8} {v : ℕ}
    (h : read left (z ++ rest) = .done v rest) :
    (encode v).length ≤ z.length ∧ (z.length = (encode v).length → z = encode v) := by
  induction left generalizing z v with
  | zero =>
    cases z with
    | nil =>
      obtain ⟨z, hz, hne, -, -⟩ := read_done h
      simp at hz
      exact absurd hz hne
    | cons b z =>
      rw [List.cons_append, read] at h
      split at h
      · next hb =>
        obtain ⟨rfl, rfl⟩ : b.toNat = v ∧ z = [] := by simpa using h
        rw [encode_of_lt (by omega)]
        simp
      · cases h
  | succ left ih =>
    cases z with
    | nil =>
      obtain ⟨z, hz, hne, -, -⟩ := read_done h
      simp at hz
      exact absurd hz hne
    | cons b z =>
      rw [List.cons_append, read] at h
      split at h
      · next hb =>
        obtain ⟨rfl, rfl⟩ : b.toNat = v ∧ z = [] := by simpa using h
        rw [encode_of_lt hb]
        simp
      · next hb =>
        obtain ⟨v', hread, rfl⟩ := Result.push_eq_done.mp h
        obtain ⟨hle, heq⟩ := ih hread
        have hpos : 0 < (encode v').length := List.length_pos_of_ne_nil (encode_ne_nil v')
        by_cases hsmall : b.toNat % 128 + 128 * v' < 128
        · rw [encode_of_lt hsmall]
          simp only [List.length_cons, List.length_nil]
          exact ⟨by omega, fun hlen => by omega⟩
        · have hdiv : (b.toNat % 128 + 128 * v') / 128 = v' := by omega
          have hhead : UInt8.ofNat ((b.toNat % 128 + 128 * v') % 128 + 128) = b := by
            apply UInt8.toNat_inj.mp
            have := b.toNat_lt
            rw [UInt8.toNat_ofNat']
            omega
          rw [encode_of_le (Nat.le_of_not_lt hsmall), hdiv, hhead]
          simp only [List.length_cons, List.cons.injEq, true_and]
          exact ⟨by omega, fun hlen => heq (by omega)⟩

/-- A spelling is minimal if nothing shorter reads as its value. -/
def Minimal (left : ℕ) (z : List UInt8) (v : ℕ) : Prop :=
  ∀ other, read left other = .done v [] → z.length ≤ other.length

/-- The minimal spelling of a value is the encoder's. -/
theorem minimal_iff {left : ℕ} {z : List UInt8} {v : ℕ} (h : read left z = .done v []) :
    Minimal left z v ↔ z = encode v := by
  have hself {other : List UInt8} (hread : read left other = .done v []) :
      (encode v).length ≤ other.length ∧ (other.length = (encode v).length → other = encode v) := by
    rw [← List.append_nil other] at hread
    exact encode_minimal hread
  constructor
  · intro hmin
    have hread := read_encode (read_value_lt h) []
    rw [List.append_nil] at hread
    exact (hself h).2 (Nat.le_antisymm (hmin _ hread) (hself h).1)
  · rintro rfl other hread
    exact (hself hread).1

/-- The length of the minimal spelling counts the groups of the number. -/
theorem encode_length_eq_iff (v n : ℕ) :
    (encode v).length = n + 1 ↔ v < 128 ^ (n + 1) ∧ (n = 0 ∨ 128 ^ n ≤ v) := by
  induction n generalizing v with
  | zero =>
    by_cases hv : v < 128
    · simp [encode_of_lt hv, hv]
    · rw [encode_of_le (Nat.le_of_not_lt hv)]
      simp [hv, encode_ne_nil]
  | succ n ih =>
    by_cases hv : v < 128
    · have hpow : 128 ≤ 128 ^ (n + 1) := Nat.le_self_pow (by omega) 128
      rw [encode_of_lt hv]
      simp only [List.length_cons, List.length_nil]
      omega
    · rw [encode_of_le (Nat.le_of_not_lt hv), List.length_cons, Nat.add_right_cancel_iff, ih]
      have hlt : v / 128 < 128 ^ (n + 1) ↔ v < 128 ^ (n + 1 + 1) := by
        rw [Nat.div_lt_iff_lt_mul (by decide), ← pow_succ]
      have hle : 128 ^ n ≤ v / 128 ↔ 128 ^ (n + 1) ≤ v := by
        rw [Nat.le_div_iff_mul_le (by decide), ← pow_succ]
      rw [hlt, hle]
      constructor
      · rintro ⟨h1, rfl | h2⟩
        · exact ⟨h1, Or.inr (by simpa using hv)⟩
        · exact ⟨h1, Or.inr h2⟩
      · rintro ⟨h1, h2 | h2⟩
        · omega
        · exact ⟨h1, Or.inr h2⟩

/-- Byte `i` of the minimal spelling is group `i`, marked unless it is the last. -/
theorem encode_getElem (v i : ℕ) (hi : i < (encode v).length) :
    (encode v)[i] =
      UInt8.ofNat (v / 128 ^ i % 128 + if i + 1 < (encode v).length then 128 else 0) := by
  induction i generalizing v with
  | zero =>
    by_cases hv : v < 128
    · simp [encode_of_lt hv, Nat.mod_eq_of_lt hv]
    · have hpos := List.length_pos_of_ne_nil (encode_ne_nil (v / 128))
      simp [encode_of_le (Nat.le_of_not_lt hv), hpos]
  | succ i ih =>
    by_cases hv : v < 128
    · rw [encode_of_lt hv] at hi
      simp at hi
    · have hle := Nat.le_of_not_lt hv
      have hi' : i < (encode (v / 128)).length := by
        rw [encode_of_le hle] at hi
        simpa using hi
      simp only [encode_of_le hle, List.getElem_cons_succ, List.length_cons]
      rw [ih _ hi', Nat.div_div_eq_div_mul, ← Nat.pow_succ']
      simp only [Nat.add_lt_add_iff_right]

end Leb128
