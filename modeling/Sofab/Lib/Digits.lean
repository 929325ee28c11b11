import Mathlib.Data.Nat.Bitwise
import Mathlib.Algebra.Order.Ring.Nat
import Mathlib.Tactic.Ring
import Mathlib.Tactic.Positivity

/-!
# Digits packed into a number

A list of digits, least significant first, is packed into one number by giving each digit
`k` bits. Base-128 groups (`k = 7`) and little-endian bytes (`k = 8`) are the two instances
a byte codec needs; both are read back through one bit lemma.
-/

namespace Digits

/-- Pack the low `k` bits of every digit, least significant digit first. -/
def packed (k : ℕ) : List ℕ → ℕ
  | [] => 0
  | d :: ds => d % 2 ^ k + 2 ^ k * packed k ds

/-- Bit `j` of a packed number is bit `j % k` of digit `j / k`. -/
theorem packed_testBit {k : ℕ} (hk : 0 < k) (ds : List ℕ) (j : ℕ) :
    (packed k ds).testBit j = (ds.getD (j / k) 0).testBit (j % k) := by
  induction ds generalizing j with
  | nil => simp [packed]
  | cons d ds ih =>
    rw [packed, Nat.add_comm, Nat.testBit_two_pow_mul_add _ (Nat.mod_lt _ (by positivity))]
    by_cases hj : j < k
    · rw [if_pos hj, Nat.testBit_mod_two_pow, Nat.div_eq_of_lt hj, Nat.mod_eq_of_lt hj]
      simp [hj]
    · obtain ⟨i, rfl⟩ := Nat.exists_eq_add_of_le (Nat.le_of_not_lt hj)
      rw [if_neg hj, ih, Nat.add_sub_cancel_left, Nat.add_div_left i hk, Nat.add_mod_left,
        List.getD_cons_succ]

/-- A packed number needs `k` bits a digit. -/
theorem packed_lt (k : ℕ) (ds : List ℕ) : packed k ds < 2 ^ (k * ds.length) := by
  induction ds with
  | nil => simp [packed]
  | cons d ds ih =>
    have hd : d % 2 ^ k < 2 ^ k := Nat.mod_lt _ (by positivity)
    calc d % 2 ^ k + 2 ^ k * packed k ds
        < 2 ^ k + 2 ^ k * packed k ds := Nat.add_lt_add_right hd _
      _ = 2 ^ k * (packed k ds + 1) := by ring
      _ ≤ 2 ^ k * 2 ^ (k * ds.length) := Nat.mul_le_mul_left _ ih
      _ = 2 ^ (k * (d :: ds).length) := by rw [List.length_cons, Nat.mul_succ, ← pow_add, Nat.add_comm]

/-- Packing a concatenation shifts the second part past the digits of the first. -/
theorem packed_append (k : ℕ) (ds es : List ℕ) :
    packed k (ds ++ es) = packed k ds + 2 ^ (k * ds.length) * packed k es := by
  induction ds with
  | nil => simp [packed]
  | cons d ds ih =>
    rw [List.cons_append, packed, packed, ih, List.length_cons, Nat.mul_succ, pow_add]
    ring

/-- The number a little-endian byte string spells. -/
def leNat (bytes : List UInt8) : ℕ := packed 8 (bytes.map UInt8.toNat)

/-- The low `n` bytes of a number, least significant first. -/
def leBytes : ℕ → ℕ → List UInt8
  | 0, _ => []
  | n + 1, v => UInt8.ofNat v :: leBytes n (v / 256)

/-- A number is written in as many bytes as asked for. -/
@[simp] theorem leBytes_length (n v : ℕ) : (leBytes n v).length = n := by
  induction n generalizing v with
  | zero => rfl
  | succ n ih => simp [leBytes, ih]

/-- `n` bytes spell a number below `256 ^ n`. -/
theorem leNat_lt (bytes : List UInt8) : leNat bytes < 256 ^ bytes.length := by
  have h := packed_lt 8 (bytes.map UInt8.toNat)
  rwa [List.length_map, pow_mul] at h

/-- The head byte is the least significant one. -/
theorem leNat_cons (b : UInt8) (bytes : List UInt8) :
    leNat (b :: bytes) = b.toNat + 256 * leNat bytes := by
  change b.toNat % 256 + 256 * leNat bytes = _
  rw [Nat.mod_eq_of_lt b.toNat_lt]

/-- Reading back the low bytes of a number that fits them. -/
theorem leNat_leBytes (n v : ℕ) (hv : v < 256 ^ n) : leNat (leBytes n v) = v := by
  induction n generalizing v with
  | zero =>
    have : v = 0 := by simpa using hv
    subst this
    rfl
  | succ n ih =>
    have hdiv : v / 256 < 256 ^ n := Nat.div_lt_of_lt_mul (by rwa [pow_succ, Nat.mul_comm] at hv)
    rw [leBytes, leNat_cons, ih _ hdiv, UInt8.toNat_ofNat']
    exact Nat.mod_add_div v 256

/-- Writing out the number a byte string spells. -/
theorem leBytes_leNat (bytes : List UInt8) : leBytes bytes.length (leNat bytes) = bytes := by
  induction bytes with
  | nil => rfl
  | cons b bytes ih =>
    have hb : b.toNat < 256 := b.toNat_lt
    have hdiv : (b.toNat + 256 * leNat bytes) / 256 = leNat bytes := by omega
    have hhead : UInt8.ofNat (b.toNat + 256 * leNat bytes) = b := by
      apply UInt8.toNat_inj.mp
      rw [UInt8.toNat_ofNat']
      omega
    rw [leNat_cons, List.length_cons, leBytes, hdiv, ih, hhead]

/-- Different numbers that fit are written out differently. -/
theorem leBytes_inj {n v w : ℕ} (hv : v < 256 ^ n) (hw : w < 256 ^ n)
    (h : leBytes n v = leBytes n w) : v = w := by
  rw [← leNat_leBytes n v hv, h, leNat_leBytes n w hw]

/-- Items that are written out at one width are told apart where they follow one another. -/
theorem flatMap_inj_of_width {α β : Type*} {f : α → List β} {n : ℕ} (hlen : ∀ x, (f x).length = n)
    (hinj : Function.Injective f) {xs ys : List α} (hcount : xs.length = ys.length)
    (h : xs.flatMap f = ys.flatMap f) : xs = ys := by
  induction xs generalizing ys with
  | nil => exact (List.eq_nil_of_length_eq_zero hcount.symm).symm
  | cons x xs ih =>
    cases ys with
    | nil => cases hcount
    | cons y ys =>
      rw [List.flatMap_cons, List.flatMap_cons] at h
      obtain ⟨hhead, htail⟩ := List.append_inj h (by rw [hlen, hlen])
      rw [hinj hhead, ih (Nat.succ.inj hcount) htail]

/-- Bit `j` of a little-endian number is bit `j % 8` of byte `j / 8`. -/
theorem leNat_testBit (bytes : List UInt8) (j : ℕ) :
    (leNat bytes).testBit j = (bytes.getD (j / 8) 0).toNat.testBit (j % 8) := by
  rw [leNat, packed_testBit (by decide)]
  simp only [List.getD_eq_getElem?_getD, List.getElem?_map]
  cases bytes[j / 8]? <;> rfl

/-- The `i`th of the low bytes is the number shifted down by `i` bytes. -/
theorem leBytes_getElem (n v i : ℕ) (hi : i < (leBytes n v).length) :
    (leBytes n v)[i] = UInt8.ofNat (v / 256 ^ i) := by
  induction n generalizing v i with
  | zero => simp at hi
  | succ n ih =>
    cases i with
    | zero => simp [leBytes]
    | succ i =>
      simp only [leBytes, List.getElem_cons_succ]
      rw [ih, Nat.div_div_eq_div_mul, ← Nat.pow_succ']

end Digits
