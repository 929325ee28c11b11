import Mathlib.Tactic.IntervalCases
import Mathlib.Data.List.GetD
import Sofab.Lib.Leb128
import Sofab.Varint

/-!
# Every varint path reads the reference number

The one-byte path, the eight-byte word path, the nine- and ten-byte path and the checked
tail all give the answer of the reference base-128 reading of the bytes at the cursor. The
word path is compared bit by bit: `compact7` moves bit `j + j / 7` of the masked word to
bit `j`, which is where the packed groups have it.
-/

namespace Sofab

open Digits Splice

/-- The full 7-bit groups a 64-bit value can hold before its last one-bit byte. -/
def fullGroups : ℕ := 9

/-- Compaction squeezes out the continuation-bit column. -/
theorem compact7_testBit (x : UInt64) (j : ℕ) :
    (compact7 x).toNat.testBit j = (decide (j < 56) && x.toNat.testBit (j + j / 7)) := by
  by_cases hj : j < 64
  · change (compact7 x).toBitVec.getLsbD j = (decide (j < 56) && x.toBitVec.getLsbD (j + j / 7))
    interval_cases j <;> simp [compact7]
  · have hlt : (compact7 x).toNat < 2 ^ j :=
      (compact7 x).toNat_lt.trans_le (Nat.pow_le_pow_right (by decide) (Nat.le_of_not_lt hj))
    rw [Nat.testBit_lt_two_pow hlt, decide_eq_false (by omega), Bool.false_and]

/-- The mask keeps seven bits of each of the first `n` bytes. -/
theorem keep7_testBit {n j : ℕ} (hn : n ≤ 8) (hj : j < 64) :
    (keep7 n).toNat.testBit j = (decide (j < 8 * n) && decide (j % 8 < 7)) := by
  have hall : ∀ n ≤ 8, ∀ j < 64,
      (keep7 n).toNat.testBit j = (decide (j < 8 * n) && decide (j % 8 < 7)) := by
    decide +kernel
  exact hall n hn j hj

/-- The payload mask keeps seven bits of every byte. -/
theorem low7_eq_keep7 : low7 = keep7 8 := by decide +kernel

/-- The continuation mask selects the top bit of every byte. -/
theorem msb_testBit {j : ℕ} (hj : j < 64) : msb.toNat.testBit j = decide (j % 8 = 7) := by
  have hall : ∀ j < 64, msb.toNat.testBit j = decide (j % 8 = 7) := by decide +kernel
  exact hall j hj

/-- The lowest set bit is the number of trailing zeros. -/
theorem trailingZeros_eq {x : UInt64} {i : ℕ} (hi : i < 64) (hset : x.toNat.testBit i = true)
    (hlow : ∀ j < i, x.toNat.testBit j = false) : trailingZeros x = i := by
  have hfind : (List.range 64).find? (fun j => x.toNat.testBit j) = some i := by
    rw [List.find?_range_eq_some]
    exact ⟨hset, List.mem_range.mpr hi, fun j hj => by rw [hlow j hj]; rfl⟩
  rw [trailingZeros, hfind, Option.getD_some]

/-- A byte continues a varint exactly when its top bit is set. -/
theorem byte_testBit_seven (b : UInt8) : b.toNat.testBit 7 = decide (128 ≤ b.toNat) := by
  have hall : ∀ n < 256, n.testBit 7 = decide (128 ≤ n) := by decide +kernel
  exact hall _ b.toNat_lt

/-- The eight-byte load spells the eight bytes at the pointer. -/
theorem load_toNat (bs : List UInt8) :
    (UInt64.ofNat (leNat (bs.take 8))).toNat = leNat (bs.take 8) := by
  have hlt := leNat_lt (bs.take 8)
  have hle : (256 : ℕ) ^ (bs.take 8).length ≤ 256 ^ 8 :=
    Nat.pow_le_pow_right (by decide) (by simp)
  exact UInt64.toNat_ofNat_of_lt' (lt_of_lt_of_le hlt hle)

/-- Bit `j` of the eight-byte load is bit `j % 8` of byte `j / 8`. -/
theorem load_testBit (bs : List UInt8) {j : ℕ} (hj : j < 64) :
    (UInt64.ofNat (leNat (bs.take 8))).toNat.testBit j =
      (bs.getD (j / 8) 0).toNat.testBit (j % 8) := by
  rw [load_toNat, leNat_testBit]
  simp only [List.getD_eq_getElem?_getD]
  rw [List.getElem?_take_of_lt (by omega)]

/-- Bit `j` of the terminator word tells whether byte `j / 8` ends a varint. -/
theorem terminators_testBit (bs : List UInt8) {j : ℕ} (hj : j < 64) :
    (~~~UInt64.ofNat (leNat (bs.take 8)) &&& msb).toNat.testBit j =
      (decide (j % 8 = 7) && decide ((bs.getD (j / 8) 0).toNat < 128)) := by
  rw [UInt64.toNat_and, Nat.testBit_and, msb_testBit hj]
  have hnot : (~~~UInt64.ofNat (leNat (bs.take 8))).toNat.testBit j =
      !(UInt64.ofNat (leNat (bs.take 8))).toNat.testBit j := by
    change (~~~(UInt64.ofNat (leNat (bs.take 8))).toBitVec).getLsbD j = _
    rw [BitVec.getLsbD_not, decide_eq_true hj, Bool.true_and]
    rfl
  rw [hnot, load_testBit bs hj]
  by_cases hrem : j % 8 = 7
  · rw [hrem, byte_testBit_seven, ← decide_not, decide_eq_true rfl, Bool.and_true, Bool.true_and]
    simp only [Nat.not_le]
  · simp [hrem]

/-- Masking and compacting the load packs the groups of the first `n` bytes. -/
theorem compact7_load {bs : List UInt8} {n : ℕ} (hn : n ≤ 8) (hlen : n ≤ bs.length) :
    (compact7 (UInt64.ofNat (leNat (bs.take 8)) &&& keep7 n)).toNat =
      packed 7 ((bs.take n).map UInt8.toNat) := by
  apply Nat.eq_of_testBit_eq
  intro j
  rw [compact7_testBit, packed_testBit (by decide)]
  have hgroup : (j + j / 7) / 8 = j / 7 := by omega
  have hbit : (j + j / 7) % 8 = j % 7 := by omega
  have hseven : j % 7 < 7 := Nat.mod_lt _ (by decide)
  have hget : (((bs.take n).map UInt8.toNat).getD (j / 7) 0) =
      if j / 7 < n then (bs.getD (j / 7) 0).toNat else 0 := by
    simp only [List.getD_eq_getElem?_getD, List.getElem?_map]
    split
    · next h =>
      rw [List.getElem?_take_of_lt h, List.getElem?_eq_getElem (by omega)]
      rfl
    · rw [List.getElem?_eq_none (by simp; omega)]
      rfl
  rw [hget]
  by_cases hj : j < 56
  · rw [UInt64.toNat_and, Nat.testBit_and, load_testBit bs (by omega), keep7_testBit hn (by omega),
      hgroup, hbit, decide_eq_true hj, decide_eq_true hseven]
    by_cases hin : j / 7 < n
    · have hlow : j + j / 7 < 8 * n := by omega
      simp [hin, hlow]
    · have hhigh : ¬j + j / 7 < 8 * n := by omega
      simp [hin, hhigh]
  · rw [decide_eq_false hj, if_neg (by omega)]
    simp

/-- A cursor into a slice reads the remaining bytes from their start. -/
theorem getD_drop (buf : List UInt8) (start k : ℕ) :
    buf.getD (start + k) 0 = (buf.drop start).getD k 0 := by
  simp only [List.getD_eq_getElem?_getD, List.getElem?_drop]

/-- Or-ing a word in above the bits already read adds it. -/
theorem or_shiftLeft {v s : ℕ} {x : UInt64} (hv : v < 2 ^ s) (hs : s < 64)
    (hx : x.toNat < 2 ^ (64 - s)) :
    UInt64.ofNat v ||| (x <<< UInt64.ofNat s) = UInt64.ofNat (v + 2 ^ s * x.toNat) := by
  have hpow : 2 ^ s * 2 ^ (64 - s) = 2 ^ 64 := by
    rw [← pow_add, Nat.add_sub_of_le (by omega)]
  have hmul : 2 ^ s * x.toNat < 2 ^ 64 := by
    rw [← hpow]
    exact Nat.mul_lt_mul_of_pos_left hx (by positivity)
  have hv64 : v < 2 ^ 64 := hv.trans (Nat.pow_lt_pow_right (by decide) hs)
  apply UInt64.toNat_inj.mp
  rw [UInt64.toNat_or, UInt64.toNat_shiftLeft, UInt64.toNat_ofNat_of_lt' hv64,
    UInt64.toNat_ofNat_of_lt' (show s < 2 ^ 64 by omega), Nat.mod_eq_of_lt hs, Nat.shiftLeft_eq,
    Nat.mul_comm, Nat.mod_eq_of_lt hmul, Nat.or_comm, ← Nat.two_pow_add_eq_or_of_lt hv,
    UInt64.toNat_ofNat', Nat.add_comm, Nat.mod_eq_of_lt]
  have hstep : 2 ^ s * (x.toNat + 1) ≤ 2 ^ 64 := by
    rw [← hpow]
    exact Nat.mul_le_mul_left _ hx
  rw [Nat.mul_succ] at hstep
  omega

/-- The payload of a byte is its low seven bits. -/
theorem payload_toNat (b : UInt8) : (b &&& 0x7F).toUInt64.toNat = b.toNat % 128 := by
  rw [UInt8.toNat_toUInt64, UInt8.toNat_and]
  exact Nat.and_two_pow_sub_one_eq_mod b.toNat 7

/-- Or-ing in the next 7-bit group appends it to the groups already packed. -/
theorem or_group {bytes : List UInt8} (b : UInt8) (hlen : bytes.length ≤ 8) :
    UInt64.ofNat (packed 7 (bytes.map UInt8.toNat)) |||
        ((b &&& 0x7F).toUInt64 <<< UInt64.ofNat (7 * bytes.length)) =
      UInt64.ofNat (packed 7 ((bytes ++ [b]).map UInt8.toNat)) := by
  have hlt := packed_lt 7 (bytes.map UInt8.toNat)
  rw [List.length_map] at hlt
  have hgroup : (b &&& 0x7F).toUInt64.toNat < 2 ^ (64 - 7 * bytes.length) := by
    rw [payload_toNat]
    have hpow : 2 ^ 7 ≤ 2 ^ (64 - 7 * bytes.length) := Nat.pow_le_pow_right (by decide) (by omega)
    exact (Nat.mod_lt _ (by decide)).trans_le hpow
  rw [or_shiftLeft hlt (by omega) hgroup, payload_toNat, List.map_append, packed_append,
    List.length_map]
  simp [packed]

/-- The tenth byte appends bit 63 to nine groups. -/
theorem or_last {bytes : List UInt8} {b : UInt8} (hlen : bytes.length = 9) (hb : b.toNat ≤ 1) :
    UInt64.ofNat (packed 7 (bytes.map UInt8.toNat)) ||| (b.toUInt64 <<< 63) =
      UInt64.ofNat (packed 7 ((bytes ++ [b]).map UInt8.toNat)) := by
  have hlt := packed_lt 7 (bytes.map UInt8.toNat)
  rw [List.length_map, hlen] at hlt
  have hbit : b.toUInt64.toNat < 2 ^ (64 - 7 * 9) := by
    rw [UInt8.toNat_toUInt64]
    omega
  have hmod : b.toNat % 128 = b.toNat := Nat.mod_eq_of_lt (by omega)
  refine (or_shiftLeft hlt (by decide) hbit).trans ?_
  rw [UInt8.toNat_toUInt64, List.map_append, packed_append, List.length_map, hlen]
  simp [packed, hmod]

/-- The first `n` bytes hold the end of a varint, or they all continue. -/
theorem terminated_or_continues (n : ℕ) (bs : List UInt8) :
    (∃ cs b rest, bs = cs ++ b :: rest ∧ cs.length < n ∧ (∀ c ∈ cs, 128 ≤ c.toNat) ∧
      b.toNat < 128) ∨ ∀ b ∈ bs.take n, 128 ≤ b.toNat := by
  induction n generalizing bs with
  | zero => exact Or.inr (by simp)
  | succ n ih =>
    cases bs with
    | nil => exact Or.inr (by simp)
    | cons b bs =>
      by_cases hb : b.toNat < 128
      · exact Or.inl ⟨[], b, bs, rfl, by simp, by simp, hb⟩
      · rcases ih bs with ⟨cs, d, rest, rfl, hlen, hcs, hd⟩ | hall
        · refine Or.inl ⟨b :: cs, d, rest, rfl, by simpa using hlen, ?_, hd⟩
          simpa [Nat.le_of_not_lt hb] using hcs
        · refine Or.inr ?_
          simpa [Nat.le_of_not_lt hb] using hall

/-- The word path on a varint that ends within its eight bytes. -/
theorem readVarintWide_terminated {buf : List UInt8} {start : ℕ} {cs : List UInt8} {b : UInt8}
    {rest : List UInt8} (hbs : buf.drop start = cs ++ b :: rest) (hlen : cs.length < 8)
    (hcs : ∀ c ∈ cs, 128 ≤ c.toNat) (hb : b.toNat < 128) :
    readVarintWide buf start =
      .ok (UInt64.ofNat (packed 7 ((cs ++ [b]).map UInt8.toNat)), start + (cs.length + 1)) := by
  have hget (k : ℕ) (hk : k < cs.length) : 128 ≤ ((buf.drop start).getD k 0).toNat := by
    rw [hbs, List.getD_append _ _ _ _ hk, List.getD_eq_getElem _ _ hk]
    exact hcs _ (List.getElem_mem hk)
  have hlast : ((buf.drop start).getD cs.length 0) = b := by
    rw [hbs, List.getD_append_right _ _ _ _ le_rfl, Nat.sub_self]
    rfl
  set terminators := ~~~UInt64.ofNat (leNat ((buf.drop start).take 8)) &&& msb with hterm
  have hset : terminators.toNat.testBit (8 * cs.length + 7) = true := by
    rw [hterm, terminators_testBit _ (by omega)]
    have hdiv : (8 * cs.length + 7) / 8 = cs.length := by omega
    have hmod : (8 * cs.length + 7) % 8 = 7 := by omega
    rw [hdiv, hmod, hlast]
    simp [hb]
  have hlow (j : ℕ) (hj : j < 8 * cs.length + 7) : terminators.toNat.testBit j = false := by
    rw [hterm, terminators_testBit _ (by omega)]
    by_cases hmod : j % 8 = 7
    · have := hget (j / 8) (by omega)
      rw [decide_eq_false (Nat.not_lt.mpr this), Bool.and_false]
    · rw [decide_eq_false hmod, Bool.false_and]
  have hne : terminators ≠ 0 := by
    intro hzero
    rw [hzero] at hset
    simp at hset
  have htz : trailingZeros terminators / 8 + 1 = cs.length + 1 := by
    rw [trailingZeros_eq (by omega) hset hlow]
    omega
  have htake : (buf.drop start).take (cs.length + 1) = cs ++ [b] := by
    rw [hbs, List.take_append]
    simp
  have hvalue : compact7 (UInt64.ofNat (leNat ((buf.drop start).take 8)) &&& keep7 (cs.length + 1)) =
      UInt64.ofNat (packed 7 ((cs ++ [b]).map UInt8.toNat)) := by
    rw [← htake, ← compact7_load (by omega) (by rw [hbs]; simp), UInt64.ofNat_toNat]
  rw [readVarintWide]
  simp only [← hterm, if_pos hne, htz, hvalue]

/-- The word path when all eight bytes continue: the ninth and tenth byte decide. -/
theorem readVarintWide_continues {buf : List UInt8} {start : ℕ} {cs : List UInt8} {b8 b9 : UInt8}
    {rest : List UInt8} (hbs : buf.drop start = cs ++ b8 :: b9 :: rest) (hlen : cs.length = 8)
    (hcs : ∀ c ∈ cs, 128 ≤ c.toNat) :
    readVarintWide buf start =
      if b8.toNat < 128 then
        .ok (UInt64.ofNat (packed 7 ((cs ++ [b8]).map UInt8.toNat)), start + 9)
      else if b9.toNat ≤ 1 then
        .ok (UInt64.ofNat (packed 7 ((cs ++ [b8, b9]).map UInt8.toNat)), start + 10)
      else .error .invalidMsg := by
  have htake : (buf.drop start).take 8 = cs := by
    rw [hbs, ← hlen, List.take_left]
  have hget (k : ℕ) (hk : k < 8) : 128 ≤ ((buf.drop start).getD k 0).toNat := by
    rw [hbs, List.getD_append _ _ _ _ (by omega), List.getD_eq_getElem _ _ (by omega)]
    exact hcs _ (List.getElem_mem _)
  have hterm : ~~~UInt64.ofNat (leNat ((buf.drop start).take 8)) &&& msb = 0 := by
    apply UInt64.toNat_inj.mp
    apply Nat.eq_of_testBit_eq
    intro j
    by_cases hj : j < 64
    · rw [terminators_testBit _ hj, decide_eq_false (Nat.not_lt.mpr (hget (j / 8) (by omega)))]
      simp
    · rw [Nat.testBit_lt_two_pow ((UInt64.toNat_lt _).trans_le
        (Nat.pow_le_pow_right (by decide) (Nat.le_of_not_lt hj)))]
      simp
  have hlow : compact7 (UInt64.ofNat (leNat ((buf.drop start).take 8)) &&& low7) =
      UInt64.ofNat (packed 7 (cs.map UInt8.toNat)) := by
    conv_rhs => rw [← htake]
    rw [low7_eq_keep7, ← compact7_load le_rfl (by rw [hbs]; simp [hlen]), UInt64.ofNat_toNat]
  have hb8 : buf.getD (start + 8) 0 = b8 := by
    rw [getD_drop, hbs, List.getD_append_right _ _ _ _ (by omega), hlen]
    rfl
  have hb9 : buf.getD (start + 9) 0 = b9 := by
    rw [getD_drop, hbs, List.getD_append_right _ _ _ _ (by omega), hlen]
    rfl
  have hnine : UInt64.ofNat (packed 7 (cs.map UInt8.toNat)) ||| ((b8 &&& 0x7F).toUInt64 <<< 56) =
      UInt64.ofNat (packed 7 ((cs ++ [b8]).map UInt8.toNat)) := by
    rw [← or_group b8 (by omega), hlen]
    rfl
  have hten (hb : b9.toNat ≤ 1) :
      UInt64.ofNat (packed 7 ((cs ++ [b8]).map UInt8.toNat)) ||| (b9.toUInt64 <<< 63) =
        UInt64.ofNat (packed 7 ((cs ++ [b8, b9]).map UInt8.toNat)) := by
    have hsnoc : cs ++ [b8, b9] = (cs ++ [b8]) ++ [b9] := by simp
    rw [hsnoc, or_last (by simp [hlen]) hb]
  rw [readVarintWide]
  simp only [hterm, ne_eq, not_true_eq_false, if_false, hlow, hb8, hb9, hnine,
    UInt8.lt_iff_toNat_lt, gt_iff_lt, maxVarintLen]
  change (if b8.toNat < 128 then _ else if 1 < b9.toNat then _ else _) = _
  split
  · rfl
  · by_cases hb : b9.toNat ≤ 1
    · rw [if_neg (Nat.not_lt.mpr hb), if_pos hb, hten hb]
    · rw [if_pos (Nat.lt_of_not_le hb), if_neg hb]

/-- The one-byte test reads the top bit as a comparison. -/
theorem one_byte_iff (b : UInt8) : b < 0x80 ↔ b.toNat < 128 := UInt8.lt_iff_toNat_lt

/-- The loop's continuation test is the top bit. -/
theorem continuation_clear_iff (b : UInt8) : b &&& 0x80 = 0 ↔ b.toNat < 128 := by
  have hall : ∀ n < 256, UInt8.ofNat n &&& 0x80 = 0 ↔ n < 128 := by decide +kernel
  simpa using hall _ b.toNat_lt

/-- The byte loop, with `bytes` already read, finishes the reference reading of the whole run. -/
theorem readVarintTailLoop_eq (bytes bs : List UInt8) (hbytes : ∀ c ∈ bytes, 128 ≤ c.toNat)
    (hlen : bytes.length + bs.length ≤ 9) :
    readVarintTailLoop (UInt64.ofNat (packed 7 (bytes.map UInt8.toNat))) (7 * bytes.length)
        bytes.length bs =
      match Leb128.read fullGroups (bytes ++ bs) with
      | .done v rest => some (UInt64.ofNat v, bytes.length + bs.length - rest.length)
      | .short => none
      | .overflow => none := by
  induction bs generalizing bytes with
  | nil =>
    have hshort : Leb128.read fullGroups bytes = .short :=
      Leb128.read_short_iff.mpr ⟨by simpa [fullGroups] using hlen, hbytes⟩
    rw [List.append_nil, hshort]
    rfl
  | cons b bs ih =>
    rw [List.length_cons] at hlen
    rw [readVarintTailLoop, or_group b (by omega)]
    by_cases hb : b.toNat < 128
    · have hdone := Leb128.read_terminated fullGroups bytes b bs
        (show bytes.length < 9 by omega) hbytes hb
      simp only [if_pos ((continuation_clear_iff b).mpr hb), hdone, List.length_cons]
      congr 2
      omega
    · have hsnoc := ih (bytes ++ [b]) (by simpa [or_imp, forall_and, Nat.le_of_not_lt hb] using hbytes)
        (by simp only [List.length_append, List.length_singleton]; omega)
      simp only [List.length_append, List.length_singleton, List.append_assoc,
        List.singleton_append, Nat.mul_add_one] at hsnoc
      simp only [if_neg (mt (continuation_clear_iff b).mp hb), List.length_cons]
      rw [hsnoc, Nat.add_assoc, Nat.add_comm 1]

/-- The checked tail reads the reference number of the bytes left. -/
theorem readVarintTail_eq {buf : List UInt8} {start : ℕ} (hlen : buf.length - start ≤ 9) :
    readVarintTail buf start =
      match Leb128.read fullGroups (buf.drop start) with
      | .done v rest => some (UInt64.ofNat v, buf.length - start - rest.length)
      | .short => none
      | .overflow => none := by
  have h := readVarintTailLoop_eq [] (buf.drop start) (by simp) (by simpa using hlen)
  simpa [packed, readVarintTail] using h

/-- With ten bytes readable the word path gives the reference answer. -/
theorem readVarintWide_eq {buf : List UInt8} {start : ℕ} (hlen : 10 ≤ buf.length - start) :
    readVarintWide buf start =
      match Leb128.read fullGroups (buf.drop start) with
      | .done v rest => .ok (UInt64.ofNat v, buf.length - rest.length)
      | .short => .error .invalidMsg
      | .overflow => .error .invalidMsg := by
  have hdrop : (buf.drop start).length = buf.length - start := List.length_drop
  rcases terminated_or_continues 8 (buf.drop start) with
    ⟨cs, b, rest, hbs, hcslen, hcs, hb⟩ | hall
  · have hread : Leb128.read fullGroups (cs ++ b :: rest) = _ :=
      Leb128.read_terminated _ cs b rest (by change _ < 9; omega) hcs hb
    rw [readVarintWide_terminated hbs hcslen hcs hb, hbs, hread]
    rw [hbs] at hdrop
    simp only [List.length_append, List.length_cons] at hdrop
    simp only
    congr 2
    omega
  · obtain ⟨b8, b9, rest, hrest⟩ : ∃ b8 b9 rest, (buf.drop start).drop 8 = b8 :: b9 :: rest := by
      match hd : (buf.drop start).drop 8 with
      | b8 :: b9 :: rest => exact ⟨b8, b9, rest, rfl⟩
      | [_] | [] =>
        have := congrArg List.length hd
        simp only [List.length_drop, List.length_cons, List.length_nil] at this
        omega
    have hbs : buf.drop start = (buf.drop start).take 8 ++ b8 :: b9 :: rest := by
      rw [← hrest, List.take_append_drop]
    have hcslen : ((buf.drop start).take 8).length = 8 := by
      rw [List.length_take, hdrop]
      omega
    generalize (buf.drop start).take 8 = cs at hbs hcslen hall
    rw [readVarintWide_continues hbs hcslen hall, hbs]
    rw [hbs] at hdrop
    simp only [List.length_append, List.length_cons] at hdrop
    by_cases hb8 : b8.toNat < 128
    · have hread := Leb128.read_terminated fullGroups cs b8 (b9 :: rest)
        (by change _ < 9; omega) hall hb8
      rw [if_pos hb8, hread]
      simp only [List.length_cons]
      congr 2
      omega
    · have hnine : ∀ c ∈ cs ++ [b8], 128 ≤ c.toNat := by
        simpa [or_imp, forall_and, Nat.le_of_not_lt hb8] using hall
      have hread := Leb128.read_last (cs ++ [b8]) b9 rest hnine
      have hgroups : (cs ++ [b8]).length = fullGroups := by simp [hcslen, fullGroups]
      rw [hgroups, List.append_assoc, List.singleton_append] at hread
      rw [if_neg hb8, hread]
      split
      · simp only [List.append_assoc, List.cons_append, List.nil_append]
        congr 2
        omega
      · rfl

/-- The word path is the reference reading at the cursor. -/
theorem readVarintWide_reads {buf : List UInt8} {pos : ℕ}
    (hwide : maxVarintLen ≤ buf.length - pos) :
    (readVarintWide buf pos).map some =
      match Leb128.read fullGroups (buf.drop pos) with
      | .done v rest => .ok (some (UInt64.ofNat v, buf.length - rest.length))
      | .short => .ok none
      | .overflow => .error .invalidMsg := by
  rw [readVarintWide_eq hwide]
  cases hread : Leb128.read fullGroups (buf.drop pos) with
  | done v rest => rfl
  | short =>
    -- ten bytes are never too few
    have hle := (Leb128.read_short_iff.mp hread).1
    rw [List.length_drop] at hle
    exact absurd (hwide.trans hle) (by decide)
  | overflow => rfl

/-- The checked tail is the reference reading at the cursor. -/
theorem readVarintTail_reads {buf : List UInt8} {pos : ℕ}
    (hshort : buf.length - pos < maxVarintLen) :
    Except.ok (ε := Error) ((readVarintTail buf pos).map fun (value, len) => (value, pos + len)) =
      match Leb128.read fullGroups (buf.drop pos) with
      | .done v rest => .ok (some (UInt64.ofNat v, buf.length - rest.length))
      | .short => .ok none
      | .overflow => .error .invalidMsg := by
  rw [readVarintTail_eq (Nat.le_of_lt_succ hshort)]
  cases hread : Leb128.read fullGroups (buf.drop pos) with
  | done v rest =>
    obtain ⟨z, hz, hne, -⟩ := Leb128.read_done hread
    have hlen := congrArg List.length hz
    have hpos := List.length_pos_of_ne_nil hne
    rw [List.length_drop, List.length_append] at hlen
    simp only [Option.map_some, Except.ok.injEq, Option.some.injEq, Prod.mk.injEq, true_and]
    omega
  | short => rfl
  | overflow =>
    -- what is too long has ten bytes
    have hlong := Leb128.read_overflow_length hread
    rw [List.length_drop] at hlong
    exact absurd hlong (Nat.not_le.mpr hshort)

/-- `readVarint` is the reference reading at the cursor, on whichever path it takes. -/
theorem readVarint_eq (buf : List UInt8) (pos : ℕ) :
    readVarint buf pos =
      match Leb128.read fullGroups (buf.drop pos) with
      | .done v rest => .ok (some (UInt64.ofNat v, buf.length - rest.length))
      | .short => .ok none
      | .overflow => .error .invalidMsg := by
  rw [readVarint]
  by_cases hpos : buf.length ≤ pos
  · rw [if_pos hpos, List.drop_eq_nil_of_le hpos]
    rfl
  · rw [if_neg hpos]
    have hlt : pos < buf.length := Nat.lt_of_not_le hpos
    have hb0 : buf.getD pos 0 = buf[pos] := List.getD_eq_getElem _ _ hlt
    have hcons : buf.drop pos = buf[pos] :: buf.drop (pos + 1) := List.drop_eq_getElem_cons hlt
    simp only [hb0]
    by_cases hone : buf[pos].toNat < 128
    · have hread := Leb128.read_terminated fullGroups [] buf[pos] (buf.drop (pos + 1))
        (by decide) (by simp) hone
      rw [List.nil_append] at hread
      rw [if_pos ((one_byte_iff _).mpr hone), hcons, hread]
      have hvalue : buf[pos].toUInt64 = UInt64.ofNat buf[pos].toNat := by
        apply UInt64.toNat_inj.mp
        rw [UInt8.toNat_toUInt64, UInt64.toNat_ofNat_of_lt' (hone.trans (by decide))]
      simp only [List.length_drop, hvalue]
      congr 3
      · simp [packed, Nat.mod_eq_of_lt hone]
      · omega
    · rw [if_neg (mt (one_byte_iff _).mp hone)]
      by_cases hwide : maxVarintLen ≤ buf.length - pos
      · rw [if_pos hwide]
        exact readVarintWide_reads hwide
      · rw [if_neg hwide, ← readVarintTail_reads (Nat.lt_of_not_le hwide)]
        cases readVarintTail buf pos with
        | none => rfl
        | some answer => rfl

/-- With ten bytes readable, the unchecked reader is the checked one. -/
theorem readVarintReady_eq {buf : List UInt8} {pos : ℕ} (hlen : pos + maxVarintLen ≤ buf.length) :
    readVarint buf pos = (readVarintReady buf pos).map some := by
  have hpos : ¬buf.length ≤ pos := by
    change pos + 10 ≤ _ at hlen
    omega
  have hwide : maxVarintLen ≤ buf.length - pos := by omega
  rw [readVarint, readVarintReady, if_neg hpos]
  simp only [if_pos hwide]
  split <;> rfl

/-- A varint takes at least one byte, all of them in the buffer. -/
theorem readVarint_advances {buf : List UInt8} {pos next : ℕ} {value : Unsigned}
    (h : readVarint buf pos = .ok (some (value, next))) : pos < next := by
  rw [readVarint_eq] at h
  split at h
  · next v rest hread =>
    obtain ⟨z, hz, hne, -, -⟩ := Leb128.read_done hread
    have hlen : (buf.drop pos).length = z.length + rest.length := by
      rw [hz, List.length_append]
    have hzpos : 0 < z.length := List.length_pos_iff.mpr hne
    rw [List.length_drop] at hlen
    injection h with h
    injection h with h
    injection h with _ hnext
    omega
  · cases h
  · cases h

end Sofab
