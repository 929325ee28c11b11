import Mathlib.Data.Nat.Log
import Mathlib.Tactic.IntervalCases
import Sofab.Lib.Leb128
import Sofab.Varint

/-!
# The varint writer stores the minimal spelling

`spread7` places group `i` of the value in byte `i` of a word, so the word with its
continuation bits set is the first eight bytes of the minimal spelling. The length test and
the three tails agree with the number of groups. Only the bytes below the returned length
are meaningful; everything stored stays within ten bytes of the destination.
-/

namespace Sofab

open Digits Splice

/-- The minimal spelling of a 64-bit value. -/
def varintBytes (value : Unsigned) : List UInt8 := Leb128.encode value.toNat

/-- Spreading opens a continuation-bit column every eight bits. -/
theorem spread7_testBit (x : UInt64) {j : ℕ} (hj : j < 64) :
    (spread7 x).toNat.testBit j = (decide (j % 8 < 7) && x.toNat.testBit (7 * (j / 8) + j % 8)) := by
  change (spread7 x).toBitVec.getLsbD j =
    (decide (j % 8 < 7) && x.toBitVec.getLsbD (7 * (j / 8) + j % 8))
  interval_cases j <;> simp [spread7]

/-- The continuation bits of an `n`-byte varint sit on all bytes but the last. -/
theorem cont_testBit {n j : ℕ} (hn : n ≤ 8) (hj : j < 64) :
    (cont n).toNat.testBit j = (decide (j % 8 = 7) && decide (j / 8 + 1 < n)) := by
  have hall : ∀ n ≤ 8, ∀ j < 64,
      (cont n).toNat.testBit j = (decide (j % 8 = 7) && decide (j / 8 + 1 < n)) := by
    decide +kernel
  exact hall n hn j hj

/-- The whole continuation mask marks all eight bytes, as for a nine-byte varint. -/
theorem msb_eq_mark {j : ℕ} (hj : j < 64) :
    msb.toNat.testBit j = (decide (j % 8 = 7) && decide (j / 8 + 1 < 9)) := by
  have hall : ∀ j < 64, msb.toNat.testBit j = (decide (j % 8 = 7) && decide (j / 8 + 1 < 9)) := by
    decide +kernel
  exact hall j hj

/-- A group with its continuation bit, bit by bit. -/
theorem marked_testBit (g r : ℕ) (mark : Bool) :
    (g % 128 + if mark then 128 else 0).testBit r =
      if r < 7 then g.testBit r else decide (r = 7) && mark := by
  have hsum : (g % 128 + if mark then 128 else 0) = 2 ^ 7 * mark.toNat + g % 2 ^ 7 := by
    cases mark <;> simp [Nat.add_comm]
  rw [hsum, Nat.testBit_two_pow_mul_add _ (Nat.mod_lt _ (by decide)), Nat.testBit_mod_two_pow]
  split
  · next hr => simp [hr]
  · next hr =>
    obtain ⟨k, rfl⟩ := Nat.exists_eq_add_of_le (Nat.le_of_not_lt hr)
    rw [Nat.add_sub_cancel_left]
    cases k <;> cases mark <;> simp [Nat.testBit_succ]

/-- Byte `i` of the spread word under a mask is the marked group `i` of the value. -/
theorem spread7_byte (v mask : UInt64) {n i : ℕ} (hi : i < 8)
    (hmask : ∀ j < 64, mask.toNat.testBit j = (decide (j % 8 = 7) && decide (j / 8 + 1 < n))) :
    UInt8.ofNat ((spread7 v ||| mask).toNat / 256 ^ i) =
      UInt8.ofNat (v.toNat / 128 ^ i % 128 + if i + 1 < n then 128 else 0) := by
  apply UInt8.toNat_inj.mp
  rw [UInt8.toNat_ofNat', UInt8.toNat_ofNat']
  apply Nat.eq_of_testBit_eq
  intro r
  rw [Nat.testBit_mod_two_pow, Nat.testBit_mod_two_pow]
  by_cases hr : r < 8
  · have hpow : (256 : ℕ) ^ i = 2 ^ (8 * i) := (pow_mul 2 8 i).symm
    have hgroup : (128 : ℕ) ^ i = 2 ^ (7 * i) := (pow_mul 2 7 i).symm
    have hbyte : (r + 8 * i) / 8 = i := by omega
    have hbit : (r + 8 * i) % 8 = r := by omega
    have hmark := marked_testBit (v.toNat / 128 ^ i) r (decide (i + 1 < n))
    simp only [decide_eq_true_eq] at hmark
    rw [hmark, hpow, Nat.testBit_div_two_pow, UInt64.toNat_or, Nat.testBit_or,
      spread7_testBit v (by omega), hmask _ (by omega), hbyte, hbit, hgroup,
      Nat.testBit_div_two_pow, Nat.add_comm r (7 * i)]
    by_cases hlow : r < 7
    · simp [hr, hlow, Nat.ne_of_lt hlow]
    · have hseven : r = 7 := by omega
      simp [hseven]
  · simp [hr]

/-- `varint_len` counts the bytes of the minimal spelling. -/
theorem varintLen_eq (v : Unsigned) : varintLen v = (varintBytes v).length := by
  rw [varintLen, leadingZeros, varintBytes]
  by_cases hv : v = 0
  · subst hv
    simp [Leb128.encode_of_lt]
  · have hne : v.toNat ≠ 0 := fun h => hv (UInt64.toNat_inj.mp (by simpa using h))
    have hlog : v.toNat.log2 < 64 := (Nat.log2_lt hne).mpr v.toNat_lt
    rw [if_neg hv]
    have hgroups : (max (64 - (63 - v.toNat.log2)) 1 + 6) / 7 = v.toNat.log2 / 7 + 1 := by omega
    rw [hgroups, eq_comm, Leb128.encode_length_eq_iff]
    constructor
    · rw [show (128 : ℕ) = 2 ^ 7 by rfl, ← pow_mul, ← Nat.log2_lt hne]
      omega
    · refine Or.inr ?_
      rw [show (128 : ℕ) = 2 ^ 7 by rfl, ← pow_mul, ← Nat.le_log2 hne]
      omega

/-- A varint has at most ten bytes. -/
theorem varintBytes_length_le (v : Unsigned) : (varintBytes v).length ≤ 10 := by
  rw [← varintLen_eq, varintLen]
  omega

/-- A varint has at least one byte. -/
theorem varintBytes_ne_nil (v : Unsigned) : varintBytes v ≠ [] := Leb128.encode_ne_nil _

/-- A value below `2 ^ 56` is spelled by a prefix of the eight-byte store. -/
theorem varintBytes_of_lt {v : Unsigned} (hv : v.toNat < 2 ^ 56) :
    varintLen v ≤ 8 ∧
      (leBytes 8 (spread7 v ||| cont (varintLen v)).toNat).take (varintLen v) = varintBytes v := by
  have hlen : varintLen v ≤ 8 := by
    rw [varintLen_eq, varintBytes]
    by_contra hlong
    obtain ⟨k, hk⟩ := Nat.exists_eq_add_of_lt (Nat.lt_of_not_le hlong)
    rcases ((Leb128.encode_length_eq_iff v.toNat (8 + k)).mp hk).2 with hzero | hle
    · omega
    · have hpow : (128 : ℕ) ^ 8 ≤ 128 ^ (8 + k) := Nat.pow_le_pow_right (by decide) (by omega)
      omega
  refine ⟨hlen, List.ext_getElem ?_ fun i h1 h2 => ?_⟩
  · rw [List.length_take, leBytes_length, Nat.min_eq_left hlen, varintLen_eq]
  · have hi : i < 8 := by
      rw [List.length_take] at h1
      omega
    have hbyte := Leb128.encode_getElem v.toNat i h2
    have hlen' : (Leb128.encode v.toNat).length = varintLen v := (varintLen_eq v).symm
    rw [hlen'] at hbyte
    rw [List.getElem_take, leBytes_getElem,
      spread7_byte v _ hi fun j hj => cont_testBit hlen hj]
    exact hbyte.symm

/-- The length of a varint whose value needs more than eight groups. -/
theorem varintBytes_length_of_le {v : Unsigned} (hv : 2 ^ 56 ≤ v.toNat) :
    (varintBytes v).length = if v.toNat < 2 ^ 63 then 9 else 10 := by
  split
  · next hlt =>
    refine (Leb128.encode_length_eq_iff v.toNat 8).mpr ⟨?_, Or.inr ?_⟩
    · exact hlt
    · exact hv
  · next hle =>
    refine (Leb128.encode_length_eq_iff v.toNat 9).mpr ⟨?_, Or.inr ?_⟩
    · exact v.toNat_lt.trans (by decide)
    · exact Nat.le_of_not_lt hle

/-- The first eight bytes of a longer spelling are the fully marked word. -/
theorem varintBytes_take_eight {v : Unsigned} (hv : 2 ^ 56 ≤ v.toNat) :
    (varintBytes v).take 8 = leBytes 8 (spread7 v ||| msb).toNat := by
  have hlen := varintBytes_length_of_le hv
  have hlong : 9 ≤ (varintBytes v).length := by
    rw [hlen]
    split <;> decide
  refine List.ext_getElem ?_ fun i h1 h2 => ?_
  · rw [List.length_take, leBytes_length, Nat.min_eq_left (by omega)]
  · rw [leBytes_length] at h2
    have hmark : (if i + 1 < (Leb128.encode v.toNat).length then 128 else 0) =
        if i + 1 < 9 then 128 else 0 := by
      have : 9 ≤ (Leb128.encode v.toNat).length := hlong
      rw [if_pos (by omega), if_pos (by omega)]
    rw [List.getElem_take, leBytes_getElem, spread7_byte v msb h2 fun j hj => msb_eq_mark hj]
    refine (Leb128.encode_getElem v.toNat i _).trans ?_
    rw [hmark]

/-- The ninth and tenth byte of a long spelling. -/
theorem varintBytes_of_le {v : Unsigned} (hv : 2 ^ 56 ≤ v.toNat) :
    varintBytes v = leBytes 8 (spread7 v ||| msb).toNat ++
      if v.toNat < 2 ^ 63 then [(v >>> 56).toUInt8] else [(v >>> 56).toUInt8 ||| 0x80, 1] := by
  rw [← varintBytes_take_eight hv]
  conv_lhs => rw [← List.take_append_drop 8 (varintBytes v)]
  congr 1
  have hlen := varintBytes_length_of_le hv
  have hv64 := v.toNat_lt
  have hhi : (v >>> 56).toUInt8.toNat = v.toNat / 2 ^ 56 := by
    rw [UInt64.toNat_toUInt8, UInt64.toNat_shiftRight, Nat.shiftRight_eq_div_pow]
    change v.toNat / 2 ^ 56 % 256 = _
    exact Nat.mod_eq_of_lt (by omega)
  refine List.ext_getElem ?_ fun i h1 h2 => ?_
  · rw [List.length_drop, hlen]
    split <;> rfl
  · rw [List.getElem_drop]
    refine (Leb128.encode_getElem v.toNat (8 + i) _).trans ?_
    have hlen' : (Leb128.encode v.toNat).length = if v.toNat < 2 ^ 63 then 9 else 10 := hlen
    rw [hlen']
    apply UInt8.toNat_inj.mp
    by_cases hlt : v.toNat < 2 ^ 63
    · simp only [if_pos hlt, List.length_singleton] at h2 ⊢
      have hi : i = 0 := by omega
      subst hi
      rw [List.getElem_singleton, hhi, UInt8.toNat_ofNat', if_neg (by decide)]
      have hdiv : v.toNat / 128 ^ (8 + 0) = v.toNat / 2 ^ 56 := rfl
      omega
    · simp only [if_neg hlt, List.length_cons, List.length_nil] at h2 ⊢
      have hi : i = 0 ∨ i = 1 := by omega
      rcases hi with rfl | rfl
      · have hor : ((v >>> 56).toUInt8 ||| 0x80).toNat = v.toNat / 2 ^ 56 := by
          rw [UInt8.toNat_or, hhi]
          have hall : ∀ n < 256, 128 ≤ n → n ||| 128 = n := by decide +kernel
          exact hall _ (by omega) (by omega)
        rw [List.getElem_cons_zero, hor, UInt8.toNat_ofNat', if_pos (by decide)]
        have hdiv : v.toNat / 128 ^ (8 + 0) = v.toNat / 2 ^ 56 := rfl
        omega
      · rw [List.getElem_cons_succ, List.getElem_cons_zero, UInt8.toNat_ofNat', if_neg (by decide)]
        have hdiv : v.toNat / 128 ^ (8 + 1) = v.toNat / 2 ^ 63 := rfl
        have hone : (1 : UInt8).toNat = 1 := rfl
        omega

/-- What a varint store leaves behind: the length of the spelling, the spelling behind the
bytes below the destination, and nothing changed from ten bytes on. -/
structure StoresVarint (buf : List UInt8) (dst : ℕ) (value : Unsigned)
    (stored : List UInt8 × ℕ) : Prop where
  length : stored.2 = (varintBytes value).length
  size : stored.1.length = buf.length
  bytes : stored.1.take (dst + stored.2) = buf.take dst ++ varintBytes value
  beyond : stored.1.drop (dst + maxVarintLen) = buf.drop (dst + maxVarintLen)

/-- The width tests of the writer compare against a power of two. -/
theorem shiftRight_eq_zero_iff (v : UInt64) {k : ℕ} (hk : k < 64) :
    v >>> UInt64.ofNat k = 0 ↔ v.toNat < 2 ^ k := by
  have hval : (v >>> UInt64.ofNat k).toNat = v.toNat / 2 ^ k := by
    rw [UInt64.toNat_shiftRight, UInt64.toNat_ofNat_of_lt' (hk.trans (by decide)),
      Nat.mod_eq_of_lt hk, Nat.shiftRight_eq_div_pow]
  rw [← UInt64.toNat_inj, hval, UInt64.toNat_zero, Nat.div_eq_zero_iff]
  simp

/-- With ten writable bytes the word writer stores the minimal spelling. -/
theorem writeVarintUnchecked_stores (buf : List UInt8) (dst : ℕ) (value : Unsigned)
    (hroom : dst + maxVarintLen ≤ buf.length) :
    StoresVarint buf dst value (writeVarintUnchecked buf dst value) := by
  have hroom' : dst + 10 ≤ buf.length := hroom
  have h56 : value >>> 56 = 0 ↔ value.toNat < 2 ^ 56 := shiftRight_eq_zero_iff value (by decide)
  have h63 : value >>> 63 = 0 ↔ value.toNat < 2 ^ 63 := shiftRight_eq_zero_iff value (by decide)
  simp only [writeVarintUnchecked]
  by_cases hnarrow : value.toNat < 2 ^ 56
  · obtain ⟨hlen, htake⟩ := varintBytes_of_lt hnarrow
    rw [if_pos (h56.mpr hnarrow)]
    refine ⟨varintLen_eq value, overwrite_length _ _ _, ?_, ?_⟩
    · rw [take_overwrite_of_fit _ _ (by simp; omega) (by simpa using hlen), htake]
    · exact drop_overwrite _ _ (by simp; omega) (by simp [maxVarintLen])
  · have hle := Nat.le_of_not_lt hnarrow
    have hlen := varintBytes_length_of_le hle
    have hbytes := varintBytes_of_le hle
    have hexact : StoresVarint buf dst value
        (overwrite buf dst (varintBytes value), (varintBytes value).length) := by
      have hten := varintBytes_length_le value
      exact ⟨rfl, overwrite_length _ _ _, take_overwrite _ _ (by omega),
        drop_overwrite _ _ (by omega) (Nat.add_le_add_left hten dst)⟩
    rw [if_neg (mt h56.mp hnarrow)]
    generalize hrun : leBytes 8 (spread7 value ||| msb).toNat = run at *
    have hrunlen : run.length = 8 := by rw [← hrun, leBytes_length]
    -- the stores past the word extend the written run
    have hninth (b : UInt8) : overwrite (overwrite buf dst run) (dst + 8) [b] =
        overwrite buf dst (run ++ [b]) := by
      rw [← hrunlen, overwrite_overwrite _ _ _ (by simp; omega)]
    by_cases hnine : value.toNat < 2 ^ 63
    · rw [if_pos hnine] at hlen hbytes
      rw [if_pos (h63.mpr hnine), hninth, ← hbytes, ← hlen]
      exact hexact
    · rw [if_neg hnine] at hlen hbytes
      have htenth (b : UInt8) : overwrite (overwrite buf dst (run ++ [b])) (dst + 9) [1] =
          overwrite buf dst (run ++ [b, 1]) := by
        have hsnoc : run ++ [b, 1] = (run ++ [b]) ++ [1] := by simp
        have hsnoclen : (run ++ [b]).length = 9 := by simp [hrunlen]
        have hstep := overwrite_overwrite buf (run ++ [b]) [1] (i := dst) (by simp; omega)
        rw [hsnoclen] at hstep
        rw [hsnoc, hstep]
      rw [if_neg (mt h63.mp hnine), hninth, htenth, ← hbytes]
      have hmax : maxVarintLen = (varintBytes value).length := hlen.symm
      rw [hmax]
      exact hexact

/-- The one-byte test changes nothing about what is stored. -/
theorem writeVarintUncheckedNarrow_stores (buf : List UInt8) (dst : ℕ) (value : Unsigned)
    (hroom : dst + maxVarintLen ≤ buf.length) :
    StoresVarint buf dst value (writeVarintUncheckedNarrow buf dst value) := by
  have hroom' : dst + 10 ≤ buf.length := hroom
  rw [writeVarintUncheckedNarrow]
  split
  · next hsmall =>
    have hlt : value.toNat < 128 := UInt64.lt_iff_toNat_lt.mp hsmall
    have hbytes : varintBytes value = [value.toUInt8] := by
      rw [varintBytes, Leb128.encode_of_lt hlt]
      rfl
    refine ⟨by rw [hbytes]; rfl, overwrite_length _ _ _, ?_, ?_⟩
    · rw [hbytes]
      exact take_overwrite _ [value.toUInt8] (by rw [List.length_singleton]; omega)
    · exact drop_overwrite _ _ (by rw [List.length_singleton]; omega) (by simp [maxVarintLen])
  · exact writeVarintUnchecked_stores buf dst value hroom

/-- The arithmetic shift by 63 spreads the sign bit. -/
theorem sshiftRight_top (v : BitVec 64) :
    v.sshiftRight 63 = if v[63] then BitVec.allOnes 64 else 0#64 := by
  ext i hi
  rw [BitVec.getElem_sshiftRight]
  split
  · next hlt =>
    have hzero : i = 0 := by omega
    subst hzero
    split <;> simp_all
  · rw [BitVec.msb_eq_getLsbD_last]
    split <;> simp_all [-BitVec.reduceAllOnes]

/-- Negating the low bit spreads it. -/
theorem neg_low_bit (v : BitVec 64) :
    -(v &&& 1#64) = if v[0] then BitVec.allOnes 64 else 0#64 := by
  have hand : v &&& 1#64 = if v[0] then 1#64 else 0#64 := by
    ext i hi
    cases i <;> by_cases h : v[0] <;> simp [h]
  rw [hand]
  split <;> rfl

/-- Decoding a zigzag code gives the signed value back. -/
theorem zigzagDecode_encode (v : Signed) : zigzagDecode (zigzagEncode v) = v := by
  have hbits (x : BitVec 64) : (x <<< 1 ^^^ x.sshiftRight 63) >>> 1 ^^^
      -((x <<< 1 ^^^ x.sshiftRight 63) &&& 1#64) = x := by
    rw [sshiftRight_top, neg_low_bit]
    ext i hi
    by_cases hsign : x[63] <;> by_cases hlast : i = 63
    · subst hlast
      simp [hsign, -BitVec.reduceAllOnes]
    · have hnext : 1 + i < 64 := by omega
      simp [hsign, hnext, -BitVec.reduceAllOnes]
    · subst hlast
      simp [hsign]
    · have hnext : 1 + i < 64 := by omega
      simp [hsign, hnext]
  apply Int64.toBitVec_inj.mp
  simpa [zigzagDecode, zigzagEncode] using hbits v.toBitVec

/-- Encoding a decoded zigzag code gives the code back. -/
theorem zigzagEncode_decode (u : Unsigned) : zigzagEncode (zigzagDecode u) = u := by
  have hbits (v : BitVec 64) : (v >>> 1 ^^^ -(v &&& 1#64)) <<< 1 ^^^
      (v >>> 1 ^^^ -(v &&& 1#64)).sshiftRight 63 = v := by
    rw [neg_low_bit, sshiftRight_top]
    ext i hi
    by_cases hlow : v[0] <;> cases i with
    | zero => simp [hlow, -BitVec.reduceAllOnes]
    | succ i =>
      simp [hlow, Nat.add_comm, -BitVec.reduceAllOnes, BitVec.getLsbD_eq_getElem, hi]
  apply UInt64.toBitVec_inj.mp
  simpa [zigzagDecode, zigzagEncode] using hbits u.toBitVec

end Sofab
