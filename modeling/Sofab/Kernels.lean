import Mathlib.Algebra.BigOperators.Ring.Finset
import Sofab.Bytewise
import Sofab.VarintRead

/-!
# The integer kernels

What a varint at a position reads to is said without reference to any reader: by the bytes up
to the first one that ends it. Every path of the reader gives that answer. The kernels of the
writer store the shortest string that reads to their value, and nothing past ten bytes.
-/

namespace Sofab

open Digits Splice OStream Steps Step

/-! ## Reading -/

/-- The sum of the 7-bit groups of a varint, low group first. -/
def groupSum (bytes : List UInt8) : ℕ :=
  ∑ i ∈ Finset.range bytes.length, (bytes.getD i 0).toNat % 128 * 128 ^ i

/-- What there is to read at `pos`: the bytes up to the first that ends a varint, if there are
at most ten of them and the tenth adds no more than bit 63; a varint that is too long; or the
end of the buffer before the end of a varint. -/
inductive VarintAt (buf : List UInt8) (pos : ℕ) : Except Error (Option (Unsigned × ℕ)) → Prop
  | done {groups rest : List UInt8} {last : UInt8} {value : Unsigned}
      (split : buf.drop pos = groups ++ last :: rest) (more : ∀ b ∈ groups, 128 ≤ b.toNat)
      (ends : last.toNat < 128)
      (width : groups.length < 9 ∨ groups.length = 9 ∧ last.toNat ≤ 1)
      (sum : value.toNat = groupSum (groups ++ [last])) :
      VarintAt buf pos (.ok (some (value, pos + (groups.length + 1))))
  | invalid {groups rest : List UInt8} {tenth : UInt8}
      (split : buf.drop pos = groups ++ tenth :: rest) (more : ∀ b ∈ groups, 128 ≤ b.toNat)
      (nine : groups.length = 9) (large : 1 < tenth.toNat) :
      VarintAt buf pos (.error .invalidMsg)
  | cut (short : (buf.drop pos).length ≤ 9) (more : ∀ b ∈ buf.drop pos, 128 ≤ b.toNat) :
      VarintAt buf pos (.ok none)

/-- Packing groups of seven bits sums them up. -/
theorem packed_eq_groupSum (bytes : List UInt8) :
    packed 7 (bytes.map UInt8.toNat) = groupSum bytes := by
  induction bytes with
  | nil => rfl
  | cons b bytes ih =>
    have hshift (i : ℕ) : (bytes.getD i 0).toNat % 128 * 128 ^ (i + 1) =
        128 * ((bytes.getD i 0).toNat % 128 * 128 ^ i) := by
      rw [pow_succ]
      ring
    rw [List.map_cons, packed, ih, groupSum, groupSum, List.length_cons, Finset.sum_range_succ']
    simp only [List.getD_cons_succ, List.getD_cons_zero, hshift, ← Finset.mul_sum]
    rw [pow_zero, Nat.mul_one, Nat.add_comm]
    rfl

/-- The bytes of a varint, and what they are read to by the reference reading. -/
theorem read_groups {groups : List UInt8} {last : UInt8} (hmore : ∀ b ∈ groups, 128 ≤ b.toNat)
    (hends : last.toNat < 128) (hwidth : groups.length < 9 ∨ groups.length = 9 ∧ last.toNat ≤ 1)
    (rest : List UInt8) :
    Leb128.read fullGroups (groups ++ last :: rest) =
      .done (groupSum (groups ++ [last])) rest := by
  rw [← packed_eq_groupSum]
  rcases hwidth with hshort | ⟨hnine, hlast⟩
  · exact Leb128.read_terminated fullGroups groups last rest hshort hmore hends
  · have hread := Leb128.read_last groups last rest hmore
    rw [if_pos hlast, hnine] at hread
    exact hread

/-- There is one answer to what there is to read. -/
theorem exists_varintAt (buf : List UInt8) (pos : ℕ) : ∃ result, VarintAt buf pos result := by
  have hdone {groups rest : List UInt8} {last : UInt8}
      (hsplit : buf.drop pos = groups ++ last :: rest) (hmore : ∀ b ∈ groups, 128 ≤ b.toNat)
      (hends : last.toNat < 128)
      (hwidth : groups.length < 9 ∨ groups.length = 9 ∧ last.toNat ≤ 1) :
      ∃ result, VarintAt buf pos result := by
    have hlt := Leb128.read_value_lt (read_groups hmore hends hwidth rest)
    exact ⟨_, .done hsplit hmore hends hwidth (UInt64.toNat_ofNat_of_lt' hlt)⟩
  rcases terminated_or_continues 9 (buf.drop pos) with ⟨groups, last, rest, hsplit, hlen, hmore, hends⟩ | hall
  · exact hdone hsplit hmore hends (.inl hlen)
  · rcases htenth : (buf.drop pos).drop 9 with _ | ⟨tenth, rest⟩
    · have hlen : (buf.drop pos).length ≤ 9 := List.drop_eq_nil_iff.mp htenth
      rw [List.take_of_length_le hlen] at hall
      exact ⟨_, .cut hlen hall⟩
    · have hsplit : buf.drop pos = (buf.drop pos).take 9 ++ tenth :: rest := by
        rw [← htenth, List.take_append_drop]
      have hnine : ((buf.drop pos).take 9).length = 9 := by
        have hlen := congrArg List.length htenth
        rw [List.length_drop, List.length_cons] at hlen
        rw [List.length_take]
        omega
      by_cases hover : tenth.toNat ≤ 1
      · exact hdone hsplit hall (by omega) (.inr ⟨hnine, hover⟩)
      · exact ⟨_, .invalid hsplit hall hnine (Nat.lt_of_not_le hover)⟩

/-- The reader gives the answer. -/
theorem VarintAt.read {buf : List UInt8} {pos : ℕ} {result : Except Error (Option (Unsigned × ℕ))}
    (h : VarintAt buf pos result) : readVarint buf pos = result := by
  rw [readVarint_eq]
  cases h with
  | @done groups rest last value split more ends width sum =>
    have hlen := congrArg List.length split
    rw [List.length_drop, List.length_append, List.length_cons] at hlen
    rw [split, read_groups more ends width, ← sum]
    simp only [UInt64.ofNat_toNat, Except.ok.injEq, Option.some.injEq, Prod.mk.injEq, true_and]
    omega
  | @invalid groups rest tenth split more nine large =>
    have hread := Leb128.read_last groups tenth rest more
    rw [if_neg (Nat.not_le.mpr large), nine] at hread
    rw [split, fullGroups, hread]
  | cut short more =>
    have hread : Leb128.read fullGroups (buf.drop pos) = .short :=
      Leb128.read_short_iff.mpr ⟨short, more⟩
    rw [hread]

/-- The reader gives the answer that there is at a position, and no other. -/
theorem readVarint_iff (buf : List UInt8) (pos : ℕ) (result : Except Error (Option (Unsigned × ℕ))) :
    readVarint buf pos = result ↔ VarintAt buf pos result := by
  refine ⟨fun h => ?_, VarintAt.read⟩
  obtain ⟨answer, hanswer⟩ := exists_varintAt buf pos
  rwa [← h, hanswer.read]

/-- The one-byte path. -/
theorem readVarint_one {buf : List UInt8} {pos : ℕ} (hpos : pos < buf.length)
    (hone : buf[pos] < 0x80) : readVarint buf pos = .ok (some (buf[pos].toUInt64, pos + 1)) := by
  rw [readVarint, if_neg (Nat.not_le.mpr hpos)]
  simp only [List.getD_eq_getElem _ _ hpos, if_pos hone]

/-- The path through an eight-byte word and the two bytes behind it. -/
theorem readVarintWide_map {buf : List UInt8} {pos : ℕ} (hlen : pos + maxVarintLen ≤ buf.length) :
    (readVarintWide buf pos).map some = readVarint buf pos := by
  rw [readVarint_eq]
  exact readVarintWide_reads (by omega)

/-- The checked tail. -/
theorem readVarintTail_map {buf : List UInt8} {pos : ℕ} (hlen : buf.length < pos + maxVarintLen) :
    .ok ((readVarintTail buf pos).map fun (value, len) => (value, pos + len)) =
      readVarint buf pos := by
  rw [readVarint_eq]
  exact readVarintTail_reads (by change _ < 10; change _ < pos + 10 at hlen; omega)

/-- Every path of the reader gives the answer, whatever bytes follow the varint. -/
theorem readers_agree (buf : List UInt8) (pos : ℕ) :
    (∀ result, readVarint buf pos = result ↔ VarintAt buf pos result) ∧
    (∀ hpos : pos < buf.length, buf[pos] < 0x80 →
      readVarint buf pos = .ok (some (buf[pos].toUInt64, pos + 1))) ∧
    (pos + maxVarintLen ≤ buf.length →
      (readVarintWide buf pos).map some = readVarint buf pos ∧
      (readVarintReady buf pos).map some = readVarint buf pos) ∧
    (buf.length < pos + maxVarintLen →
      .ok ((readVarintTail buf pos).map fun (value, len) => (value, pos + len)) =
        readVarint buf pos) ∧
    ∀ value next, readVarint buf pos = .ok (some (value, next)) → ∀ rest,
      readVarint ((buf.drop pos).take (next - pos) ++ rest) 0 = .ok (some (value, next - pos)) := by
  refine ⟨readVarint_iff buf pos, readVarint_one, fun hlen => ?_, readVarintTail_map, ?_⟩
  · exact ⟨readVarintWide_map hlen, (readVarintReady_eq hlen).symm⟩
  · intro value next hread rest
    generalize hresult : Except.ok (some (value, next)) = result at hread
    cases (readVarint_iff buf pos result).mp hread with
    | @done groups tail last v split more ends width sum =>
      cases hresult
      have htake : (buf.drop pos).take (groups.length + 1) = groups ++ [last] := by
        rw [split, List.take_append]
        simp
      rw [Nat.add_sub_cancel_left, htake, List.append_assoc]
      have hanswer : VarintAt (groups ++ last :: rest) 0
          (.ok (some (value, 0 + (groups.length + 1)))) :=
        .done (List.drop_zero) more ends width sum
      rw [Nat.zero_add] at hanswer
      exact hanswer.read
    | invalid split more nine large => cases hresult
    | cut short more => cases hresult

/-- A string that is longer than it has to be reads to what it stands for. -/
example : readVarint [0x81, 0x80, 0x00] 0 = .ok (some (1, 3)) := by decide +kernel

/-! ## Writing -/

/-- What a kernel leaves at `dst`: its stores lie within ten bytes, and the first of these are
the shortest string for the value. Nothing else is changed. -/
structure KernelStores (buf : List UInt8) (dst : ℕ) (value : Unsigned)
    (stores : List (Store UInt8)) (result : List UInt8 × ℕ) : Prop where
  length : result.2 = varintLen value
  stored : result.1 = storeAll buf stores
  within : ∀ s ∈ stores, s.Within dst (dst + maxVarintLen)
  bytes : (result.1.drop dst).take result.2 = varintBytes value
  below : result.1.take dst = buf.take dst
  beyond : result.1.drop (dst + maxVarintLen) = buf.drop (dst + maxVarintLen)

/-- A kernel that makes stores within ten bytes and leaves the varint is as it should be. -/
theorem StoresVarint.kernelStores {buf : List UInt8} {dst : ℕ} {value : Unsigned}
    {stores : List (Store UInt8)} {result : List UInt8 × ℕ}
    (h : StoresVarint buf dst value result)
    (hresult : result = (storeAll buf stores, (varintBytes value).length))
    (hwithin : ∀ s ∈ stores, s.Within dst (dst + maxVarintLen)) (hdst : dst ≤ buf.length) :
    KernelStores buf dst value stores result where
  length := h.length.trans (varintLen_eq value).symm
  stored := by rw [hresult]
  within := hwithin
  bytes := by
    have hlen : (buf.take dst).length = dst := by rw [List.length_take, Nat.min_eq_left hdst]
    have hdrop := congrArg (List.drop dst) h.bytes
    rw [List.drop_take, Nat.add_sub_cancel_left] at hdrop
    rw [hdrop, List.drop_append_of_le_length hlen.ge, List.drop_eq_nil_of_le hlen.le,
      List.nil_append]
  below := by
    have htake := congrArg (List.take dst) h.bytes
    rwa [List.take_take, Nat.min_eq_left (Nat.le_add_right _ _),
      List.take_append_of_le_length (by rw [List.length_take, Nat.min_eq_left hdst]), List.take_take,
      Nat.min_self] at htake
  beyond := h.beyond

/-- The shortest string for a value, whatever follows it, reads to the value. -/
theorem readVarint_varintBytes (value : Unsigned) (rest : List UInt8) :
    readVarint (varintBytes value ++ rest) 0 = .ok (some (value, varintLen value)) := by
  have hread : Leb128.read fullGroups (varintBytes value ++ rest) = .done value.toNat rest :=
    Leb128.read_encode (value.toNat_lt.trans_le (by decide)) rest
  rw [readVarint_eq, List.drop_zero, hread, varintLen_eq]
  simp

/-- Nothing shorter reads to a value, and nothing else of that length. -/
theorem varintBytes_minimal {value : Unsigned} {z : List UInt8} {next : ℕ}
    (h : readVarint z 0 = .ok (some (value, next))) :
    varintLen value ≤ z.length ∧ (z.length = varintLen value → z = varintBytes value) := by
  rw [readVarint_eq, List.drop_zero] at h
  split at h
  · next v rest hread =>
    have hlt := Leb128.read_value_lt hread
    obtain ⟨hvalue, -⟩ := Prod.mk.inj (Option.some.inj (Except.ok.inj h))
    have hv : value.toNat = v := by
      rw [← hvalue]
      exact UInt64.toNat_ofNat_of_lt' hlt
    obtain ⟨w, rfl, -⟩ := Leb128.read_done hread
    obtain ⟨hle, hunique⟩ := Leb128.encode_minimal hread
    rw [varintLen_eq, varintBytes, hv, List.length_append]
    refine ⟨hle.trans (Nat.le_add_right _ _), fun hlen => ?_⟩
    have hrest : rest = [] := List.length_eq_zero_iff.mp (by omega)
    rw [hrest, List.append_nil]
    exact hunique (by omega)
  · cases h
  · cases h

/-- The kernels of the writer store the one shortest string that reads to the value, and ZigZag
codes and decodes exactly. -/
theorem kernels_exact (buf : List UInt8) (dst : ℕ) (value : Unsigned)
    (hroom : dst + maxVarintLen ≤ buf.length) :
    KernelStores buf dst value (varintStores dst value) (writeVarintUnchecked buf dst value) ∧
    KernelStores buf dst value (narrowStores dst value)
      (writeVarintUncheckedNarrow buf dst value) ∧
    (1 ≤ varintLen value ∧ varintLen value ≤ maxVarintLen) ∧
    writeVarintSplit value = pushBytes (varintBytes value) ∧
    (∀ rest, readVarint (varintBytes value ++ rest) 0 = .ok (some (value, varintLen value))) ∧
    (∀ z next, readVarint z 0 = .ok (some (value, next)) →
      varintLen value ≤ z.length ∧ (z.length = varintLen value → z = varintBytes value)) ∧
    (∀ v, zigzagDecode (zigzagEncode v) = v) ∧ ∀ u, zigzagEncode (zigzagDecode u) = u := by
  have hdst : dst ≤ buf.length := (Nat.le_add_right _ _).trans hroom
  have hpos := List.length_pos_of_ne_nil (varintBytes_ne_nil value)
  have hlen := varintBytes_length_le value
  refine ⟨?_, ?_, ?_, writeVarintSplit_eq_pushBytes value, readVarint_varintBytes value,
    fun _ _ => varintBytes_minimal, zigzagDecode_encode, zigzagEncode_decode⟩
  · exact (writeVarintUnchecked_stores buf dst value hroom).kernelStores
      (writeVarintUnchecked_eq buf dst value) (varintStores_within dst value) hdst
  · exact (writeVarintUncheckedNarrow_stores buf dst value hroom).kernelStores
      (writeVarintUncheckedNarrow_eq buf dst value) (narrowStores_within dst value) hdst
  · rw [varintLen_eq]
    exact ⟨hpos, hlen⟩

/-- The largest value takes all ten bytes of the room. -/
theorem kernels_exact_largest :
    0 + maxVarintLen ≤ (List.replicate 10 (0 : UInt8)).length ∧
      writeVarintUnchecked (List.replicate 10 0) 0 0xFFFFFFFFFFFFFFFF =
        ([0xFF, 0xFF, 0xFF, 0xFF, 0xFF, 0xFF, 0xFF, 0xFF, 0xFF, 0x01], 10) ∧
      KernelStores (List.replicate 10 0) 0 0xFFFFFFFFFFFFFFFF
        (varintStores 0 0xFFFFFFFFFFFFFFFF)
        (writeVarintUnchecked (List.replicate 10 0) 0 0xFFFFFFFFFFFFFFFF) :=
  ⟨by decide, by decide +kernel, (kernels_exact (List.replicate 10 0) 0 _ (by decide)).1⟩

end Sofab
