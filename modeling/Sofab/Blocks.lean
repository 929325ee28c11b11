import Sofab.Emission
import Sofab.VarintWrite

/-!
# Blocks of raw stores

Under a capacity check the encoder stores a whole block: varints through either kernel, and
bytes as they are, each behind the one before. A kernel stores up to ten bytes whatever the
length of its varint, and the next store of the block covers what is too much. The room that
is set aside for a block holds all of its stores.
-/

namespace Sofab

open Digits Splice OStream

/-- The stores of `writeVarintUnchecked`. -/
def varintStores (dst : ℕ) (value : Unsigned) : List (Store UInt8) :=
  let spread := spread7 value
  if value >>> 56 = 0 then
    [⟨dst, leBytes 8 (spread ||| cont (varintLen value)).toNat⟩]
  else
    let hi := (value >>> 56).toUInt8
    if value >>> 63 = 0 then
      [⟨dst, leBytes 8 (spread ||| msb).toNat⟩, ⟨dst + 8, [hi]⟩]
    else
      [⟨dst, leBytes 8 (spread ||| msb).toNat⟩, ⟨dst + 8, [hi ||| 0x80]⟩, ⟨dst + 9, [1]⟩]

/-- The stores of `writeVarintUncheckedNarrow`. -/
def narrowStores (dst : ℕ) (value : Unsigned) : List (Store UInt8) :=
  if value < 0x80 then [⟨dst, [value.toUInt8]⟩] else varintStores dst value

/-- The wide kernel makes its stores and returns the length of the varint. -/
theorem writeVarintUnchecked_eq (buf : List UInt8) (dst : ℕ) (value : Unsigned) :
    writeVarintUnchecked buf dst value =
      (storeAll buf (varintStores dst value), (varintBytes value).length) := by
  have h56 : value >>> 56 = 0 ↔ value.toNat < 2 ^ 56 := shiftRight_eq_zero_iff value (by decide)
  have h63 : value >>> 63 = 0 ↔ value.toNat < 2 ^ 63 := shiftRight_eq_zero_iff value (by decide)
  rw [writeVarintUnchecked, varintStores]
  by_cases hnarrow : value >>> 56 = 0
  · rw [if_pos hnarrow, if_pos hnarrow, varintLen_eq]
    rfl
  · have hlen := varintBytes_length_of_le (Nat.le_of_not_lt (mt h56.mpr hnarrow))
    rw [if_neg hnarrow, if_neg hnarrow, hlen]
    by_cases hnine : value >>> 63 = 0
    · rw [if_pos hnine, if_pos hnine, if_pos (h63.mp hnine)]
      rfl
    · rw [if_neg hnine, if_neg hnine, if_neg (mt h63.mpr hnine)]
      rfl

/-- The narrow kernel makes its stores and returns the length of the varint. -/
theorem writeVarintUncheckedNarrow_eq (buf : List UInt8) (dst : ℕ) (value : Unsigned) :
    writeVarintUncheckedNarrow buf dst value =
      (storeAll buf (narrowStores dst value), (varintBytes value).length) := by
  rw [writeVarintUncheckedNarrow, narrowStores]
  split
  · next hsmall =>
    rw [varintBytes, Leb128.encode_of_lt (UInt64.lt_iff_toNat_lt.mp hsmall)]
    rfl
  · exact writeVarintUnchecked_eq buf dst value

/-- A kernel stores within ten bytes. -/
theorem varintStores_within (dst : ℕ) (value : Unsigned) :
    ∀ s ∈ varintStores dst value, s.Within dst (dst + maxVarintLen) := by
  have hmax : maxVarintLen = 10 := rfl
  rw [varintStores]
  split
  · simp [Store.Within, hmax]
  · split <;> simp [Store.Within, hmax]

/-- The narrow kernel too stores within ten bytes. -/
theorem narrowStores_within (dst : ℕ) (value : Unsigned) :
    ∀ s ∈ narrowStores dst value, s.Within dst (dst + maxVarintLen) := by
  rw [narrowStores]
  split
  · simp [Store.Within, maxVarintLen]
  · exact varintStores_within dst value

/-- What is stored behind one another in a block: a varint through the wide kernel or through
the narrow one, or bytes as they are. -/
inductive Part
  | wide (value : Unsigned)
  | narrow (value : Unsigned)
  | raw (data : List UInt8)

namespace Part

/-- The bytes that count. -/
def bytes : Part → List UInt8
  | wide value => varintBytes value
  | narrow value => varintBytes value
  | raw data => data

/-- The room set aside. -/
def reserve : Part → ℕ
  | wide _ => maxVarintLen
  | narrow _ => maxVarintLen
  | raw data => data.length

/-- The stores made. -/
def stores (dst : ℕ) : Part → List (Store UInt8)
  | wide value => varintStores dst value
  | narrow value => narrowStores dst value
  | raw data => [⟨dst, data⟩]

/-- A part has no more bytes that count than room set aside. -/
theorem bytes_length_le (part : Part) : part.bytes.length ≤ part.reserve := by
  cases part with
  | wide value => exact varintBytes_length_le value
  | narrow value => exact varintBytes_length_le value
  | raw data => exact Nat.le_refl _

/-- A part stores within the room set aside for it. -/
theorem stores_within (dst : ℕ) (part : Part) :
    ∀ s ∈ part.stores dst, s.Within dst (dst + part.reserve) := by
  cases part with
  | wide value => exact varintStores_within dst value
  | narrow value => exact narrowStores_within dst value
  | raw data => simp [stores, reserve, Store.Within]

/-- In the room set aside the stores leave the bytes that count. -/
theorem stored {buf : List UInt8} {dst : ℕ} (part : Part)
    (hroom : dst + part.reserve ≤ buf.length) :
    Stored buf dst part.bytes (storeAll buf (part.stores dst)) := by
  cases part with
  | wide value =>
    have h := writeVarintUnchecked_stores buf dst value hroom
    rw [writeVarintUnchecked_eq] at h
    exact ⟨h.size, h.bytes⟩
  | narrow value =>
    have h := writeVarintUncheckedNarrow_stores buf dst value hroom
    rw [writeVarintUncheckedNarrow_eq] at h
    exact ⟨h.size, h.bytes⟩
  | raw data => exact stored_overwrite buf data hroom

end Part

/-- The bytes of a block that count. -/
def blockBytes (block : List Part) : List UInt8 := block.flatMap Part.bytes

/-- The room set aside for a block. -/
def blockReserve (block : List Part) : ℕ := (block.map Part.reserve).sum

/-- The stores of a block. -/
def blockStores (dst : ℕ) : List Part → List (Store UInt8)
  | [] => []
  | part :: block => part.stores dst ++ blockStores (dst + part.bytes.length) block

/-- The bytes of a block are those of its first part and of the rest. -/
theorem blockBytes_cons (part : Part) (block : List Part) :
    blockBytes (part :: block) = part.bytes ++ blockBytes block := List.flatMap_cons

/-- The room for a block is that for its first part and for the rest. -/
theorem blockReserve_cons (part : Part) (block : List Part) :
    blockReserve (part :: block) = part.reserve + blockReserve block := by
  rw [blockReserve, List.map_cons, List.sum_cons, blockReserve]

/-- Store a block at the cursor and move it past the bytes that count. -/
def OStream.perform (os : OStream) (block : List Part) : OStream :=
  { os with
    buffer := storeAll os.buffer (blockStores os.offset block)
    offset := os.offset + (blockBytes block).length }

/-- A block has no more bytes that count than room set aside. -/
theorem blockBytes_length_le (block : List Part) :
    (blockBytes block).length ≤ blockReserve block := by
  induction block with
  | nil => exact Nat.le_refl _
  | cons part block ih =>
    rw [blockBytes_cons, List.length_append, blockReserve_cons]
    exact Nat.add_le_add part.bytes_length_le ih

/-- All stores of a block fall into the room set aside for it. -/
theorem blockStores_within (dst : ℕ) (block : List Part) :
    ∀ s ∈ blockStores dst block, s.Within dst (dst + blockReserve block) := by
  induction block generalizing dst with
  | nil => simp [blockStores]
  | cons part block ih =>
    intro s hs
    have hlen := part.bytes_length_le
    rw [blockReserve_cons]
    rcases List.mem_append.mp hs with hs | hs
    · exact (part.stores_within dst s hs).mono (Nat.le_refl _) (by omega)
    · exact (ih _ s hs).mono (by omega) (by omega)

/-- With its room a block leaves its bytes at the cursor, later parts covering what earlier ones
stored past theirs. -/
theorem block_stored {buf : List UInt8} {dst : ℕ} (block : List Part)
    (hroom : dst + blockReserve block ≤ buf.length) :
    Stored buf dst (blockBytes block) (storeAll buf (blockStores dst block)) := by
  induction block generalizing buf dst with
  | nil => exact stored_nil buf dst
  | cons part block ih =>
    rw [blockReserve_cons] at hroom
    have hlen := part.bytes_length_le
    have hfirst : Stored buf dst part.bytes (storeAll buf (part.stores dst)) :=
      part.stored (by omega)
    have hrest : dst + part.bytes.length + blockReserve block ≤
        (storeAll buf (part.stores dst)).length := by
      rw [hfirst.size]
      omega
    rw [blockStores, storeAll_append, blockBytes_cons]
    exact hfirst.trans (ih hrest)

/-- A block in the room left takes the message on by the bytes that count. -/
theorem reached_perform {os : OStream} (hsound : Sound os) (block : List Part)
    (hroom : os.offset + blockReserve block ≤ os.end_) :
    Reached os (os.perform block) (blockBytes block) :=
  reached_store hsound ((Nat.add_le_add_left (blockBytes_length_le block) _).trans hroom)
    (block_stored block (hsound.end_eq ▸ hroom))

end Sofab
