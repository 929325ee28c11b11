import Sofab.Lib.Digits
import Sofab.Lib.Splice
import Sofab.Types

/-!
# Base-128 varint and ZigZag codecs

The reader picks a path by how many bytes are readable: one byte, ten bytes through an
eight-byte word, or a checked byte loop. The writer computes the whole encoding in one
eight-byte word and stores it at once, leaving unspecified bytes past the varint.

A pointer into a slice is the slice together with a position.
-/

namespace Sofab

open Digits Splice

/-- Maximum number of bytes a varint can occupy. -/
def maxVarintLen : ℕ := 10

/-- Continuation-bit mask over eight packed bytes. -/
def msb : UInt64 := 0x8080808080808080

/-- Payload-bit mask over eight packed bytes. -/
def low7 : UInt64 := 0x7F7F7F7F7F7F7F7F

/-- Entry `n` of the table `CONT`: the continuation bits of an `n`-byte varint. -/
def cont (n : ℕ) : UInt64 :=
  if n = 0 then 0 else msb &&& ~~~(~~~(0 : UInt64) <<< UInt64.ofNat (8 * (n - 1)))

/-- Entry `n` of the table `KEEP7`: the payload bits of the first `n` bytes. -/
def keep7 (n : ℕ) : UInt64 :=
  if n = 0 then 0 else low7 &&& (~~~(0 : UInt64) >>> UInt64.ofNat (64 - 8 * n))

/-- `u64::trailing_zeros`. -/
def trailingZeros (x : UInt64) : ℕ :=
  ((List.range 64).find? fun j => x.toNat.testBit j).getD 64

/-- `u64::leading_zeros`. -/
def leadingZeros (x : UInt64) : ℕ :=
  if x = 0 then 64 else 63 - x.toNat.log2

/-- Compact eight 7-bit payload groups, one a byte, into the low 56 bits. -/
def compact7 (x : UInt64) : UInt64 :=
  let x := (x &&& (0x007F007F007F007F : UInt64)) ||| ((x &&& (0x7F007F007F007F00 : UInt64)) >>> 1)
  let x := (x &&& (0x00003FFF00003FFF : UInt64)) ||| ((x &&& (0x3FFF00003FFF0000 : UInt64)) >>> 2)
  (x &&& (0x000000000FFFFFFF : UInt64)) ||| ((x &&& (0x0FFFFFFF00000000 : UInt64)) >>> 4)

/-- Decode a varint knowing that ten bytes are readable at `start`. -/
def readVarintWide (buf : List UInt8) (start : ℕ) : Except Error (Unsigned × ℕ) :=
  let w := UInt64.ofNat (leNat ((buf.drop start).take 8))
  let terminators := ~~~w &&& msb
  if terminators ≠ 0 then
    let len := trailingZeros terminators / 8 + 1
    .ok (compact7 (w &&& keep7 len), start + len)
  else
    let value := compact7 (w &&& low7)
    let b8 := buf.getD (start + 8) 0
    let value := value ||| ((b8 &&& 0x7F).toUInt64 <<< 56)
    if b8 < 0x80 then
      .ok (value, start + 9)
    else
      -- only bit 63 is left, so anything but 0 or 1 is malformed
      let b9 := buf.getD (start + 9) 0
      if b9 > 1 then
        .error .invalidMsg
      else
        .ok (value ||| (b9.toUInt64 <<< 63), start + maxVarintLen)

/-- The loop of `readVarintTail` over the bytes left, with `len` bytes already read. -/
def readVarintTailLoop (value : Unsigned) (shift len : ℕ) : List UInt8 → Option (Unsigned × ℕ)
  | [] => none
  | byte :: rest =>
    let value := value ||| ((byte &&& 0x7F).toUInt64 <<< UInt64.ofNat shift)
    if byte &&& 0x80 = 0 then
      some (value, len + 1)
    else
      readVarintTailLoop value (shift + 7) (len + 1) rest

/-- Checked byte loop for the last nine bytes of a buffer: the value and its length. -/
def readVarintTail (buf : List UInt8) (start : ℕ) : Option (Unsigned × ℕ) :=
  readVarintTailLoop 0 0 0 (buf.drop start)

/-- Read one varint at `pos`: its value and the position past it, or `none` when the buffer
ends first. -/
def readVarint (buf : List UInt8) (pos : ℕ) : Except Error (Option (Unsigned × ℕ)) :=
  if buf.length ≤ pos then
    .ok none
  else
    let b0 := buf.getD pos 0
    if b0 < 0x80 then
      .ok (some (b0.toUInt64, pos + 1))
    else if maxVarintLen ≤ buf.length - pos then
      (readVarintWide buf pos).map some
    else
      match readVarintTail buf pos with
      | some (value, len) => .ok (some (value, pos + len))
      | none => .ok none

/-- `readVarint` for a cursor known to have ten readable bytes ahead of it. -/
def readVarintReady (buf : List UInt8) (pos : ℕ) : Except Error (Unsigned × ℕ) :=
  let b0 := buf.getD pos 0
  if b0 < 0x80 then
    .ok (b0.toUInt64, pos + 1)
  else
    readVarintWide buf pos

/-- Spread the low 56 bits into eight 7-bit groups, one a byte. -/
def spread7 (x : UInt64) : UInt64 :=
  let x := (x &&& (0x000000000FFFFFFF : UInt64)) ||| ((x &&& (0x00FFFFFFF0000000 : UInt64)) <<< 4)
  let x := (x &&& (0x00003FFF00003FFF : UInt64)) ||| ((x &&& (0x0FFFC0000FFFC000 : UInt64)) <<< 2)
  (x &&& (0x007F007F007F007F : UInt64)) ||| ((x &&& (0x3F803F803F803F80 : UInt64)) <<< 1)

/-- Number of bytes `value` occupies as a varint. -/
def varintLen (value : Unsigned) : ℕ :=
  let bits := 64 - leadingZeros value
  (max bits 1 + 6) / 7

/-- Write `value` at `dst`: the stored buffer and the length of the varint. Eight bytes are
stored whatever the length. -/
def writeVarintUnchecked (buf : List UInt8) (dst : ℕ) (value : Unsigned) : List UInt8 × ℕ :=
  let spread := spread7 value
  if value >>> 56 = 0 then
    let n := varintLen value
    (overwrite buf dst (leBytes 8 (spread ||| cont n).toNat), n)
  else
    let buf := overwrite buf dst (leBytes 8 (spread ||| msb).toNat)
    let hi := (value >>> 56).toUInt8
    if value >>> 63 = 0 then
      (overwrite buf (dst + 8) [hi], 9)
    else
      (overwrite (overwrite buf (dst + 8) [hi ||| 0x80]) (dst + 9) [1], maxVarintLen)

/-- `writeVarintUnchecked` with a one-byte test for values that are usually small. -/
def writeVarintUncheckedNarrow (buf : List UInt8) (dst : ℕ) (value : Unsigned) :
    List UInt8 × ℕ :=
  if value < 0x80 then
    (overwrite buf dst [value.toUInt8], 1)
  else
    writeVarintUnchecked buf dst value

/-- ZigZag encode a signed value. -/
def zigzagEncode (v : Signed) : Unsigned :=
  ((v <<< 1) ^^^ (v >>> 63)).toUInt64

/-- ZigZag decode an unsigned value. -/
def zigzagDecode (u : Unsigned) : Signed :=
  (u >>> 1).toInt64 ^^^ -(u &&& 1).toInt64

end Sofab
