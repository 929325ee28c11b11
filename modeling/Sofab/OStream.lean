import Sofab.Lib.Steps
import Sofab.PendingRun
import Sofab.Varint

/-!
# Streaming output stream encoder

`OStream` writes fields into a caller-owned buffer and hands the buffer to an optional sink
when it fills. A sink copies or takes the buffer, and answers with the buffer to go on in;
it may also unwind instead, and its caller may catch that and go on.

Stores through a pointer into the buffer are not checked against its length: what would
land outside the buffer is lost here. A check of the source that panics unwinds.
-/

namespace Sofab

open Steps Step

/-- A buffer as it was installed, with the offset to start at. -/
structure Installation where
  buffer : List UInt8
  offset : ℕ
  deriving DecidableEq, Repr

/-- A buffer handed to a sink with its first `used` bytes to consume, and what it was when it
was installed. -/
structure Handover where
  installed : Installation
  buffer : List UInt8
  used : ℕ
  deriving DecidableEq, Repr

/-- A sink: how it answers a handover, given all handovers so far with this one last, and the
handovers so far. It answers with the buffer and the offset to go on at, or unwinds. -/
structure Sink where
  answer : List Handover → Option (List UInt8 × ℕ)
  handed : List Handover

/-- Hand a buffer to the sink. -/
def Sink.flushTake (sink : Sink) (handover : Handover) : Sink × Option (List UInt8 × ℕ) :=
  let handed := sink.handed ++ [handover]
  (⟨sink.answer, handed⟩, sink.answer handed)

/-- A copying sink hands the buffer straight back. -/
def Sink.copying : Sink where
  answer handed := handed.getLast?.map fun handover => (handover.buffer, 0)
  handed := []

/-- Whether the start offset names a position in the buffer. -/
def checkOffsetInRange (len offset : ℕ) : Except Error Unit :=
  if offset ≤ len then .ok () else .error .argument

/-- Whether a buffer may be installed with a sink. -/
def checkStreamingCapacity (len offset : ℕ) : Except Error Unit :=
  if offset ≤ len ∧ minOutputBuffer ≤ len - offset then .ok () else .error .argument

/-- A buffer with room past the offset passes the check. -/
theorem checkStreamingCapacity_of_lt {len offset : ℕ} (h : offset < len) :
    checkStreamingCapacity len offset = .ok () :=
  if_pos ⟨h.le, Nat.le_sub_of_add_le (by rw [Nat.add_comm]; exact h)⟩

/-- A buffer without room past the offset is refused. -/
theorem checkStreamingCapacity_of_not_lt {len offset : ℕ} (h : ¬offset < len) :
    checkStreamingCapacity len offset = .error .argument := by
  refine if_neg fun hroom => h ?_
  have hmin : 1 ≤ len - offset := hroom.2
  omega

/-- Streaming encoder. The field `installed` is not one of the source and nothing reads it: it
records the active buffer as it was installed. -/
structure OStream where
  buffer : List UInt8
  end_ : ℕ
  offset : ℕ
  depth : ℕ
  pending : PendingRun
  flush_ : Option Sink
  dead : Bool
  installed : Installation

/-- Steps of the encoder. -/
abbrev EncodeM := Step OStream Error

/-- Unsigned integer element that can be widened to the wire value type. -/
class UnsignedElem (α : Type) where
  widen : α → Unsigned

/-- Signed integer element that can be widened to the wire value type. -/
class SignedElem (α : Type) where
  widen : α → Signed

instance : UnsignedElem UInt8 := ⟨UInt8.toUInt64⟩
instance : UnsignedElem UInt16 := ⟨UInt16.toUInt64⟩
instance : UnsignedElem UInt32 := ⟨UInt32.toUInt64⟩
instance : UnsignedElem UInt64 := ⟨id⟩
instance : SignedElem Int8 := ⟨Int8.toInt64⟩
instance : SignedElem Int16 := ⟨Int16.toInt64⟩
instance : SignedElem Int32 := ⟨Int32.toInt64⟩
instance : SignedElem Int64 := ⟨id⟩

/-- Byte order of the host. -/
inductive Endian
  | little
  | big
  deriving DecidableEq, Repr

namespace OStream

/-- Make a buffer the active one. -/
def install (os : OStream) (buffer : List UInt8) (offset : ℕ) : OStream :=
  { os with buffer := buffer, end_ := buffer.length, offset := offset, installed := ⟨buffer, offset⟩ }

/-- A stream over `buffer`. -/
def ofBuffer (buffer : List UInt8) (offset : ℕ) (sink : Option Sink) : OStream where
  buffer := buffer
  end_ := buffer.length
  offset := offset
  depth := 0
  pending := .new
  flush_ := sink
  dead := false
  installed := ⟨buffer, offset⟩

/-- An encoder without a sink. -/
def new (buffer : List UInt8) : OStream := ofBuffer buffer 0 none

/-- An encoder without a sink that begins at `offset`. -/
def withOffset (buffer : List UInt8) (offset : ℕ) : Except Error OStream := do
  checkOffsetInRange buffer.length offset
  return ofBuffer buffer offset none

/-- An encoder with a sink that begins at `offset`. -/
def withFlush (buffer : List UInt8) (offset : ℕ) (sink : Sink) : Except Error OStream := do
  checkStreamingCapacity buffer.length offset
  return ofBuffer buffer offset (some sink)

/-- Number of bytes in the active buffer since the last flush. -/
def bytesUsed (os : OStream) : ℕ := os.offset

/-- Hand the active buffer to the sink and adopt whatever it leaves behind. -/
def handOver : EncodeM Unit := fun os =>
  let used := os.offset
  let buffer := os.buffer
  let os := { os with buffer := [] }
  match os.flush_ with
  | none => (os, .unwound)
  | some sink =>
    let (sink, answer) := sink.flushTake ⟨os.installed, buffer, used⟩
    let os := { os with flush_ := some sink }
    match answer with
    | none => (os, .unwound)
    | some (buffer, offset) =>
      match checkStreamingCapacity buffer.length offset with
      | .error _ =>
        -- a refused buffer is dropped, and nothing stays active
        ({ os with end_ := 0, offset := 0, dead := true, installed := ⟨[], 0⟩ },
          .err .argument)
      | .ok _ => (os.install buffer offset, .ok ())

/-- An adopted buffer has room. -/
theorem handOver_room {os os' : OStream} (h : handOver os = (os', .ok ())) :
    os'.offset < os'.end_ := by
  rw [handOver] at h
  simp only at h
  split at h
  · cases h
  split at h
  · cases h
  · next buffer offset _ =>
    by_cases hroom : offset < buffer.length
    · rw [checkStreamingCapacity_of_lt hroom] at h
      cases h
      exact hroom
    · rw [checkStreamingCapacity_of_not_lt hroom] at h
      cases h

/-- Flush pending bytes to the sink, if there is one; how many bytes were pending. -/
def flush : EncodeM ℕ := do
  let os ← self
  if os.dead then
    fail .argument
  else if 0 < os.offset ∧ os.flush_.isSome then do
    handOver
    pure os.offset
  else
    pure os.offset

/-- Hand over what is written before another buffer takes its place. The only error there is
a refused replacement, and the buffer about to be installed supersedes it. -/
def drainForSet : EncodeM Unit := do
  if 0 < (← self).offset then do
    let _ ← attempt handOver
    update fun os => { os with dead := false }
  else
    pure ()

/-- Replace the active buffer. -/
def bufferSet (buffer : List UInt8) (offset : ℕ) : EncodeM Unit := do
  if (← self).dead then
    fail .argument
  else do
    ofExcept (checkOffsetInRange buffer.length offset)
    if (← self).flush_.isSome then do
      ofExcept (checkStreamingCapacity buffer.length offset)
      drainForSet
      update fun os => os.install buffer offset
    else
      update fun os => os.install buffer offset

/-- The buffer is full: flush it or report that. -/
def drainFull : EncodeM Unit := do
  if (← self).dead then
    fail .argument
  else if (← self).flush_.isNone then
    fail .bufferFull
  else
    handOver

/-- Drain the buffer first if it is full. -/
def makeRoom : EncodeM Unit := fun os => if os.end_ ≤ os.offset then drainFull os else (os, .ok ())

/-- Store bytes at the cursor and move it past them. -/
def put (os : OStream) (bytes : List UInt8) : OStream :=
  { os with
    buffer := Splice.overwrite os.buffer os.offset bytes
    offset := os.offset + bytes.length }

/-- Append a single byte. -/
def pushByte (b : UInt8) : EncodeM Unit := do
  makeRoom
  update fun os => os.put [b]

/-- After making room there is some. -/
theorem makeRoom_room {os os' : OStream} (h : makeRoom os = (os', .ok ())) :
    os'.offset < os'.end_ := by
  rw [makeRoom] at h
  split at h
  · rw [drainFull, self_bind] at h
    split at h
    · cases h
    rw [self_bind] at h
    split at h
    · cases h
    exact handOver_room h
  · next hroom =>
    cases h
    exact Nat.lt_of_not_le hroom

/-- Emit a payload longer than the room left in buffer-sized runs. -/
def pushRawSplit (data : List UInt8) : EncodeM Unit := fun os =>
  if data = [] then
    (os, .ok ())
  else
    match _h : makeRoom os with
    | (os, .ok _) =>
      let n := min (os.end_ - os.offset) data.length
      if os.offset + n ≤ os.buffer.length then
        pushRawSplit (data.drop n) (os.put (data.take n))
      else
        (os, .unwound)
    | (os, .err e) => (os, .err e)
    | (os, .unwound) => (os, .unwound)
termination_by data.length
decreasing_by
  have hroom := makeRoom_room _h
  have hpos : 0 < data.length := List.length_pos_iff.mpr ‹_›
  rw [List.length_drop]
  omega

/-- Copy bytes out, draining the buffer as needed. -/
def pushRaw (data : List UInt8) : EncodeM Unit := fun os =>
  if os.offset + data.length ≤ os.end_ then
    (os.put data, .ok ())
  else
    pushRawSplit data os

/-- Varint writer for the tail of the buffer. -/
def writeVarintSplit (value : Unsigned) : EncodeM Unit := do
  let b := value.toUInt8 &&& 0x7F
  let value' := value >>> 7
  if value' ≠ 0 then do
    pushByte (b ||| 0x80)
    writeVarintSplit value'
  else
    pushByte b
termination_by value.toNat
decreasing_by
  have hshift : (value >>> 7).toNat = value.toNat / 2 ^ 7 := by
    rw [UInt64.toNat_shiftRight, Nat.shiftRight_eq_div_pow]
    rfl
  have hne : (value >>> 7).toNat ≠ 0 := fun hzero => ‹value >>> 7 ≠ 0› (UInt64.toNat_inj.mp hzero)
  change (value >>> 7).toNat < value.toNat
  omega

/-- Encode a value as a varint. -/
def writeVarint (value : Unsigned) : EncodeM Unit := fun os =>
  if os.offset + maxVarintLen ≤ os.end_ then
    let (buffer, n) := writeVarintUncheckedNarrow os.buffer os.offset value
    ({ os with buffer := buffer, offset := os.offset + n }, .ok ())
  else
    writeVarintSplit value os

/-- Write the sequence-end marker. -/
def writeSequenceEndMarker : EncodeM Unit := writeVarint tSequenceEnd.toUInt64

/-- The loop of `commitPending` from the `i`th of the headers on, `left` of them: how many
reached the buffer, and the result. -/
def commitLoop (i : ℕ) : ℕ → EncodeM (ℕ × Except Error Unit)
  | 0 => pure (i, .ok ())
  | left + 1 => do
    let tag := ((← self).pending.get i).toUInt64 <<< 3 ||| tSequenceStart.toUInt64
    match ← attempt (writeVarint tag) with
    | .error e => pure (i, .error e)
    | .ok _ => commitLoop (i + 1) left

/-- Write out the held-back sequence headers, outermost first. -/
def commitPending : EncodeM Unit := do
  let (written, result) ← commitLoop 0 (← self).pending.len
  update fun os => { os with pending := os.pending.dropFront written }
  ofExcept result

/-- Commit the held-back headers before content. -/
def commitHeld : EncodeM Unit := fun os =>
  if os.pending.isEmpty then (os, .ok ()) else commitPending os

/-- A field header: the id and the wire type. -/
def fieldHeader (id : Id) (wireType : UInt8) : Unsigned := id.toUInt64 <<< 3 ||| wireType.toUInt64

/-- The header and the value of a scalar field under a single capacity check. -/
def writeHeaderValue (header value : Unsigned) : EncodeM Unit := fun os =>
  if os.offset + 2 * maxVarintLen ≤ os.end_ then
    let (buffer, n) := writeVarintUncheckedNarrow os.buffer os.offset header
    let off := os.offset + n
    let (buffer, n) := writeVarintUnchecked buffer off value
    ({ os with buffer := buffer, offset := off + n }, .ok ())
  else
    (do
      writeVarintSplit header
      writeVarintSplit value) os

/-- Write a field header followed by one varint. -/
def writeFieldVarint (id : Id) (wireType : UInt8) (value : Unsigned) : EncodeM Unit :=
  if idMax < id.toNat then
    fail .argument
  else do
    commitHeld
    writeHeaderValue (fieldHeader id wireType) value

/-- Write an unsigned-integer field. -/
def writeUnsigned (id : Id) (value : Unsigned) : EncodeM Unit :=
  writeFieldVarint id tVarintUnsigned value

/-- Write a signed-integer field. -/
def writeSigned (id : Id) (value : Signed) : EncodeM Unit :=
  writeFieldVarint id tVarintSigned (zigzagEncode value)

/-- Write a boolean as an unsigned 0 or 1. -/
def writeBoolean (id : Id) (value : Bool) : EncodeM Unit := writeUnsigned id value.toUInt64

/-- The header and the word of a fixlen field whose payload does not fit with them. -/
def writeHeaderWord (header word : Unsigned) : EncodeM Unit := fun os =>
  if 2 * maxVarintLen ≤ os.end_ - os.offset then
    let (buffer, n) := writeVarintUncheckedNarrow os.buffer os.offset header
    let off := os.offset + n
    let (buffer, n) := writeVarintUncheckedNarrow buffer off word
    ({ os with buffer := buffer, offset := off + n }, .ok ())
  else
    (do
      writeVarintSplit header
      writeVarintSplit word) os

/-- A fixlen field that does not fit in the room left. -/
def writeFixlenSplit (header word : Unsigned) (data : List UInt8) : EncodeM Unit := do
  writeHeaderWord header word
  pushRaw data

/-- Header, word and payload of a fixlen field under a single capacity check. -/
def writeHeaderWordData (header word : Unsigned) (data : List UInt8) : EncodeM Unit := fun os =>
  if 2 * maxVarintLen + data.length ≤ os.end_ - os.offset then
    let (buffer, n) := writeVarintUncheckedNarrow os.buffer os.offset header
    let off := os.offset + n
    let (buffer, n) := writeVarintUncheckedNarrow buffer off word
    let off := off + n
    let buffer := Splice.overwrite buffer off data
    ({ os with buffer := buffer, offset := off + data.length }, .ok ())
  else
    writeFixlenSplit header word data os

/-- The word of a fixlen field: its length and its subtype. -/
def fixlenWord (len : ℕ) (subtype : FixlenType) : Unsigned :=
  UInt64.ofNat len <<< 3 ||| subtype.tag.toUInt64

/-- `writeFixlen` without the check that subtype and payload agree. -/
def writeFixlenUnchecked (id : Id) (data : List UInt8) (subtype : FixlenType) : EncodeM Unit :=
  if fixlenMax < data.length then
    fail .argument
  else if idMax < id.toNat then
    fail .argument
  else do
    commitHeld
    writeHeaderWordData (fieldHeader id tFixlen) (fixlenWord data.length subtype) data

/-- `core::str::from_utf8` accepts the bytes. -/
def isUtf8 (data : List UInt8) : Bool := (ByteArray.mk data.toArray).validateUTF8

/-- Write a fixed-length field whose payload is checked against its subtype. -/
def writeFixlen (id : Id) (data : List UInt8) (subtype : FixlenType) : EncodeM Unit :=
  match subtype with
  | .fp32 => if data.length ≠ 4 then fail .argument else writeFixlenUnchecked id data .fp32
  | .fp64 => if data.length ≠ 8 then fail .argument else writeFixlenUnchecked id data .fp64
  | .str => if isUtf8 data then writeFixlenUnchecked id data .str else fail .argument
  | .blob => writeFixlenUnchecked id data .blob

/-- `f32::to_le_bytes`. -/
def f32LeBytes (value : F32) : List UInt8 := Digits.leBytes 4 value.toNat

/-- `f64::to_le_bytes`. -/
def f64LeBytes (value : F64) : List UInt8 := Digits.leBytes 8 value.toNat

/-- Write a 32-bit float field. -/
def writeFp32 (id : Id) (value : F32) : EncodeM Unit :=
  writeFixlenUnchecked id (f32LeBytes value) .fp32

/-- Write a 64-bit float field. -/
def writeFp64 (id : Id) (value : F64) : EncodeM Unit :=
  writeFixlenUnchecked id (f64LeBytes value) .fp64

/-- Write a string field. -/
def writeStr (id : Id) (text : String) : EncodeM Unit :=
  writeFixlenUnchecked id text.toUTF8.data.toList .str

/-- Write a binary blob field. -/
def writeBlob (id : Id) (data : List UInt8) : EncodeM Unit := writeFixlenUnchecked id data .blob

/-- Store varints one after the other: the stored buffer and the position past them. -/
def storeRun (buffer : List UInt8) (off : ℕ) : List Unsigned → List UInt8 × ℕ
  | [] => (buffer, off)
  | value :: values =>
    let (buffer, n) := writeVarintUnchecked buffer off value
    storeRun buffer (off + n) values

section Run

variable {α : Type}

/-- Varints that do not fit in what is left of the buffer, in runs sized to the room. -/
def writeVarintRunChunked (toWire : α → Unsigned) (data : List α) : EncodeM Unit := fun os =>
  match _h : data with
  | [] => (os, .ok ())
  | e :: rest =>
    let room := (os.end_ - os.offset) / maxVarintLen
    if room = 0 then
      (do
        writeVarintSplit (toWire e)
        writeVarintRunChunked toWire rest) os
    else
      let run := min room data.length
      let (buffer, off) := storeRun os.buffer os.offset ((data.take run).map toWire)
      writeVarintRunChunked toWire (data.drop run) { os with buffer := buffer, offset := off }
termination_by data.length
decreasing_by
  · rw [List.length_cons]
    exact Nat.lt_succ_self _
  · rw [List.length_drop]
    have hlen : 0 < data.length := by
      rw [_h]
      exact Nat.succ_pos _
    rw [← _h]
    exact Nat.sub_lt hlen (lt_min (Nat.pos_of_ne_zero ‹_›) hlen)

/-- Write one varint for each element, in runs sized to the room left in the buffer. -/
def writeVarintRun (data : List α) (toWire : α → Unsigned) : EncodeM Unit := fun os =>
  if data.length * maxVarintLen ≤ os.end_ - os.offset then
    let (buffer, off) := storeRun os.buffer os.offset (data.map toWire)
    ({ os with buffer := buffer, offset := off }, .ok ())
  else
    writeVarintRunChunked toWire data os

/-- The loop of `writeFixlenRun` on a host that has to swap bytes. -/
def pushEach (toLe : α → List UInt8) : List α → EncodeM Unit
  | [] => pure ()
  | e :: rest => do
    pushRaw (toLe e)
    pushEach toLe rest

/-- Write the payload of a float array. On a little-endian host it is the memory of the slice. -/
def writeFixlenRun (host : Endian) (data : List α) (toLe : α → List UInt8) : EncodeM Unit :=
  match host with
  | .little => pushRaw (data.flatMap toLe)
  | .big => pushEach toLe data

end Run

/-- Write an array of unsigned integers. -/
def writeArrayUnsigned {α : Type} [UnsignedElem α] (id : Id) (data : List α) : EncodeM Unit :=
  if arrayMax < data.length then
    fail .argument
  else do
    writeFieldVarint id tVarintArrayUnsigned (UInt64.ofNat data.length)
    writeVarintRun data UnsignedElem.widen

/-- Write an array of signed integers. -/
def writeArraySigned {α : Type} [SignedElem α] (id : Id) (data : List α) : EncodeM Unit :=
  if arrayMax < data.length then
    fail .argument
  else do
    writeFieldVarint id tVarintArraySigned (UInt64.ofNat data.length)
    writeVarintRun data fun e => zigzagEncode (SignedElem.widen e)

/-- Write an array of 32-bit floats. -/
def writeArrayFp32 (host : Endian) (id : Id) (data : List F32) : EncodeM Unit :=
  if arrayMax < data.length then
    fail .argument
  else do
    writeFieldVarint id tFixlenArray (UInt64.ofNat data.length)
    writeVarint (fixlenWord 4 .fp32)
    writeFixlenRun host data f32LeBytes

/-- Write an array of 64-bit floats. -/
def writeArrayFp64 (host : Endian) (id : Id) (data : List F64) : EncodeM Unit :=
  if arrayMax < data.length then
    fail .argument
  else do
    writeFieldVarint id tFixlenArray (UInt64.ofNat data.length)
    writeVarint (fixlenWord 8 .fp64)
    writeFixlenRun host data f64LeBytes

/-- Open a nested sequence whose header is held back until the sequence has content. -/
def writeSequenceBeginLazy (id : Id) : EncodeM Unit := do
  if maxDepth ≤ (← self).depth then
    fail .argument
  else if idMax < id.toNat then
    fail .argument
  else
    update fun os => { os with pending := os.pending.push id, depth := os.depth + 1 }

/-- Close the innermost sequence, which vanishes if it has no content. -/
def writeSequenceEnd : EncodeM Unit := do
  if (← self).depth = 0 then
    fail .argument
  else
    let (pending, popped) := (← self).pending.pop
    if popped.isSome then
      update fun os => { os with pending := pending, depth := os.depth - 1 }
    else do
      writeSequenceEndMarker
      update fun os => { os with depth := os.depth - 1 }

/-- Close the innermost sequence and keep its frame even without content. -/
def writeSequenceEndKeep : EncodeM Unit := do
  if (← self).depth = 0 then
    fail .argument
  else do
    commitHeld
    writeSequenceEndMarker
    update fun os => { os with depth := os.depth - 1 }

end OStream

end Sofab
