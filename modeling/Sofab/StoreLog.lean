import Sofab.Calls

/-!
# The encoder with its stores written down

The encoder stores through pointers behind its capacity checks, and a store that misses the buffer
would go unnoticed. Here every store is written down as it is made, with the bounds it has to keep
to: the offset the call began at, or the one of the buffer installed since, and the end. Everything
else is as in `OStream`.
-/

namespace Sofab

open Steps Step Splice Digits

/-- A store into the active buffer, with the first index it may touch, the end, and the size of
the buffer when it is made. -/
structure StoreRecord where
  store : Store UInt8
  floor : ℕ
  end_ : ℕ
  size : ℕ

/-- The store falls between the bounds, and the end is not past the buffer. -/
def StoreRecord.InBounds (r : StoreRecord) : Prop := r.store.Within r.floor r.end_ ∧ r.end_ ≤ r.size

instance (r : StoreRecord) : Decidable r.InBounds := inferInstanceAs (Decidable ((_ ∧ _) ∧ _))

/-- A stream with the first index that may be stored at and the stores made so far. -/
structure Logging where
  stream : OStream
  floor : ℕ
  log : List StoreRecord

/-- A stream at the start of a call. -/
def OStream.entering (os : OStream) : Logging := ⟨os, os.offset, []⟩

/-- Steps of the encoder that write down their stores. -/
abbrev LogM := Step Logging Error

variable {α : Type}

namespace LogM

/-- A step that stores nothing. -/
def quiet (m : EncodeM α) : LogM α := fun s => ({ s with stream := (m s.stream).1 }, (m s.stream).2)

/-- A step that stores nothing ends as it does, and logs nothing. -/
theorem quiet_eq {m : EncodeM α} {s : Logging} {os : OStream} {exit : Exit Error α}
    (h : m s.stream = (os, exit)) : quiet m s = ({ s with stream := os }, exit) := by
  rw [quiet, h]

/-- The log entry of a store made now. -/
def entry (s : Logging) (store : Store UInt8) : StoreRecord :=
  ⟨store, s.floor, s.stream.end_, s.stream.buffer.length⟩

/-- Store bytes at an index of the active buffer. -/
def store (pos : ℕ) (run : List UInt8) : LogM Unit := update fun s =>
  { s with
    stream := { s.stream with buffer := overwrite s.stream.buffer pos run }
    log := s.log ++ [entry s ⟨pos, run⟩] }

/-- Move the cursor. -/
def seek (offset : ℕ) : LogM Unit := update fun s =>
  { s with stream := { s.stream with offset := offset } }

end LogM

open LogM

namespace Logged

/-! ## Bytes and payloads -/

/-- `drainFull`; from here on the first index is the offset of the buffer that was installed. -/
def drainFull : LogM Unit := do
  quiet OStream.drainFull
  update fun s => { s with floor := s.stream.offset }

/-- `makeRoom`. -/
def makeRoom : LogM Unit := fun s =>
  if s.stream.end_ ≤ s.stream.offset then drainFull s else (s, .ok ())

/-- Store bytes at the cursor and move it past them. -/
def put (bytes : List UInt8) : LogM Unit := do
  let offset := (← self).stream.offset
  store offset bytes
  seek (offset + bytes.length)

/-- `pushByte`. -/
def pushByte (b : UInt8) : LogM Unit := do
  makeRoom
  put [b]

/-- After making room there is some. -/
theorem makeRoom_room {s s' : Logging} (h : makeRoom s = (s', .ok ())) :
    s'.stream.offset < s'.stream.end_ := by
  rw [makeRoom] at h
  split at h
  · next hfull =>
    rcases hdrain : OStream.drainFull s.stream with ⟨os, u | e | _⟩
    · rw [drainFull, bind_ok (quiet_eq hdrain)] at h
      cases h
      have hmade : OStream.makeRoom s.stream = (os, .ok ()) := by
        rw [OStream.makeRoom, if_pos hfull]
        exact hdrain
      exact OStream.makeRoom_room hmade
    · rw [drainFull, bind_err (quiet_eq hdrain)] at h
      cases h
    · rw [drainFull, bind_unwound (quiet_eq hdrain)] at h
      cases h
  · next hroom =>
    cases h
    exact Nat.lt_of_not_le hroom

/-- `pushRawSplit`, whose copies are checked against the slice besides. -/
def pushRawSplit (data : List UInt8) : LogM Unit := fun s =>
  if data = [] then
    (s, .ok ())
  else
    match _h : makeRoom s with
    | (s, .ok _) =>
      let n := min (s.stream.end_ - s.stream.offset) data.length
      if s.stream.offset + n ≤ s.stream.buffer.length then
        pushRawSplit (data.drop n) (put (data.take n) s).1
      else
        (s, .unwound)
    | (s, .err e) => (s, .err e)
    | (s, .unwound) => (s, .unwound)
termination_by data.length
decreasing_by
  have hroom := makeRoom_room _h
  have hpos : 0 < data.length := List.length_pos_iff.mpr ‹_›
  rw [List.length_drop]
  omega

/-- `pushRaw`. -/
def pushRaw (data : List UInt8) : LogM Unit := fun s =>
  if s.stream.offset + data.length ≤ s.stream.end_ then put data s else pushRawSplit data s

/-! ## Varints -/

/-- `writeVarintSplit`. -/
def writeVarintSplit (value : Unsigned) : LogM Unit := do
  let b := value.toUInt8 &&& 0x7F
  let value' := value >>> 7
  if value' ≠ 0 then do
    pushByte (b ||| 0x80)
    writeVarintSplit value'
  else
    pushByte b
termination_by value.toNat
decreasing_by
  have hshift : (value >>> 7).toNat = value.toNat / 2 ^ 7 := by
    rw [UInt64.toNat_shiftRight, Nat.shiftRight_eq_div_pow]
    rfl
  have hne : (value >>> 7).toNat ≠ 0 := fun hzero => ‹value >>> 7 ≠ 0› (UInt64.toNat_inj.mp hzero)
  change (value >>> 7).toNat < value.toNat
  omega

/-- `writeVarintUnchecked` at an index: the length of the varint. Its first store is of eight
bytes, whatever the length. -/
def writeVarintUnchecked (dst : ℕ) (value : Unsigned) : LogM ℕ :=
  let spread := spread7 value
  if value >>> 56 = 0 then do
    let n := varintLen value
    store dst (leBytes 8 (spread ||| cont n).toNat)
    pure n
  else do
    store dst (leBytes 8 (spread ||| msb).toNat)
    let hi := (value >>> 56).toUInt8
    if value >>> 63 = 0 then do
      store (dst + 8) [hi]
      pure 9
    else do
      store (dst + 8) [hi ||| 0x80]
      store (dst + 9) [1]
      pure maxVarintLen

/-- `writeVarintUncheckedNarrow` at an index: the length of the varint. -/
def writeVarintUncheckedNarrow (dst : ℕ) (value : Unsigned) : LogM ℕ :=
  if value < 0x80 then do
    store dst [value.toUInt8]
    pure 1
  else
    writeVarintUnchecked dst value

/-- `writeVarint`. -/
def writeVarint (value : Unsigned) : LogM Unit := fun s =>
  if s.stream.offset + maxVarintLen ≤ s.stream.end_ then
    (do
      let n ← writeVarintUncheckedNarrow s.stream.offset value
      seek (s.stream.offset + n)) s
  else
    writeVarintSplit value s

/-- `writeHeaderValue`. -/
def writeHeaderValue (header value : Unsigned) : LogM Unit := fun s =>
  if s.stream.offset + 2 * maxVarintLen ≤ s.stream.end_ then
    (do
      let n ← writeVarintUncheckedNarrow s.stream.offset header
      let off := s.stream.offset + n
      let n ← writeVarintUnchecked off value
      seek (off + n)) s
  else
    (do
      writeVarintSplit header
      writeVarintSplit value) s

/-- `writeHeaderWord`. -/
def writeHeaderWord (header word : Unsigned) : LogM Unit := fun s =>
  if 2 * maxVarintLen ≤ s.stream.end_ - s.stream.offset then
    (do
      let n ← writeVarintUncheckedNarrow s.stream.offset header
      let off := s.stream.offset + n
      let n ← writeVarintUncheckedNarrow off word
      seek (off + n)) s
  else
    (do
      writeVarintSplit header
      writeVarintSplit word) s

/-- `writeFixlenSplit`. -/
def writeFixlenSplit (header word : Unsigned) (data : List UInt8) : LogM Unit := do
  writeHeaderWord header word
  pushRaw data

/-- `writeHeaderWordData`. -/
def writeHeaderWordData (header word : Unsigned) (data : List UInt8) : LogM Unit := fun s =>
  if 2 * maxVarintLen + data.length ≤ s.stream.end_ - s.stream.offset then
    (do
      let n ← writeVarintUncheckedNarrow s.stream.offset header
      let off := s.stream.offset + n
      let n ← writeVarintUncheckedNarrow off word
      let off := off + n
      store off data
      seek (off + data.length)) s
  else
    writeFixlenSplit header word data s

/-! ## Runs -/

/-- `storeRun` from an index on: the index past the varints. -/
def storeRun (off : ℕ) : List Unsigned → LogM ℕ
  | [] => pure off
  | value :: values => do
    let n ← writeVarintUnchecked off value
    storeRun (off + n) values

/-- `writeVarintRunChunked`. -/
def writeVarintRunChunked (toWire : α → Unsigned) (data : List α) : LogM Unit := fun s =>
  match _h : data with
  | [] => (s, .ok ())
  | e :: rest =>
    let room := (s.stream.end_ - s.stream.offset) / maxVarintLen
    if room = 0 then
      (do
        writeVarintSplit (toWire e)
        writeVarintRunChunked toWire rest) s
    else
      let run := min room data.length
      (do
        let off ← storeRun s.stream.offset ((data.take run).map toWire)
        seek off
        writeVarintRunChunked toWire (data.drop run)) s
termination_by data.length
decreasing_by
  · rw [List.length_cons]
    exact Nat.lt_succ_self _
  · rw [List.length_drop]
    have hlen : 0 < data.length := by
      rw [_h]
      exact Nat.succ_pos _
    rw [← _h]
    exact Nat.sub_lt hlen (lt_min (Nat.pos_of_ne_zero ‹_›) hlen)

/-- `writeVarintRun`. -/
def writeVarintRun (data : List α) (toWire : α → Unsigned) : LogM Unit := fun s =>
  if data.length * maxVarintLen ≤ s.stream.end_ - s.stream.offset then
    (do
      let off ← storeRun s.stream.offset (data.map toWire)
      seek off) s
  else
    writeVarintRunChunked toWire data s

/-- `pushEach`. -/
def pushEach (toLe : α → List UInt8) : List α → LogM Unit
  | [] => pure ()
  | e :: rest => do
    pushRaw (toLe e)
    pushEach toLe rest

/-- `writeFixlenRun`. -/
def writeFixlenRun (host : Endian) (data : List α) (toLe : α → List UInt8) : LogM Unit :=
  match host with
  | .little => pushRaw (data.flatMap toLe)
  | .big => pushEach toLe data

/-! ## Calls -/

/-- `commitLoop`. -/
def commitLoop (i : ℕ) : ℕ → LogM (ℕ × Except Error Unit)
  | 0 => pure (i, .ok ())
  | left + 1 => do
    let tag := ((← self).stream.pending.get i).toUInt64 <<< 3 ||| tSequenceStart.toUInt64
    match ← attempt (writeVarint tag) with
    | .error e => pure (i, .error e)
    | .ok _ => commitLoop (i + 1) left

/-- `commitPending`. -/
def commitPending : LogM Unit := do
  let (written, result) ← commitLoop 0 (← self).stream.pending.len
  quiet (update fun os => { os with pending := os.pending.dropFront written })
  ofExcept result

/-- `commitHeld`. -/
def commitHeld : LogM Unit := fun s =>
  if s.stream.pending.isEmpty then (s, .ok ()) else commitPending s

/-- `writeFieldVarint`. -/
def writeFieldVarint (id : Id) (wireType : UInt8) (value : Unsigned) : LogM Unit :=
  if idMax < id.toNat then
    fail .argument
  else do
    commitHeld
    writeHeaderValue (OStream.fieldHeader id wireType) value

/-- `writeFixlenUnchecked`. -/
def writeFixlenUnchecked (id : Id) (data : List UInt8) (subtype : FixlenType) : LogM Unit :=
  if fixlenMax < data.length then
    fail .argument
  else if idMax < id.toNat then
    fail .argument
  else do
    commitHeld
    writeHeaderWordData (OStream.fieldHeader id tFixlen) (OStream.fixlenWord data.length subtype)
      data

/-- `writeFixlen`. -/
def writeFixlen (id : Id) (data : List UInt8) (subtype : FixlenType) : LogM Unit :=
  match subtype with
  | .fp32 => if data.length ≠ 4 then fail .argument else writeFixlenUnchecked id data .fp32
  | .fp64 => if data.length ≠ 8 then fail .argument else writeFixlenUnchecked id data .fp64
  | .str => if OStream.isUtf8 data then writeFixlenUnchecked id data .str else fail .argument
  | .blob => writeFixlenUnchecked id data .blob

/-- `writeArrayUnsigned` and `writeArraySigned`. -/
def writeArrayVarint (id : Id) (wireType : UInt8) (data : List α) (toWire : α → Unsigned) :
    LogM Unit :=
  if arrayMax < data.length then
    fail .argument
  else do
    writeFieldVarint id wireType (UInt64.ofNat data.length)
    writeVarintRun data toWire

/-- `writeArrayFp32` and `writeArrayFp64`. -/
def writeArrayFloat (host : Endian) (id : Id) (data : List α) (word : Unsigned)
    (toLe : α → List UInt8) : LogM Unit :=
  if arrayMax < data.length then
    fail .argument
  else do
    writeFieldVarint id tFixlenArray (UInt64.ofNat data.length)
    writeVarint word
    writeFixlenRun host data toLe

/-- A field or array write. -/
def writeField (host : Endian) : Field → LogM Unit
  | .unsigned id value => writeFieldVarint id tVarintUnsigned value
  | .signed id value => writeFieldVarint id tVarintSigned (zigzagEncode value)
  | .boolean id value => writeFieldVarint id tVarintUnsigned value.toUInt64
  | .fp32 id value => writeFixlenUnchecked id (OStream.f32LeBytes value) .fp32
  | .fp64 id value => writeFixlenUnchecked id (OStream.f64LeBytes value) .fp64
  | .str id text => writeFixlenUnchecked id text.toUTF8.data.toList .str
  | .blob id data => writeFixlenUnchecked id data .blob
  | .fixlen id data subtype => writeFixlen id data subtype
  | @Field.arrayUnsigned _ _ id data =>
    writeArrayVarint id tVarintArrayUnsigned data UnsignedElem.widen
  | @Field.arraySigned _ _ id data =>
    writeArrayVarint id tVarintArraySigned data fun e => zigzagEncode (SignedElem.widen e)
  | .arrayFp32 id data => writeArrayFloat host id data (OStream.fixlenWord 4 .fp32) OStream.f32LeBytes
  | .arrayFp64 id data => writeArrayFloat host id data (OStream.fixlenWord 8 .fp64) OStream.f64LeBytes

/-- `writeSequenceEnd`. -/
def writeSequenceEnd : LogM Unit := do
  if (← self).stream.depth = 0 then
    fail .argument
  else
    let (pending, popped) := (← self).stream.pending.pop
    if popped.isSome then
      quiet (update fun os => { os with pending := pending, depth := os.depth - 1 })
    else do
      writeVarint tSequenceEnd.toUInt64
      quiet (update fun os => { os with depth := os.depth - 1 })

/-- `writeSequenceEndKeep`. -/
def writeSequenceEndKeep : LogM Unit := do
  if (← self).stream.depth = 0 then
    fail .argument
  else do
    commitHeld
    writeVarint tSequenceEnd.toUInt64
    quiet (update fun os => { os with depth := os.depth - 1 })

/-- A writer call. Opening a sequence stores nothing. -/
def write (host : Endian) : Call → LogM Unit
  | .field f => writeField host f
  | .sequenceBeginLazy id => quiet (OStream.writeSequenceBeginLazy id)
  | .sequenceEnd => writeSequenceEnd
  | .sequenceEndKeep => writeSequenceEndKeep

end Logged

end Sofab
