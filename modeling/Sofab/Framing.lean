import Sofab.Calls
import Sofab.Lib.Leb128

/-!
# What the encoder is for

The canonical bytes of a field are minimal varints and the payload as it is. Sequences are
framed lazily: an abstract framing holds the ids of the open sequences whose header is still
held back. `Call.emit` says which bytes a call adds to the message and which framing it
leaves, or that it is refused, with no buffer in sight.
-/

namespace Sofab

open Steps Step Leb128

/-- The minimal spelling of a field header. -/
def headerBytes (id : Id) (wireType : ℕ) : List UInt8 := encode (id.toNat * 8 + wireType)

/-- The canonical bytes of a fixed-length field. -/
def fixlenBytes (id : Id) (data : List UInt8) (subtype : FixlenType) : List UInt8 :=
  headerBytes id 2 ++ encode (data.length * 8 + subtype.tag.toNat) ++ data

/-- The canonical bytes of an integer array with the given wire values. -/
def integersBytes (id : Id) (wireType : ℕ) (values : List Unsigned) : List UInt8 :=
  headerBytes id wireType ++ encode values.length ++ values.flatMap fun value => encode value.toNat

/-- The canonical bytes of a float array of `count` elements with the given payload. -/
def floatsBytes (id : Id) (count width : ℕ) (subtype : FixlenType) (data : List UInt8) :
    List UInt8 :=
  headerBytes id 5 ++ encode count ++ encode (width * 8 + subtype.tag.toNat) ++ data

/-- The canonical bytes of a field. -/
def Field.bytes : Field → List UInt8
  | .unsigned id value => headerBytes id 0 ++ encode value.toNat
  | .signed id value => headerBytes id 1 ++ encode (zigzagEncode value).toNat
  | .boolean id value => headerBytes id 0 ++ encode value.toNat
  | .fp32 id value => fixlenBytes id (Digits.leBytes 4 value.toNat) .fp32
  | .fp64 id value => fixlenBytes id (Digits.leBytes 8 value.toNat) .fp64
  | .str id text => fixlenBytes id text.toUTF8.data.toList .str
  | .blob id data => fixlenBytes id data .blob
  | .fixlen id data subtype => fixlenBytes id data subtype
  | @Field.arrayUnsigned _ _ id data => integersBytes id 3 (data.map UnsignedElem.widen)
  | @Field.arraySigned _ _ id data => integersBytes id 4 (data.map fun e => zigzagEncode (SignedElem.widen e))
  | .arrayFp32 id data =>
    floatsBytes id data.length 4 .fp32 (data.flatMap fun e => Digits.leBytes 4 e.toNat)
  | .arrayFp64 id data =>
    floatsBytes id data.length 8 .fp64 (data.flatMap fun e => Digits.leBytes 8 e.toNat)

/-- The start header of a sequence. -/
def startHeader (id : Id) : List UInt8 := headerBytes id 6

/-- The start headers of sequences, outermost first. -/
def startHeaders (held : List Id) : List UInt8 := held.flatMap startHeader

/-- The end marker of a sequence. -/
def endMarker : List UInt8 := [0x07]

/-- The number of open sequences, and the ids of the innermost ones whose header is held
back, outermost first. -/
structure Framing where
  depth : ℕ
  held : List Id
  deriving DecidableEq

/-- The framing of a new stream. -/
def Framing.new : Framing := ⟨0, []⟩

/-- The framing and the bytes a call leaves, or its refusal. -/
def Call.emit (φ : Framing) : Call → Except Error (Framing × List UInt8)
  | .field f =>
    if f.Valid then .ok (⟨φ.depth, []⟩, startHeaders φ.held ++ f.bytes)
    else .error .argument
  | .sequenceBeginLazy id =>
    if φ.depth < maxDepth ∧ id.toNat ≤ idMax then .ok (⟨φ.depth + 1, φ.held ++ [id]⟩, [])
    else .error .argument
  | .sequenceEnd =>
    if φ.depth = 0 then .error .argument
    else if φ.held = [] then .ok (⟨φ.depth - 1, []⟩, endMarker)
    else .ok (⟨φ.depth - 1, φ.held.dropLast⟩, [])
  | .sequenceEndKeep =>
    if φ.depth = 0 then .error .argument
    else .ok (⟨φ.depth - 1, []⟩, startHeaders φ.held ++ endMarker)

section Emitted

variable (φ : Framing)

/-- A field goes out behind the headers held back. -/
theorem Call.emit_field {f : Field} (hvalid : f.Valid) :
    (Call.field f).emit φ = .ok (⟨φ.depth, []⟩, startHeaders φ.held ++ f.bytes) :=
  if_pos hvalid

/-- A sequence is opened without a byte. -/
theorem Call.emit_begin {id : Id} (hopen : φ.depth < maxDepth) (hid : id.toNat ≤ idMax) :
    (Call.sequenceBeginLazy id).emit φ = .ok (⟨φ.depth + 1, φ.held ++ [id]⟩, []) :=
  if_pos ⟨hopen, hid⟩

/-- A sequence whose header went out is closed by its marker. -/
theorem Call.emit_end (hdepth : φ.depth ≠ 0) (hnil : φ.held = []) :
    Call.sequenceEnd.emit φ = .ok (⟨φ.depth - 1, []⟩, endMarker) :=
  (if_neg hdepth).trans (if_pos hnil)

/-- A sequence whose header is held back vanishes. -/
theorem Call.emit_vanish (hdepth : φ.depth ≠ 0) (hheld : φ.held ≠ []) :
    Call.sequenceEnd.emit φ = .ok (⟨φ.depth - 1, φ.held.dropLast⟩, []) :=
  (if_neg hdepth).trans (if_neg hheld)

/-- A kept sequence goes out with the headers held back. -/
theorem Call.emit_keep (hdepth : φ.depth ≠ 0) :
    Call.sequenceEndKeep.emit φ = .ok (⟨φ.depth - 1, []⟩, startHeaders φ.held ++ endMarker) :=
  if_neg hdepth

end Emitted

/-- What a call that goes through writes, and the framing it leaves. -/
inductive Emitted (φ : Framing) : Call → Framing → List UInt8 → Prop
  | field {f : Field} (valid : f.Valid) :
    Emitted φ (.field f) ⟨φ.depth, []⟩ (startHeaders φ.held ++ f.bytes)
  | opened {id : Id} (room : φ.depth < maxDepth) (inRange : id.toNat ≤ idMax) :
    Emitted φ (.sequenceBeginLazy id) ⟨φ.depth + 1, φ.held ++ [id]⟩ []
  | closed (isOpen : φ.depth ≠ 0) (nil : φ.held = []) :
    Emitted φ .sequenceEnd ⟨φ.depth - 1, []⟩ endMarker
  | vanished (isOpen : φ.depth ≠ 0) (held : φ.held ≠ []) :
    Emitted φ .sequenceEnd ⟨φ.depth - 1, φ.held.dropLast⟩ []
  | kept (isOpen : φ.depth ≠ 0) :
    Emitted φ .sequenceEndKeep ⟨φ.depth - 1, []⟩ (startHeaders φ.held ++ endMarker)

/-- A call that goes through does it in one of these ways. -/
theorem Call.emitted {φ φ' : Framing} {call : Call} {bytes : List UInt8}
    (h : call.emit φ = .ok (φ', bytes)) : Emitted φ call φ' bytes := by
  cases call with
  | field f =>
    rw [emit] at h
    split at h
    · next hvalid =>
      cases h
      exact .field hvalid
    · cases h
  | sequenceBeginLazy id =>
    rw [emit] at h
    split at h
    · next hvalid =>
      cases h
      exact .opened hvalid.1 hvalid.2
    · cases h
  | sequenceEnd =>
    rw [emit] at h
    split at h
    · cases h
    next hopen =>
    split at h
    · next hnil =>
      cases h
      exact .closed hopen hnil
    · next hheld =>
      cases h
      exact .vanished hopen hheld
  | sequenceEndKeep =>
    rw [emit] at h
    split at h
    · cases h
    · next hopen =>
      cases h
      exact .kept hopen

/-- The framing and the message of a run of calls. -/
structure Tape where
  framing : Framing
  bytes : List UInt8

/-- A tape with nothing on it. -/
def Tape.new : Tape := ⟨.new, []⟩

/-- Record a call on a tape. -/
def Call.record (call : Call) : Step Tape Error Unit := fun tape =>
  match call.emit tape.framing with
  | .ok (φ, bytes) => (⟨φ, tape.bytes ++ bytes⟩, .ok ())
  | .error e => (tape, .err e)

/-- Record calls on a new tape. -/
def record (calls : List Call) : Tape × List (Exit Error Unit) := drive Call.record calls .new

/-- The most bytes a call can add, counting a held-back header at its opening. -/
def Call.size : Call → ℕ
  | .field f => f.bytes.length
  | .sequenceBeginLazy id => (startHeader id).length
  | .sequenceEnd => endMarker.length
  | .sequenceEndKeep => endMarker.length

/-- Room for all that calls can add. -/
def roomFor (calls : List Call) : ℕ := (calls.map Call.size).sum

/-- A framing that can come about: held-back sequences are open, and not too many are. -/
structure Framing.Lawful (φ : Framing) : Prop where
  held : φ.held.length ≤ φ.depth
  depth : φ.depth ≤ maxDepth

/-- The framing of a new stream is lawful. -/
theorem Framing.lawful_new : Framing.new.Lawful := ⟨Nat.le_refl 0, by decide⟩

/-- Calls keep the framing lawful. -/
theorem Call.emit_lawful {φ φ' : Framing} {call : Call} {bytes : List UInt8} (hφ : φ.Lawful)
    (h : call.emit φ = .ok (φ', bytes)) : φ'.Lawful := by
  have hheld := hφ.held
  have hdepth := hφ.depth
  have hless : φ.depth - 1 ≤ maxDepth := (Nat.sub_le _ _).trans hdepth
  cases Call.emitted h with
  | field => exact ⟨Nat.zero_le _, hdepth⟩
  | opened hroom =>
    refine ⟨?_, hroom⟩
    rw [List.length_append, List.length_singleton]
    exact Nat.succ_le_succ hheld
  | closed => exact ⟨Nat.zero_le _, hless⟩
  | vanished =>
    refine ⟨?_, hless⟩
    rw [List.length_dropLast]
    exact Nat.sub_le_sub_right hheld 1
  | kept => exact ⟨Nat.zero_le _, hless⟩

/-- A call is refused for its arguments only. -/
theorem Call.emit_error {φ : Framing} {call : Call} {e : Error} (h : call.emit φ = .error e) :
    e = .argument := by
  cases call with
  | sequenceEnd =>
    rw [emit] at h
    split at h
    · cases h
      rfl
    split at h
    · cases h
    · cases h
  | _ =>
    rw [emit] at h
    split at h
    · cases h <;> rfl
    · cases h <;> rfl

/-- A call that goes through puts its bytes on the tape. -/
theorem Call.record_ok {tape : Tape} {call : Call} {φ : Framing} {bytes : List UInt8}
    (h : call.emit tape.framing = .ok (φ, bytes)) :
    call.record tape = (⟨φ, tape.bytes ++ bytes⟩, .ok ()) := by
  rw [record, h]

/-- A refused call leaves the tape as it is. -/
theorem Call.record_error {tape : Tape} {call : Call} {e : Error}
    (h : call.emit tape.framing = .error e) : call.record tape = (tape, .err e) := by
  rw [record, h]

/-- A recorded call adds bytes behind those on the tape. -/
theorem Call.record_bytes (call : Call) (tape : Tape) :
    ∃ more, (call.record tape).1.bytes = tape.bytes ++ more := by
  rcases h : call.emit tape.framing with e | ⟨φ, bytes⟩
  · rw [record_error h]
    exact ⟨[], (List.append_nil _).symm⟩
  · rw [record_ok h]
    exact ⟨bytes, rfl⟩

/-- Recorded calls add bytes behind those on the tape. -/
theorem prefix_drive_record (calls : List Call) (tape : Tape) :
    tape.bytes <+: (drive Call.record calls tape).1.bytes := by
  induction calls generalizing tape with
  | nil => exact List.prefix_refl _
  | cons call calls ih =>
    obtain ⟨more, hmore⟩ := call.record_bytes tape
    have hrest := ih (call.record tape).1
    rw [hmore] at hrest
    exact (List.prefix_append _ _).trans hrest

/-- Start headers are written one list after the other. -/
theorem startHeaders_append (held more : List Id) :
    startHeaders (held ++ more) = startHeaders held ++ startHeaders more :=
  List.flatMap_append

/-! ## Headers that are complete -/

/-- How many of the held-back headers, outermost first, are complete at the start of what was
written. -/
def completed : List Id → List UInt8 → ℕ
  | [], _ => 0
  | id :: held, bytes =>
    if startHeader id <+: bytes then completed held (bytes.drop (startHeader id).length) + 1
    else 0

/-- A start header has at least one byte. -/
theorem startHeader_ne_nil (id : Id) : startHeader id ≠ [] := encode_ne_nil _

/-- A header that is there as a whole is completed before those behind it. -/
theorem completed_cons (id : Id) (held : List Id) (more : List UInt8) :
    completed (id :: held) (startHeader id ++ more) = completed held more + 1 := by
  rw [completed, if_pos (List.prefix_append _ _), List.drop_left]

/-- Nothing is complete in less than the first header. -/
theorem completed_of_lt {id : Id} (held : List Id) {bytes : List UInt8}
    (hshort : bytes.length < (startHeader id).length) : completed (id :: held) bytes = 0 :=
  if_neg fun hprefix => Nat.not_le.mpr hshort hprefix.length_le

/-- No bytes complete no header. -/
theorem completed_nil (held : List Id) : completed held [] = 0 := by
  cases held with
  | nil => rfl
  | cons id held => exact completed_of_lt held (List.length_pos_iff.mpr (startHeader_ne_nil id))

/-- All of them are complete in front of content. -/
theorem completed_append (held : List Id) (more : List UInt8) :
    completed held (startHeaders held ++ more) = held.length := by
  induction held with
  | nil => rfl
  | cons id held ih =>
    rw [startHeaders, List.flatMap_cons, List.append_assoc, completed_cons]
    exact congrArg (· + 1) ih

/-- No more headers are completed than are held. -/
theorem completed_le (held : List Id) (bytes : List UInt8) :
    completed held bytes ≤ held.length := by
  induction held generalizing bytes with
  | nil => exact Nat.le_refl 0
  | cons id held ih =>
    rw [completed]
    split
    · exact Nat.succ_le_succ (ih _)
    · exact Nat.zero_le _

/-- The bytes on the tape, and the headers it holds back, grow by the size of a call. -/
theorem Call.record_size (call : Call) (tape : Tape) :
    (call.record tape).1.bytes.length + (startHeaders (call.record tape).1.framing.held).length ≤
      tape.bytes.length + (startHeaders tape.framing.held).length + call.size := by
  rcases h : call.emit tape.framing with e | ⟨φ, bytes⟩
  · rw [record_error h]
    exact Nat.le_add_right _ _
  · rw [record_ok h, List.length_append]
    simp only
    have hnone : (startHeaders []).length = 0 := rfl
    cases Call.emitted h with
    | field =>
      rw [List.length_append, hnone, size]
      omega
    | @opened id =>
      have hone : startHeaders [id] = startHeader id := List.flatMap_singleton _ _
      rw [startHeaders_append, hone, List.length_append, List.length_nil, size]
      omega
    | closed =>
      rw [hnone, size]
      omega
    | vanished _ hheld =>
      have hsplit := congrArg startHeaders (List.dropLast_append_getLast hheld)
      rw [startHeaders_append] at hsplit
      rw [← hsplit, List.length_append, List.length_nil]
      dsimp only
      omega
    | kept =>
      rw [List.length_append, hnone, size]
      omega

/-- What is recorded fits in the room for the calls. -/
theorem record_length (calls : List Call) : (record calls).1.bytes.length ≤ roomFor calls := by
  have hall (tape : Tape) : (drive Call.record calls tape).1.bytes.length +
      (startHeaders (drive Call.record calls tape).1.framing.held).length ≤
        tape.bytes.length + (startHeaders tape.framing.held).length + roomFor calls := by
    induction calls generalizing tape with
    | nil => exact Nat.le_refl _
    | cons call calls ih =>
      have hfirst := call.record_size tape
      have hrest := ih (call.record tape).1
      rw [roomFor, List.map_cons, List.sum_cons]
      rw [roomFor] at hrest
      rw [drive_cons]
      dsimp only
      omega
  have hnew := hall .new
  change _ + _ ≤ 0 + 0 + _ at hnew
  rw [record]
  omega

end Sofab
