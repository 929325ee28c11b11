import Sofab.IStream
import Sofab.Lib.Reader

/-!
# The wire grammar as a reference reading

The reference reading goes over a message field by field from the left. A field is a head,
the words up to the callback that announces it, and the body the head asks for: nothing, a
payload, or the elements of an array. Its notes are the callbacks, and the bytes as they
were spelled.

Nothing here knows about chunks, carries or positions.
-/

namespace Sofab

open Reading Reading.Reader

/-- What the reference reading notes: callbacks, the spelling of each varint and of each
end header, and bytes taken as they are. -/
inductive Note
  | call (call : Callback)
  | varint (spelling : List UInt8) (value : ℕ)
  | close (spelling : List UInt8)
  | raw (bytes : List UInt8)
  deriving DecidableEq

/-- The callbacks among the notes. -/
def calls : List Note → List Callback
  | [] => []
  | .call c :: notes => c :: calls notes
  | _ :: notes => calls notes

/-- The message bytes a note stands for. -/
def Note.spelled : Note → List UInt8
  | .call _ => []
  | .varint spelling _ => spelling
  | .close spelling => spelling
  | .raw bytes => bytes

/-- No notes hold no callback. -/
@[simp] theorem calls_nil : calls [] = [] := rfl

/-- The callback of a first note comes first. -/
@[simp] theorem calls_call (c : Callback) (notes : List Note) :
    calls (.call c :: notes) = c :: calls notes := rfl

/-- The spelling of a varint holds no callback. -/
@[simp] theorem calls_varint (spelling : List UInt8) (value : ℕ) (notes : List Note) :
    calls (.varint spelling value :: notes) = calls notes := rfl

/-- The spelling of an end header holds no callback. -/
@[simp] theorem calls_close (spelling : List UInt8) (notes : List Note) :
    calls (.close spelling :: notes) = calls notes := rfl

/-- Bytes taken as they are hold no callback. -/
@[simp] theorem calls_raw (bytes : List UInt8) (notes : List Note) :
    calls (.raw bytes :: notes) = calls notes := rfl

/-- The callbacks of notes in a row are those of one list after the other. -/
@[simp] theorem calls_append (notes more : List Note) :
    calls (notes ++ more) = calls notes ++ calls more := by
  induction notes with
  | nil => rfl
  | cons note notes ih => cases note <;> simp [ih]

/-- Readers of wire bytes. -/
abbrev WireReader := Reader Note UInt8

/-- A varint of at most ten bytes and below `2 ^ 64`: its spelling and its value. -/
def readWord : WireReader (List UInt8 × ℕ) := fun bs =>
  match Leb128.read fullGroups bs with
  | .done value rest => ⟨[], .done (bs.take (bs.length - rest.length), value) rest⟩
  | .short => ⟨[], .short bs⟩
  | .overflow => ⟨[], .invalid⟩

/-- A varint that is noted somehow. -/
def notedWord (noted : List UInt8 → ℕ → Note) : WireReader ℕ := do
  let (spelling, value) ← readWord
  note (noted spelling value)
  pure value

/-- A varint that is noted as it is spelled. -/
def word : WireReader ℕ := notedWord .varint

/-- The note for a header: an end header counts by its spelling alone. -/
def headerNote (spelling : List UInt8) (header : ℕ) : Note :=
  if header % 8 = 7 then .close spelling else .varint spelling header

/-- A field header. -/
def header : WireReader ℕ := notedWord headerNote

/-- Exactly `n` bytes. Fewer are not torn: they end inside no varint. -/
def rawBytes (n : ℕ) : WireReader (List UInt8) := fun bs =>
  if n ≤ bs.length then ⟨[.raw (bs.take n)], .done (bs.take n) (bs.drop n)⟩ else ⟨[], .short []⟩

/-- The last `remaining` bytes of a payload, in one callback with what there is of them. -/
def payload (id : Id) (isBlob : Bool) (total remaining : ℕ) : WireReader Unit := fun bs =>
  if remaining ≤ bs.length then
    ⟨[.raw (bs.take remaining), .call (.payload isBlob id total (total - remaining)
        (bs.take remaining))], .done () (bs.drop remaining)⟩
  else if bs = [] then
    ⟨[], .short []⟩
  else
    ⟨[.raw bs, .call (.payload isBlob id total (total - remaining) bs)], .short []⟩

/-- The callback for a little-endian float. -/
def Callback.float (fp64 : Bool) (id : Id) (bytes : List UInt8) : Callback :=
  if fp64 then .fp64 id (UInt64.ofNat (Digits.leNat bytes))
  else .fp32 id (UInt32.ofNat (Digits.leNat bytes))

/-- Integer array elements. -/
def integers (id : Id) (signed : Bool) : ℕ → WireReader Unit
  | 0 => pure ()
  | n + 1 => do
    let value ← word
    note (.call (.integer signed id (UInt64.ofNat value)))
    integers id signed n

/-- Float array elements. -/
def floats (id : Id) (fp64 : Bool) : ℕ → WireReader Unit
  | 0 => pure ()
  | n + 1 => do
    let bytes ← rawBytes (elemLen fp64)
    note (.call (.float fp64 id bytes))
    floats id fp64 n

/-- What a head asks for: the rest of the field. -/
def readBody : Resume → WireReader Unit
  | .none => pure ()
  | .payload id isBlob total remaining => payload id isBlob total remaining
  | .arrayInt id signed remaining => integers id signed remaining
  | .arrayFix id fp64 remaining => floats id fp64 remaining

/-- Announce a field and ask for its body. -/
def announce (depth : ℕ) (call : Callback) (body : Resume) : WireReader (ℕ × Resume) := do
  note (.call call)
  pure (depth, body)

/-- The head of a scalar fixlen field past its header. -/
def fixlenHead (depth : ℕ) (id : Id) : WireReader (ℕ × Resume) := do
  let w ← word
  let len := w / 8
  demand (len ≤ fixlenMax)
  match w % 8 with
  | 0 => do
    demand (len = 4)
    announce depth (.fixlenBegin id .fp32 len) (.arrayFix id false 1)
  | 1 => do
    demand (len = 8)
    announce depth (.fixlenBegin id .fp64 len) (.arrayFix id true 1)
  | 2 => announce depth (.fixlenBegin id .str len) (.payload id false len len)
  | 3 => announce depth (.fixlenBegin id .blob len) (.payload id true len len)
  | _ => reject

/-- The head of an integer array past its header. -/
def integersHead (depth : ℕ) (id : Id) (signed : Bool) : WireReader (ℕ × Resume) := do
  let count ← word
  demand (count ≤ arrayMax)
  announce depth (.arrayBegin id (if signed then .signed else .unsigned) count)
    (.arrayInt id signed count)

/-- A float array of which the word is given. -/
def floatsOf (depth : ℕ) (id : Id) (count w : ℕ) : WireReader (ℕ × Resume) :=
  match w % 8, w / 8 with
  | 0, 4 => announce depth (.arrayBegin id .fp32 count) (.arrayFix id false count)
  | 1, 8 => announce depth (.arrayBegin id .fp64 count) (.arrayFix id true count)
  | _, _ => reject

/-- The head of a float array past its header. -/
def floatsHead (depth : ℕ) (id : Id) : WireReader (ℕ × Resume) := do
  let count ← word
  demand (count ≤ arrayMax)
  let w ← word
  floatsOf depth id count w

/-- The head of a field of a wire type. -/
def typedHead (depth : ℕ) (id : Id) (wireType : ℕ) : WireReader (ℕ × Resume) :=
  match wireType with
  | 0 => do
    let value ← word
    announce depth (.unsigned id (UInt64.ofNat value)) .none
  | 1 => do
    let value ← word
    announce depth (.signed id (zigzagDecode (UInt64.ofNat value))) .none
  | 2 => fixlenHead depth id
  | 3 => integersHead depth id false
  | 4 => integersHead depth id true
  | 5 => floatsHead depth id
  | 6 => do
    demand (depth < maxDepth)
    announce (depth + 1) (.sequenceBegin id) .none
  | _ => do
    demand (0 < depth)
    announce (depth - 1) .sequenceEnd .none

/-- The head of a field past its header. -/
def fieldHead (depth h : ℕ) : WireReader (ℕ × Resume) := do
  demand (h / 8 ≤ idMax)
  typedHead depth (UInt32.ofNat (h / 8)) (h % 8)

/-- The head of a field under `depth` open sequences: the depth past it and its body. -/
def readHead (depth : ℕ) : WireReader (ℕ × Resume) := header >>= fieldHead depth

/-- One field under `depth` open sequences. -/
def readField (depth : ℕ) : WireReader ℕ := do
  let (depth, body) ← readHead depth
  readBody body
  pure depth

/-! ## Nothing is read ahead -/

/-- A varint that is whole, or too long, is so whatever follows it. -/
theorem local_readWord : Local readWord where
  done {bs rest notes a} h := by
    rw [readWord] at h
    split at h
    · next v rest' hread =>
      cases h
      obtain ⟨z, hz, -, -, hlocal⟩ := Leb128.read_done hread
      refine ⟨z, hz, fun ys => ?_⟩
      have hlen : bs.length - rest.length = z.length := by
        rw [hz, List.length_append, Nat.add_sub_cancel]
      rw [readWord, hlocal ys, hlen]
      simp [hz]
    · cases h
    · cases h
  invalid {bs notes} h ys := by
    rw [readWord] at h
    split at h
    · cases h
    · cases h
    · next hread =>
      cases h
      rw [readWord, Leb128.read_overflow_append hread]
  short {bs torn notes} h := by
    rw [readWord] at h
    split at h
    · cases h
    · cases h
      exact ⟨[], rfl⟩
    · cases h

/-- However it is noted, a varint is read without a look at what follows. -/
theorem local_notedWord (noted : List UInt8 → ℕ → Note) : Local (notedWord noted) :=
  local_readWord.bind fun _ => (local_note _).bind fun _ => local_pure _

/-- A varint noted as it is spelled is read without a look at what follows. -/
theorem local_word : Local word := local_notedWord _

/-- Exactly so many bytes are read without a look at what follows. -/
theorem local_rawBytes (n : ℕ) : Local (rawBytes n) where
  done {bs rest notes a} h := by
    rw [rawBytes] at h
    split at h
    · next hn =>
      cases h
      refine ⟨bs.take n, (List.take_append_drop n bs).symm, fun ys => ?_⟩
      have hlen : (bs.take n).length = n := by rw [List.length_take, Nat.min_eq_left hn]
      rw [rawBytes, if_pos (by simp [hlen]), List.take_left' hlen, List.drop_left' hlen]
    · cases h
  invalid {bs notes} h := by
    rw [rawBytes] at h
    split at h <;> cases h
  short {bs torn notes} h := by
    rw [rawBytes] at h
    split at h <;> cases h
    exact ⟨bs, (List.append_nil bs).symm⟩

/-- A payload is read without a look at what follows it. -/
theorem local_payload (id : Id) (isBlob : Bool) (total remaining : ℕ) :
    Local (payload id isBlob total remaining) where
  done {bs rest notes a} h := by
    rw [payload] at h
    split at h
    · next hn =>
      cases h
      refine ⟨bs.take remaining, (List.take_append_drop remaining bs).symm, fun ys => ?_⟩
      have hlen : (bs.take remaining).length = remaining := by
        rw [List.length_take, Nat.min_eq_left hn]
      rw [payload, if_pos (by simp [hlen]), List.take_left' hlen, List.drop_left' hlen]
    · split at h <;> cases h
  invalid {bs notes} h := by
    rw [payload] at h
    split at h
    · cases h
    · split at h <;> cases h
  short {bs torn notes} h := by
    rw [payload] at h
    split at h
    · cases h
    · split at h <;> cases h <;> exact ⟨bs, (List.append_nil bs).symm⟩

/-- Integer elements are read without a look at what follows the last. -/
theorem local_integers (id : Id) (signed : Bool) (n : ℕ) : Local (integers id signed n) := by
  induction n with
  | zero => exact local_pure ()
  | succ n ih => exact local_word.bind fun _ => (local_note _).bind fun _ => ih

/-- Float elements are read without a look at what follows the last. -/
theorem local_floats (id : Id) (fp64 : Bool) (n : ℕ) : Local (floats id fp64 n) := by
  induction n with
  | zero => exact local_pure ()
  | succ n ih => exact (local_rawBytes _).bind fun _ => (local_note _).bind fun _ => ih

/-- The body of a field is read without a look at what follows it. -/
theorem local_readBody (body : Resume) : Local (readBody body) := by
  cases body with
  | none => exact local_pure ()
  | payload id isBlob total remaining => exact local_payload id isBlob total remaining
  | arrayInt id signed remaining => exact local_integers id signed remaining
  | arrayFix id fp64 remaining => exact local_floats id fp64 remaining

/-- An announcement looks at no byte. -/
theorem local_announce (depth : ℕ) (call : Callback) (body : Resume) :
    Local (announce depth call body) :=
  (local_note _).bind fun _ => local_pure _

/-- The length word of a fixlen field is all that its head looks at. -/
theorem local_fixlenHead (depth : ℕ) (id : Id) : Local (fixlenHead depth id) := by
  refine local_word.bind fun w => (local_demand _).bind fun _ => ?_
  split
  · exact (local_demand _).bind fun _ => local_announce _ _ _
  · exact (local_demand _).bind fun _ => local_announce _ _ _
  · exact local_announce _ _ _
  · exact local_announce _ _ _
  · exact local_reject

/-- The count of an integer array is all that its head looks at. -/
theorem local_integersHead (depth : ℕ) (id : Id) (signed : Bool) :
    Local (integersHead depth id signed) :=
  local_word.bind fun _ => (local_demand _).bind fun _ => local_announce _ _ _

/-- The count and the word of a float array are all that its head looks at. -/
theorem local_floatsHead (depth : ℕ) (id : Id) : Local (floatsHead depth id) := by
  refine local_word.bind fun count => (local_demand _).bind fun _ => local_word.bind fun w => ?_
  rw [floatsOf]
  split
  · exact local_announce _ _ _
  · exact local_announce _ _ _
  · exact local_reject

/-- Past its header too a head looks at its own words alone. -/
theorem local_fieldHead (depth h : ℕ) : Local (fieldHead depth h) := by
  refine (local_demand _).bind fun _ => ?_
  unfold typedHead
  split
  · exact local_word.bind fun _ => local_announce _ _ _
  · exact local_word.bind fun _ => local_announce _ _ _
  · exact local_fixlenHead _ _
  · exact local_integersHead _ _ _
  · exact local_integersHead _ _ _
  · exact local_floatsHead _ _
  · exact (local_demand _).bind fun _ => local_announce _ _ _
  · exact (local_demand _).bind fun _ => local_announce _ _ _

/-- A head is read without a look at what follows it. -/
theorem local_readHead (depth : ℕ) : Local (readHead depth) :=
  (local_notedWord _).bind fun _ => local_fieldHead _ _

/-- A field is read without a look at what follows it. -/
theorem local_readField (depth : ℕ) : Local (readField depth) :=
  (local_readHead depth).bind fun _ => (local_readBody _).bind fun _ => local_pure _

/-- With no byte left a field is short. -/
theorem readField_nil (depth : ℕ) : readField depth [] = ⟨[], .short []⟩ := rfl

/-- A field takes at least one byte. -/
theorem readField_shrinks : Shrinks readField := fun depth bs _ _ _ h =>
  (local_readField depth).rest_lt bs (readField_nil depth) h

/-- The fields of a message to its end, from `depth` open sequences on. -/
def readFields (depth : ℕ) (bs : List UInt8) : Report Note UInt8 ℕ :=
  exhaust readField readField_shrinks depth bs

/-- What is left of a message from the inside of a field on. -/
def readRest (body : Resume) (depth : ℕ) : WireReader ℕ := do
  readBody body
  readFields depth

/-- The verdict on the bytes read: complete at the end of a field with no sequence open. -/
def verdict (report : Report Note UInt8 ℕ) : Except Error Status :=
  match report.outcome with
  | .done depth _ => .ok (if depth = 0 then .complete else .incomplete)
  | .short _ => .ok .incomplete
  | .invalid => .error .invalidMsg

/-- The reference reading of a whole message. -/
def readMessage (bs : List UInt8) : Report Note UInt8 ℕ := readFields 0 bs

end Sofab
