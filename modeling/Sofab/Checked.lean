import Mathlib.Data.Nat.PSub
import Sofab.IStream

/-!
# The decoder with every assumption checked

The unchecked decoder takes for granted that its reads stay inside their slices, that its
subtractions stay above zero and that the branches it calls unreachable are so. Here each of
these is checked where the source relies on it, and a run that breaks one faults: it reports
nothing at all. Everything else is as in `IStream`.
-/

namespace Sofab

open Digits DecodeM

/-- Steps of the decoder that may fault. -/
def CheckedM (α : Type) := IStream → Option (Parsed α)

namespace CheckedM

variable {α β : Type}

/-- Return a value. -/
protected def pure (a : α) : CheckedM α := fun is => some ⟨[], is, .ok a⟩

/-- Run the second step unless the first one faults or rejects. -/
protected def bind (c : CheckedM α) (g : α → CheckedM β) : CheckedM β := fun is =>
  match c is with
  | none => none
  | some ⟨calls, is, .ok a⟩ => (g a is).map (Parsed.after · calls)
  | some ⟨calls, is, .error e⟩ => some ⟨calls, is, .error e⟩

instance : Monad CheckedM where
  pure := CheckedM.pure
  bind := CheckedM.bind

/-- A step that takes nothing for granted. -/
def lift (m : DecodeM α) : CheckedM α := fun is => some (m is)

/-- A branch that is never to be taken. -/
def fault : CheckedM α := fun _ => none

/-- A value that has to be there. -/
def demand (a : Option α) : CheckedM α := fun is => a.map fun a => ⟨[], is, .ok a⟩

/-- A condition that has to hold. -/
def require (p : Prop) [Decidable p] : CheckedM Unit := demand (if p then some () else none)

/-- A subtraction that must not fall below zero. -/
def sub (a b : ℕ) : CheckedM ℕ := demand (Nat.psub' a b)

/-- The byte at an index that has to be inside the slice. -/
def byteAt (buf : List UInt8) (i : ℕ) : CheckedM UInt8 := demand buf[i]?

/-- The `n` bytes from `start` on, which have to be inside the slice. -/
def window (buf : List UInt8) (start n : ℕ) : CheckedM (List UInt8) :=
  demand (if start + n ≤ buf.length then some ((buf.drop start).take n) else none)

/-- The bytes from a position on that has to be inside the slice or at its end. -/
def onward (buf : List UInt8) (start : ℕ) : CheckedM (List UInt8) :=
  demand (if start ≤ buf.length then some (buf.drop start) else none)

end CheckedM

open CheckedM

namespace Checked

/-! ## Varints -/

/-- `readVarintWide` with its eight-byte load, its two further bytes and its entry of the
mask table inside their bounds. -/
def readVarintWide (buf : List UInt8) (start : ℕ) : CheckedM (Unsigned × ℕ) := do
  let bytes ← window buf start 8
  let w := UInt64.ofNat (leNat bytes)
  let terminators := ~~~w &&& msb
  if terminators ≠ 0 then
    let len := trailingZeros terminators / 8 + 1
    -- the table has nine entries
    require (len < 9)
    pure (compact7 (w &&& keep7 len), start + len)
  else
    let value := compact7 (w &&& low7)
    let b8 ← byteAt buf (start + 8)
    let value := value ||| ((b8 &&& 0x7F).toUInt64 <<< 56)
    if b8 < 0x80 then
      pure (value, start + 9)
    else
      let b9 ← byteAt buf (start + 9)
      if b9 > 1 then
        lift (fail .invalidMsg)
      else
        pure (value ||| (b9.toUInt64 <<< 63), start + maxVarintLen)

/-- `readVarintTail` with its assertion. -/
def readVarintTail (buf : List UInt8) (start : ℕ) : CheckedM (Option (Unsigned × ℕ)) := do
  let left ← sub buf.length start
  require (left < maxVarintLen)
  pure (Sofab.readVarintTail buf start)

/-- `readVarint` with its first byte inside the slice. -/
def readVarint (buf : List UInt8) (pos : ℕ) : CheckedM (Option (Unsigned × ℕ)) :=
  if buf.length ≤ pos then
    pure none
  else do
    let b0 ← byteAt buf pos
    if b0 < 0x80 then
      pure (some (b0.toUInt64, pos + 1))
    else
      let left ← sub buf.length pos
      if maxVarintLen ≤ left then
        let found ← readVarintWide buf pos
        pure (some found)
      else
        match ← readVarintTail buf pos with
        | some (value, len) => pure (some (value, pos + len))
        | none => pure none

/-- `readVarintReady` with its first byte inside the slice. -/
def readVarintReady (buf : List UInt8) (pos : ℕ) : CheckedM (Unsigned × ℕ) := do
  let b0 ← byteAt buf pos
  if b0 < 0x80 then
    pure (b0.toUInt64, pos + 1)
  else
    readVarintWide buf pos

/-! ## Arrays and payloads -/

/-- `emitFixlenValue` with its load inside the slice. -/
def emitFixlenValue (fp64 : Bool) (buf : List UInt8) (pos : ℕ) (id : Id) : CheckedM Unit := do
  let bytes ← window buf pos (elemLen fp64)
  lift (visit (if fp64 then .fp64 id (UInt64.ofNat (leNat bytes))
    else .fp32 id (UInt32.ofNat (leNat bytes))))

/-- The bulk loop of `intArray`. -/
def intArrayBulk (signed : Bool) (buf : List UInt8) (id : Id) : ℕ → ℕ → CheckedM (ℕ × ℕ)
  | 0, p => pure (0, p)
  | rem + 1, p =>
    if p + maxVarintLen ≤ buf.length then do
      let (val, p) ← readVarintReady buf p
      lift (visit (.integer signed id val))
      intArrayBulk signed buf id rem p
    else
      pure (rem + 1, p)

/-- The tail loop of `intArray`. -/
def intArrayTail (signed : Bool) (buf : List UInt8) (id : Id) : ℕ → ℕ → CheckedM ℕ
  | 0, p => pure p
  | rem + 1, p => do
    let elemStart := p
    match ← readVarint buf p with
    | some (val, p) =>
      lift (visit (.integer signed id val))
      intArrayTail signed buf id rem p
    | none =>
      lift (update fun is => { is with resume := .arrayInt id signed (rem + 1) })
      pure elemStart

/-- `intArray` over the checked loops. -/
def intArray (signed : Bool) (buf : List UInt8) (pos : ℕ) (id : Id) (rem : ℕ) : CheckedM ℕ := do
  let (rem, p) ← intArrayBulk signed buf id rem pos
  intArrayTail signed buf id rem p

/-- `fixArray` with the cursor inside the slice. -/
def fixArray (fp64 : Bool) (buf : List UInt8) (id : Id) : ℕ → ℕ → CheckedM ℕ
  | 0, p => pure p
  | rem + 1, p => do
    let left ← sub buf.length p
    if left < elemLen fp64 then
      lift (update fun is => { is with resume := .arrayFix id fp64 (rem + 1) })
      pure p
    else
      emitFixlenValue fp64 buf p id
      fixArray fp64 buf id rem (p + elemLen fp64)

/-- `deliverPayload` with no more missing than there is in all. -/
def deliverPayload (buf : List UInt8) (pos : ℕ) : CheckedM ℕ := do
  match (← lift self).resume with
  | .payload id isBlob total remaining =>
    let left ← sub buf.length pos
    let avail := min left remaining
    if 0 < avail then
      let offset ← sub total remaining
      let chunk ← window buf pos avail
      lift (visit (.payload isBlob id total offset chunk))
      let rem ← sub remaining avail
      lift (update fun is =>
        { is with resume := if rem = 0 then .none else .payload id isBlob total rem })
      pure (pos + avail)
    else
      pure pos
  | _ => pure pos

/-- `resumeItem` over the checked bodies. -/
def resumeItem (buf : List UInt8) (pos : ℕ) : CheckedM ℕ := do
  match (← lift self).resume with
  | .none => pure pos
  | .payload _ _ _ _ => deliverPayload buf pos
  | .arrayInt id signed remaining =>
    lift (update fun is => { is with resume := .none })
    intArray signed buf pos id remaining
  | .arrayFix id fp64 remaining =>
    lift (update fun is => { is with resume := .none })
    fixArray fp64 buf id remaining pos

/-! ## Fields -/

/-- `IStream.parseVarint` over the checked reader. -/
def parseVarint (signed : Bool) (buf : List UInt8) (fieldStart pos : ℕ) (id : Id) :
    CheckedM IStream.Turn := do
  match ← readVarint buf pos with
  | some (val, pos) =>
    lift (visit (.integer signed id val))
    pure (.proceed pos)
  | none => pure (.finish fieldStart)

/-- `IStream.parseFloat` over the checked loop. -/
def parseFloat (fp64 : Bool) (buf : List UInt8) (pos : ℕ) (id : Id) (len : ℕ) :
    CheckedM IStream.Turn := do
  if len ≠ elemLen fp64 then
    lift (fail .invalidMsg)
  else
    lift (visit (.fixlenBegin id (if fp64 then .fp64 else .fp32) len))
    let pos ← fixArray fp64 buf id 1 pos
    lift (IStream.orSuspended pos)

/-- `IStream.parsePayload` with the whole payload inside the slice. -/
def parsePayload (isBlob : Bool) (buf : List UInt8) (pos : ℕ) (id : Id) (len : ℕ) :
    CheckedM IStream.Turn := do
  lift (visit (.fixlenBegin id (if isBlob then .blob else .str) len))
  let left ← sub buf.length pos
  if len ≤ left then
    let chunk ← window buf pos len
    lift (visit (.payload isBlob id len 0 chunk))
    pure (.proceed (pos + len))
  else
    lift (update fun is => { is with resume := .payload id isBlob len len })
    let pos ← deliverPayload buf pos
    pure (.finish pos)

/-- `IStream.parseFixlen` over the checked reader. -/
def parseFixlen (buf : List UInt8) (fieldStart pos : ℕ) (id : Id) : CheckedM IStream.Turn := do
  match ← readVarint buf pos with
  | none => pure (.finish fieldStart)
  | some (word, pos) =>
    if fixlenMax < (word >>> 3).toNat then
      lift (fail .invalidMsg)
    else
      let len := (word >>> 3).toNat
      let tag := (word &&& (0x07 : UInt64)).toUInt8
      if tag = FixlenType.fp32.tag then
        parseFloat false buf pos id len
      else if tag = FixlenType.fp64.tag then
        parseFloat true buf pos id len
      else if tag = FixlenType.str.tag ∨ tag = FixlenType.blob.tag then
        parsePayload (decide (tag = FixlenType.blob.tag)) buf pos id len
      else
        lift (fail .invalidMsg)

/-- `IStream.parseVarintArray` over the checked reader and loops. -/
def parseVarintArray (signed : Bool) (buf : List UInt8) (fieldStart pos : ℕ) (id : Id) :
    CheckedM IStream.Turn := do
  match ← readVarint buf pos with
  | none => pure (.finish fieldStart)
  | some (count, pos) =>
    if arrayMax < count.toNat then
      lift (fail .invalidMsg)
    else
      lift (visit (.arrayBegin id (if signed then .signed else .unsigned) count.toNat))
      let pos ← intArray signed buf pos id count.toNat
      lift (IStream.orSuspended pos)

/-- `IStream.parseFixlenArray` over the checked reader and loop. -/
def parseFixlenArray (buf : List UInt8) (fieldStart pos : ℕ) (id : Id) :
    CheckedM IStream.Turn := do
  match ← readVarint buf pos with
  | none => pure (.finish fieldStart)
  | some (count, pos) =>
    if arrayMax < count.toNat then
      lift (fail .invalidMsg)
    else
      match ← readVarint buf pos with
      | none => pure (.finish fieldStart)
      | some (word, pos) =>
        match IStream.fixlenArrayType word with
        | none => lift (fail .invalidMsg)
        | some fp64 =>
          lift (visit (.arrayBegin id (if fp64 then .fp64 else .fp32) count.toNat))
          let pos ← fixArray fp64 buf id count.toNat pos
          lift (IStream.orSuspended pos)

/-- `IStream.parseSequenceEnd` with a sequence open. -/
def parseSequenceEnd (pos : ℕ) : CheckedM IStream.Turn := do
  let depth := (← lift self).depth
  if depth = 0 then
    lift (fail .invalidMsg)
  else
    let _ ← sub depth 1
    lift (update fun is => { is with depth := is.depth - 1 })
    lift (visit .sequenceEnd)
    pure (.proceed pos)

/-- `IStream.parseField` over the checked arms. -/
def parseField (buf : List UInt8) (fieldStart : ℕ) : CheckedM IStream.Turn := do
  match ← readVarint buf fieldStart with
  | none => pure (.finish fieldStart)
  | some (header, pos) =>
    let wire := (header &&& (0x07 : UInt64)).toUInt8
    let idRaw := header >>> 3
    if idMax < idRaw.toNat then
      lift (fail .invalidMsg)
    else
      let id : Id := idRaw.toUInt32
      if wire = tVarintUnsigned then parseVarint false buf fieldStart pos id
      else if wire = tVarintSigned then parseVarint true buf fieldStart pos id
      else if wire = tFixlen then parseFixlen buf fieldStart pos id
      else if wire = tVarintArrayUnsigned then parseVarintArray false buf fieldStart pos id
      else if wire = tVarintArraySigned then parseVarintArray true buf fieldStart pos id
      else if wire = tFixlenArray then parseFixlenArray buf fieldStart pos id
      else if wire = tSequenceStart then lift (IStream.parseSequenceStart pos id)
      else if wire = tSequenceEnd then parseSequenceEnd pos
      else lift (fail .invalidMsg)

/-- The field loop; a turn that stays where it is would loop for ever and faults. -/
def parseFields (buf : List UInt8) (pos : ℕ) : CheckedM ℕ := fun is =>
  if buf.length ≤ pos then
    some ⟨[], is, .ok pos⟩
  else
    match parseField buf pos is with
    | none => none
    | some ⟨calls, is', .ok (.proceed next)⟩ =>
      if pos < next then (parseFields buf next is').map (Parsed.after · calls) else none
    | some ⟨calls, is', .ok (.finish stop)⟩ => some ⟨calls, is', .ok stop⟩
    | some ⟨calls, is', .error e⟩ => some ⟨calls, is', .error e⟩
termination_by buf.length - pos

/-- `IStream.parse` over the checked loop. -/
def parse (buf : List UInt8) : CheckedM ℕ := do
  if (← lift self).resume = .none then
    parseFields buf 0
  else
    let pos ← resumeItem buf 0
    if (← lift self).resume = .none then
      parseFields buf pos
    else
      pure pos

/-! ## Chunks -/

/-- `IStream.latch` on a step that may fault. -/
def latch {α : Type} (c : CheckedM α) : CheckedM α := fun is =>
  (c is).map fun parsed => IStream.latch (fun _ => parsed) is

/-- `IStream.storeCarry` with its destination inside the carry. -/
def storeCarry (at_ : ℕ) (bytes : List UInt8) : CheckedM Unit := do
  let _ ← window (← lift self).carry at_ bytes.length
  lift (update fun is => is.storeCarry at_ bytes)

/-- `IStream.stash` of a tail that has to fit. -/
def stash (tail : List UInt8) : CheckedM Unit :=
  if carryCap < tail.length then
    fault
  else do
    storeCarry 0 tail
    lift (update fun is => { is with carryLen := tail.length })

/-- The end of `IStream.resumeCarried` with its assertion, and without its way out behind it. -/
def settle (chunk : List UInt8) (held take consumed : ℕ) : CheckedM (Option (List UInt8)) :=
  if held ≤ consumed then do
    lift (update fun is => { is with carryLen := 0 })
    let past ← sub consumed held
    let rest ← onward chunk past
    pure (some rest)
  else do
    let left ← sub (held + take) consumed
    let tail ← window (← lift self).carry consumed left
    storeCarry 0 tail
    lift (update fun is => { is with carryLen := left })
    require (take = chunk.length)
    if take < chunk.length then
      fault
    else
      pure none

/-- `IStream.resumeCarried` with its copies inside the carry and the chunk. -/
def resumeCarried (chunk : List UInt8) : CheckedM (Option (List UInt8)) := do
  let held := (← lift self).carryLen
  let room ← sub carryCap held
  let take := min room chunk.length
  let front ← window chunk 0 take
  storeCarry held front
  let live ← window (← lift self).carry 0 (held + take)
  let consumed ← latch (parse live)
  settle chunk held take consumed

/-- `IStream.consume` with the end of a payload inside the chunk. -/
def consume (rest : List UInt8) : CheckedM ℕ := do
  match (← lift self).resume with
  | .payload _ _ _ _ =>
    let pos ← deliverPayload rest 0
    if (← lift self).resume = .none then
      let past ← onward rest pos
      let more ← latch (parse past)
      pure (pos + more)
    else
      pure pos
  | _ => latch (parse rest)

/-- `IStream.feedRest` over the checked parts. -/
def feedRest (rest : List UInt8) : CheckedM Status := do
  let consumed ← consume rest
  if consumed < rest.length then
    let tail ← onward rest consumed
    stash tail
  return (← lift self).verdict

/-- `IStream.feed` over the checked parts. -/
def feed (chunk : List UInt8) : CheckedM Status := do
  if (← lift self).invalid then
    lift (fail .invalidMsg)
  else if (← lift self).carryLen = 0 then
    feedRest chunk
  else
    match ← resumeCarried chunk with
    | some rest => feedRest rest
    | none => return (← lift self).verdict

end Checked

end Sofab
