import Sofab.Types
import Sofab.VarintRead

/-!
# Streaming input stream decoder

`decode` hands a whole message to a fresh stream; `IStream.feed` takes it in chunks of any
size and suspends at any byte. A small item that straddles a chunk boundary is carried as
raw bytes and parsed again; a payload or an array in progress is kept as `Resume`.

A visitor receives callbacks and gives nothing back, so it is modelled by the list of
callbacks it received. Cursor positions are indices into the parsed buffer.
-/

namespace Sofab

/-- The callbacks of a visitor. -/
inductive Callback
  | unsigned (id : Id) (value : Unsigned)
  | signed (id : Id) (value : Signed)
  | fp32 (id : Id) (value : F32)
  | fp64 (id : Id) (value : F64)
  | string (id : Id) (total offset : ℕ) (chunk : List UInt8)
  | blob (id : Id) (total offset : ℕ) (chunk : List UInt8)
  | fixlenBegin (id : Id) (subtype : FixlenType) (total : ℕ)
  | arrayBegin (id : Id) (kind : ArrayKind) (count : ℕ)
  | sequenceBegin (id : Id)
  | sequenceEnd
  deriving DecidableEq, Repr

/-- A string or blob callback. -/
def Callback.payload (isBlob : Bool) (id : Id) (total offset : ℕ) (chunk : List UInt8) : Callback :=
  if isBlob then .blob id total offset chunk else .string id total offset chunk

/-- An integer callback for a raw wire value, zigzag-decoded when signed. -/
def Callback.integer (signed : Bool) (id : Id) (value : Unsigned) : Callback :=
  if signed then .signed id (zigzagDecode value) else .unsigned id value

/-- The decode outcome of one feed that is not a rejection. -/
inductive Status
  | complete
  | incomplete
  deriving DecidableEq, Repr

/-- What the decoder was in the middle of when the previous chunk ran out. -/
inductive Resume
  | none
  | payload (id : Id) (isBlob : Bool) (total remaining : ℕ)
  | arrayInt (id : Id) (signed : Bool) (remaining : ℕ)
  | arrayFix (id : Id) (fp64 : Bool) (remaining : ℕ)
  deriving DecidableEq, Repr

/-- Capacity of the carry buffer. -/
def carryCap : ℕ := 3 * maxVarintLen

/-- Streaming decoder. -/
@[ext] structure IStream where
  carry : List UInt8
  carrySize : carry.length = carryCap
  carryLen : ℕ
  resume : Resume
  depth : ℕ
  invalid : Bool

/-- What a decoder step reports: the callbacks made, the stream left and a result. -/
structure Parsed (α : Type) where
  calls : List Callback
  is : IStream
  result : Except Error α

/-- A report behind earlier callbacks. -/
def Parsed.after {α : Type} (p : Parsed α) (earlier : List Callback) : Parsed α :=
  { p with calls := earlier ++ p.calls }

/-- Steps of the decoder; an error ends them early. -/
def DecodeM (α : Type) := IStream → Parsed α

namespace DecodeM

variable {α β : Type}

/-- Return a value. -/
protected def pure (a : α) : DecodeM α := fun is => ⟨[], is, .ok a⟩

/-- Run the second step unless the first one rejects. -/
protected def bind (m : DecodeM α) (f : α → DecodeM β) : DecodeM β := fun is =>
  match m is with
  | ⟨calls, is, .ok a⟩ => (f a is).after calls
  | ⟨calls, is, .error e⟩ => ⟨calls, is, .error e⟩

instance : Monad DecodeM where
  pure := DecodeM.pure
  bind := DecodeM.bind

/-- The stream itself. -/
def self : DecodeM IStream := fun is => ⟨[], is, .ok is⟩

/-- Assign to the stream. -/
def update (f : IStream → IStream) : DecodeM Unit := fun is => ⟨[], f is, .ok ()⟩

/-- Call the visitor. -/
def visit (call : Callback) : DecodeM Unit := fun is => ⟨[call], is, .ok ()⟩

/-- Return an error. -/
def fail (e : Error) : DecodeM α := fun is => ⟨[], is, .error e⟩

/-- The `?` operator on a result that does not touch the stream. -/
def ofExcept (result : Except Error α) : DecodeM α := fun is => ⟨[], is, result⟩

/-- Continuing after a step that returned a value. -/
theorem bind_ok {m : DecodeM α} {is is' : IStream} {calls : List Callback} {a : α}
    (h : m is = ⟨calls, is', .ok a⟩) (f : α → DecodeM β) :
    (m >>= f) is = (f a is').after calls := by
  change DecodeM.bind m f is = _
  rw [DecodeM.bind, h]

/-- An error ends the sequence. -/
theorem bind_error {m : DecodeM α} {is is' : IStream} {calls : List Callback} {e : Error}
    (h : m is = ⟨calls, is', .error e⟩) (f : α → DecodeM β) :
    (m >>= f) is = ⟨calls, is', .error e⟩ := by
  change DecodeM.bind m f is = _
  rw [DecodeM.bind, h]

/-- Steps of the parser may be grouped either way. -/
theorem bind_assoc {γ : Type} (m : DecodeM α) (f : α → DecodeM β) (g : β → DecodeM γ) :
    (m >>= f >>= g) = (m >>= fun a => f a >>= g) := by
  funext is
  rcases hm : m is with ⟨calls, is', e | a⟩
  · rw [bind_error (bind_error hm f), bind_error hm]
  · rw [bind_ok hm]
    rcases hf : f a is' with ⟨more, is'', e | b⟩
    · have hmf : (m >>= f) is = ⟨calls ++ more, is'', .error e⟩ := by
        rw [bind_ok hm, hf]
        rfl
      rw [bind_error hmf, bind_error hf]
      rfl
    · have hmf : (m >>= f) is = ⟨calls ++ more, is'', .ok b⟩ := by
        rw [bind_ok hm, hf]
        rfl
      rw [bind_ok hmf, bind_ok hf]
      simp [Parsed.after]

/-- A pure last step only maps the result. -/
theorem bind_pure_apply (m : DecodeM α) (f : α → β) (is : IStream) :
    (m >>= fun a => pure (f a)) is = ⟨(m is).calls, (m is).is, (m is).result.map f⟩ := by
  rcases hm : m is with ⟨calls, is', e | a⟩
  · rw [bind_error hm]
    rfl
  · rw [bind_ok hm]
    exact congrArg (fun calls => Parsed.mk calls is' _) (List.append_nil calls)

/-- Returning a value makes no callback and leaves the stream as it is. -/
theorem pure_apply (a : α) (is : IStream) : (pure a : DecodeM α) is = ⟨[], is, .ok a⟩ := rfl

/-- Reading the stream and continuing is continuing with it. -/
theorem self_bind (f : IStream → DecodeM α) (is : IStream) : (self >>= f) is = f is is := rfl

/-- A change of the stream is followed by continuing in the changed one. -/
theorem update_bind (g : IStream → IStream) (f : Unit → DecodeM α) (is : IStream) :
    (update g >>= f) is = f () (g is) := rfl

/-- A callback comes before those of what follows it. -/
theorem visit_bind (call : Callback) (f : Unit → DecodeM α) (is : IStream) :
    (visit call >>= f) is = (f () is).after [call] := rfl

/-- A sequence returns a value only if both steps do. -/
theorem bind_result {m : DecodeM α} {f : α → DecodeM β} {is : IStream} {b : β}
    (h : ((m >>= f) is).result = .ok b) :
    ∃ a, (m is).result = .ok a ∧ (f a (m is).is).result = .ok b := by
  change (DecodeM.bind m f is).result = _ at h
  rw [DecodeM.bind] at h
  rcases hm : m is with ⟨calls, is', _ | a⟩
  · rw [hm] at h
    cases h
  · rw [hm] at h
    exact ⟨a, rfl, h⟩

/-- A choice returns what one of its branches returns. -/
theorem ite_result {p q : Prop} [Decidable p] {m n : DecodeM α} {is : IStream} {a : α}
    (h : ((if p then m else n) is).result = .ok a) (hpos : (m is).result = .ok a → q)
    (hneg : (n is).result = .ok a → q) : q := by
  split at h
  · exact hpos h
  · exact hneg h

end DecodeM

open DecodeM

/-- The float callback for the little-endian bytes at `pos`. -/
def emitFixlenValue (fp64 : Bool) (buf : List UInt8) (pos : ℕ) (id : Id) : Callback :=
  if fp64 then
    .fp64 id (UInt64.ofNat (Digits.leNat ((buf.drop pos).take 8)))
  else
    .fp32 id (UInt32.ofNat (Digits.leNat ((buf.drop pos).take 4)))

/-- The width of a float element. -/
def elemLen (fp64 : Bool) : ℕ := if fp64 then 8 else 4

namespace IStream

/-- A fresh decoder. -/
def new : IStream :=
  { carry := List.replicate carryCap 0
    carrySize := List.length_replicate
    carryLen := 0
    resume := .none
    depth := 0
    invalid := false }

/-- Ready the decoder for a new message. -/
def reset (is : IStream) : IStream :=
  { is with carryLen := 0, resume := .none, depth := 0, invalid := false }

/-- Copy bytes into the carry at `at_`. -/
def storeCarry (is : IStream) (at_ : ℕ) (bytes : List UInt8) : IStream :=
  { is with
    carry := Splice.overwrite is.carry at_ bytes
    carrySize := (Splice.overwrite_length _ _ _).trans is.carrySize }

/-- A clean message boundary: nothing carried, nothing in progress, no sequence open. -/
def atBoundary (is : IStream) : Bool :=
  decide (is.carryLen = 0) && decide (is.resume = .none) && decide (is.depth = 0)

/-- Where the cursor sits once parsing returned without rejecting. -/
def verdict (is : IStream) : Status :=
  if is.atBoundary then .complete else .incomplete

/-- Record a terminal verdict and hand the error back. -/
def latch {α : Type} (m : DecodeM α) : DecodeM α := fun is =>
  match m is with
  | ⟨calls, is, .error e⟩ =>
    ⟨calls, if e = .invalidMsg then { is with invalid := true } else is, .error e⟩
  | parsed => parsed

/-- The bulk loop of `intArray`: elements with ten readable bytes. The remaining count and
the cursor. -/
def intArrayBulk (signed : Bool) (buf : List UInt8) (id : Id) : ℕ → ℕ → DecodeM (ℕ × ℕ)
  | 0, p => pure (0, p)
  | rem + 1, p =>
    if p + maxVarintLen ≤ buf.length then do
      let (val, p) ← ofExcept (readVarintReady buf p)
      visit (.integer signed id val)
      intArrayBulk signed buf id rem p
    else
      pure (rem + 1, p)

/-- The tail loop of `intArray`: an element may straddle the chunk. -/
def intArrayTail (signed : Bool) (buf : List UInt8) (id : Id) : ℕ → ℕ → DecodeM ℕ
  | 0, p => pure p
  | rem + 1, p => do
    let elemStart := p
    match ← ofExcept (readVarint buf p) with
    | some (val, p) =>
      visit (.integer signed id val)
      intArrayTail signed buf id rem p
    | none =>
      update fun is => { is with resume := .arrayInt id signed (rem + 1) }
      pure elemStart

/-- Read `rem` varint array elements; an unfinished element is left to the next chunk. -/
def intArray (signed : Bool) (buf : List UInt8) (pos : ℕ) (id : Id) (rem : ℕ) : DecodeM ℕ := do
  let (rem, p) ← intArrayBulk signed buf id rem pos
  intArrayTail signed buf id rem p

/-- Read `rem` fixed-width float elements. -/
def fixArray (fp64 : Bool) (buf : List UInt8) (id : Id) : ℕ → ℕ → DecodeM ℕ
  | 0, p => pure p
  | rem + 1, p =>
    if buf.length - p < elemLen fp64 then do
      update fun is => { is with resume := .arrayFix id fp64 (rem + 1) }
      pure p
    else do
      visit (emitFixlenValue fp64 buf p id)
      fixArray fp64 buf id rem (p + elemLen fp64)

/-- Deliver as much of a payload in progress as `buf` holds. -/
def deliverPayload (buf : List UInt8) (pos : ℕ) : DecodeM ℕ := do
  match (← self).resume with
  | .payload id isBlob total remaining =>
    let avail := min (buf.length - pos) remaining
    if 0 < avail then
      let offset := total - remaining
      let chunk := (buf.drop pos).take avail
      visit (.payload isBlob id total offset chunk)
      let rem := remaining - avail
      update fun is =>
        { is with resume := if rem = 0 then .none else .payload id isBlob total rem }
      pure (pos + avail)
    else
      pure pos
  | _ => pure pos

/-- Continue the one item that was in progress when the previous chunk ran out. -/
def resumeItem (buf : List UInt8) (pos : ℕ) : DecodeM ℕ := do
  match (← self).resume with
  | .none => pure pos
  | .payload _ _ _ _ => deliverPayload buf pos
  | .arrayInt id signed remaining =>
    update fun is => { is with resume := .none }
    intArray signed buf pos id remaining
  | .arrayFix id fp64 remaining =>
    update fun is => { is with resume := .none }
    fixArray fp64 buf id remaining pos

/-- How one turn of the field loop ends: with the next field, or by returning. -/
inductive Turn
  | proceed (pos : ℕ)
  | finish (pos : ℕ)

/-- Return from the field loop when an item was suspended. -/
def orSuspended (pos : ℕ) : DecodeM Turn := do
  if (← self).resume = .none then pure (.proceed pos) else pure (.finish pos)

/-- The arms of the scalar integer types. -/
def parseVarint (signed : Bool) (buf : List UInt8) (fieldStart pos : ℕ) (id : Id) :
    DecodeM Turn := do
  match ← ofExcept (readVarint buf pos) with
  | some (val, pos) =>
    visit (.integer signed id val)
    pure (.proceed pos)
  | none => pure (.finish fieldStart)

/-- The float arms of a scalar fixlen field: a run of one element. -/
def parseFloat (fp64 : Bool) (buf : List UInt8) (pos : ℕ) (id : Id) (len : ℕ) : DecodeM Turn := do
  if len ≠ elemLen fp64 then
    fail .invalidMsg
  else
    visit (.fixlenBegin id (if fp64 then .fp64 else .fp32) len)
    let pos ← fixArray fp64 buf id 1 pos
    orSuspended pos

/-- The string and blob arm of a scalar fixlen field. -/
def parsePayload (isBlob : Bool) (buf : List UInt8) (pos : ℕ) (id : Id) (len : ℕ) :
    DecodeM Turn := do
  visit (.fixlenBegin id (if isBlob then .blob else .str) len)
  if len ≤ buf.length - pos then
    visit (.payload isBlob id len 0 ((buf.drop pos).take len))
    pure (.proceed (pos + len))
  else
    update fun is => { is with resume := .payload id isBlob len len }
    let pos ← deliverPayload buf pos
    pure (.finish pos)

/-- The arm of a scalar fixlen field. -/
def parseFixlen (buf : List UInt8) (fieldStart pos : ℕ) (id : Id) : DecodeM Turn := do
  match ← ofExcept (readVarint buf pos) with
  | none => pure (.finish fieldStart)
  | some (word, pos) =>
    if fixlenMax < (word >>> 3).toNat then
      fail .invalidMsg
    else
      let len := (word >>> 3).toNat
      let tag := (word &&& (0x07 : UInt64)).toUInt8
      if tag = FixlenType.fp32.tag then
        parseFloat false buf pos id len
      else if tag = FixlenType.fp64.tag then
        parseFloat true buf pos id len
      else if tag = FixlenType.str.tag ∨ tag = FixlenType.blob.tag then
        parsePayload (decide (tag = FixlenType.blob.tag)) buf pos id len
      else
        fail .invalidMsg

/-- The arms of the integer arrays. -/
def parseVarintArray (signed : Bool) (buf : List UInt8) (fieldStart pos : ℕ) (id : Id) :
    DecodeM Turn := do
  match ← ofExcept (readVarint buf pos) with
  | none => pure (.finish fieldStart)
  | some (count, pos) =>
    if arrayMax < count.toNat then
      fail .invalidMsg
    else
      visit (.arrayBegin id (if signed then .signed else .unsigned) count.toNat)
      let pos ← intArray signed buf pos id count.toNat
      orSuspended pos

/-- The float subtype named by the word of a float array, which admits one width each. -/
def fixlenArrayType (word : Unsigned) : Option Bool :=
  let tag := (word &&& (0x07 : UInt64)).toUInt8
  let width := word >>> 3
  if tag = FixlenType.fp32.tag ∧ width = 4 then some false
  else if tag = FixlenType.fp64.tag ∧ width = 8 then some true
  else none

/-- The arm of the float array. -/
def parseFixlenArray (buf : List UInt8) (fieldStart pos : ℕ) (id : Id) : DecodeM Turn := do
  match ← ofExcept (readVarint buf pos) with
  | none => pure (.finish fieldStart)
  | some (count, pos) =>
    if arrayMax < count.toNat then
      fail .invalidMsg
    else
      match ← ofExcept (readVarint buf pos) with
      | none => pure (.finish fieldStart)
      | some (word, pos) =>
        match fixlenArrayType word with
        | none => fail .invalidMsg
        | some fp64 =>
          visit (.arrayBegin id (if fp64 then .fp64 else .fp32) count.toNat)
          let pos ← fixArray fp64 buf id count.toNat pos
          orSuspended pos

/-- The arm that opens a sequence. -/
def parseSequenceStart (pos : ℕ) (id : Id) : DecodeM Turn := do
  if maxDepth ≤ (← self).depth then
    fail .invalidMsg
  else
    update fun is => { is with depth := is.depth + 1 }
    visit (.sequenceBegin id)
    pure (.proceed pos)

/-- The arm that closes a sequence. -/
def parseSequenceEnd (pos : ℕ) : DecodeM Turn := do
  if (← self).depth = 0 then
    fail .invalidMsg
  else
    update fun is => { is with depth := is.depth - 1 }
    visit .sequenceEnd
    pure (.proceed pos)

/-- One turn of the field loop: a header and the arm of its wire type. -/
def parseField (buf : List UInt8) (fieldStart : ℕ) : DecodeM Turn := do
  match ← ofExcept (readVarint buf fieldStart) with
  | none => pure (.finish fieldStart)
  | some (header, pos) =>
    let wire := (header &&& (0x07 : UInt64)).toUInt8
    let idRaw := header >>> 3
    if idMax < idRaw.toNat then
      fail .invalidMsg
    else
      let id : Id := idRaw.toUInt32
      if wire = tVarintUnsigned then parseVarint false buf fieldStart pos id
      else if wire = tVarintSigned then parseVarint true buf fieldStart pos id
      else if wire = tFixlen then parseFixlen buf fieldStart pos id
      else if wire = tVarintArrayUnsigned then parseVarintArray false buf fieldStart pos id
      else if wire = tVarintArraySigned then parseVarintArray true buf fieldStart pos id
      else if wire = tFixlenArray then parseFixlenArray buf fieldStart pos id
      else if wire = tSequenceStart then parseSequenceStart pos id
      else if wire = tSequenceEnd then parseSequenceEnd pos
      else fail .invalidMsg

/-- Array loops only move the cursor forward. -/
theorem intArrayBulk_advances {signed : Bool} {buf : List UInt8} {id : Id} {rem p : ℕ}
    {is : IStream} {out : ℕ × ℕ} (h : (intArrayBulk signed buf id rem p is).result = .ok out) :
    p ≤ out.2 := by
  induction rem generalizing p is with
  | zero =>
    cases h
    exact Nat.le_refl _
  | succ rem ih =>
    rw [intArrayBulk] at h
    split at h
    · next hroom =>
      obtain ⟨⟨val, p'⟩, hread, h⟩ := bind_result h
      obtain ⟨-, -, h⟩ := bind_result h
      have hread' : readVarint buf p = .ok (some (val, p')) := by
        rw [readVarintReady_eq hroom, show readVarintReady buf p = .ok (val, p') from hread]
        rfl
      exact (readVarint_advances hread').le.trans (ih h)
    · cases h
      exact Nat.le_refl _

/-- The tail loop only moves the cursor forward. -/
theorem intArrayTail_advances {signed : Bool} {buf : List UInt8} {id : Id} {rem p next : ℕ}
    {is : IStream} (h : (intArrayTail signed buf id rem p is).result = .ok next) : p ≤ next := by
  induction rem generalizing p is with
  | zero =>
    cases h
    exact Nat.le_refl _
  | succ rem ih =>
    rw [intArrayTail] at h
    obtain ⟨_ | ⟨val, p'⟩, hread, h⟩ := bind_result h
    · obtain ⟨-, -, h⟩ := bind_result h
      cases h
      exact Nat.le_refl _
    · obtain ⟨-, -, h⟩ := bind_result h
      exact (readVarint_advances hread).le.trans (ih h)

/-- Reading array elements only moves the cursor forward. -/
theorem intArray_advances {signed : Bool} {buf : List UInt8} {id : Id} {rem p next : ℕ}
    {is : IStream} (h : (intArray signed buf p id rem is).result = .ok next) : p ≤ next := by
  obtain ⟨⟨rem', p'⟩, hbulk, htail⟩ := bind_result h
  exact (intArrayBulk_advances hbulk).trans (intArrayTail_advances htail)

/-- Reading float elements only moves the cursor forward. -/
theorem fixArray_advances {fp64 : Bool} {buf : List UInt8} {id : Id} {rem p next : ℕ}
    {is : IStream} (h : (fixArray fp64 buf id rem p is).result = .ok next) : p ≤ next := by
  induction rem generalizing p is with
  | zero =>
    cases h
    exact Nat.le_refl _
  | succ rem ih =>
    rw [fixArray] at h
    split at h
    · obtain ⟨-, -, h⟩ := bind_result h
      cases h
      exact Nat.le_refl _
    · obtain ⟨-, -, h⟩ := bind_result h
      exact (Nat.le_add_right p _).trans (ih h)

/-- Going on after an array keeps the cursor. -/
theorem orSuspended_proceed {pos next : ℕ} {is : IStream}
    (h : (orSuspended pos is).result = .ok (.proceed next)) : pos = next := by
  rw [orSuspended] at h
  obtain ⟨_, -, h⟩ := bind_result h
  split at h <;> cases h
  rfl

/-- The arm of a varint never goes back. -/
theorem parseVarint_advances {signed : Bool} {buf : List UInt8} {fieldStart pos next : ℕ} {id : Id}
    {is : IStream} (h : (parseVarint signed buf fieldStart pos id is).result = .ok (.proceed next)) :
    pos ≤ next := by
  rw [parseVarint] at h
  obtain ⟨_ | ⟨val, pos'⟩, hread, h⟩ := bind_result h
  · cases h
  · obtain ⟨-, -, h⟩ := bind_result h
    cases h
    exact (readVarint_advances hread).le

/-- The arm of a float never goes back. -/
theorem parseFloat_advances {fp64 : Bool} {buf : List UInt8} {pos len next : ℕ} {id : Id}
    {is : IStream} (h : (parseFloat fp64 buf pos id len is).result = .ok (.proceed next)) :
    pos ≤ next := by
  rw [parseFloat] at h
  split at h
  · cases h
  · obtain ⟨-, -, h⟩ := bind_result h
    obtain ⟨pos', hfix, h⟩ := bind_result h
    exact (fixArray_advances hfix).trans_eq (orSuspended_proceed h)

/-- The arm of a payload never goes back. -/
theorem parsePayload_advances {isBlob : Bool} {buf : List UInt8} {pos len next : ℕ} {id : Id}
    {is : IStream} (h : (parsePayload isBlob buf pos id len is).result = .ok (.proceed next)) :
    pos ≤ next := by
  rw [parsePayload] at h
  obtain ⟨-, -, h⟩ := bind_result h
  split at h
  · obtain ⟨-, -, h⟩ := bind_result h
    cases h
    exact Nat.le_add_right _ _
  · obtain ⟨-, -, h⟩ := bind_result h
    obtain ⟨_, -, h⟩ := bind_result h
    cases h

/-- The arm of a fixlen field never goes back. -/
theorem parseFixlen_advances {buf : List UInt8} {fieldStart pos next : ℕ} {id : Id} {is : IStream}
    (h : (parseFixlen buf fieldStart pos id is).result = .ok (.proceed next)) : pos ≤ next := by
  rw [parseFixlen] at h
  obtain ⟨_ | ⟨word, pos'⟩, hread, h⟩ := bind_result h
  · cases h
  · refine (readVarint_advances hread).le.trans ?_
    refine ite_result h (fun hfail => by cases hfail) fun h => ?_
    refine ite_result h parseFloat_advances fun h => ?_
    refine ite_result h parseFloat_advances fun h => ?_
    exact ite_result h parsePayload_advances fun hfail => by cases hfail

/-- The arm of an integer array never goes back. -/
theorem parseVarintArray_advances {signed : Bool} {buf : List UInt8} {fieldStart pos next : ℕ}
    {id : Id} {is : IStream}
    (h : (parseVarintArray signed buf fieldStart pos id is).result = .ok (.proceed next)) :
    pos ≤ next := by
  rw [parseVarintArray] at h
  obtain ⟨_ | ⟨count, pos'⟩, hread, h⟩ := bind_result h
  · cases h
  · refine (readVarint_advances hread).le.trans ?_
    simp only at h
    split at h
    · cases h
    · obtain ⟨-, -, h⟩ := bind_result h
      obtain ⟨stop, hint, h⟩ := bind_result h
      exact (intArray_advances hint).trans_eq (orSuspended_proceed h)

/-- The arm of a float array never goes back. -/
theorem parseFixlenArray_advances {buf : List UInt8} {fieldStart pos next : ℕ} {id : Id}
    {is : IStream}
    (h : (parseFixlenArray buf fieldStart pos id is).result = .ok (.proceed next)) : pos ≤ next := by
  rw [parseFixlenArray] at h
  obtain ⟨_ | ⟨count, pos'⟩, hread, h⟩ := bind_result h
  · cases h
  · refine (readVarint_advances hread).le.trans ?_
    simp only at h
    split at h
    · cases h
    · obtain ⟨_ | ⟨word, pos''⟩, hword, h⟩ := bind_result h
      · cases h
      · refine (readVarint_advances hword).le.trans ?_
        rcases htype : fixlenArrayType word with _ | fp64
        · simp only [htype] at h
          cases h
        · simp only [htype] at h
          obtain ⟨-, -, h⟩ := bind_result h
          obtain ⟨stop, hfix, h⟩ := bind_result h
          exact (fixArray_advances hfix).trans_eq (orSuspended_proceed h)

/-- The arm that opens a sequence never goes back. -/
theorem parseSequenceStart_advances {pos next : ℕ} {id : Id} {is : IStream}
    (h : (parseSequenceStart pos id is).result = .ok (.proceed next)) : pos ≤ next := by
  rw [parseSequenceStart] at h
  obtain ⟨_, -, h⟩ := bind_result h
  split at h
  · cases h
  · obtain ⟨-, -, h⟩ := bind_result h
    obtain ⟨-, -, h⟩ := bind_result h
    cases h
    exact Nat.le_refl _

/-- The arm that closes a sequence never goes back. -/
theorem parseSequenceEnd_advances {pos next : ℕ} {is : IStream}
    (h : (parseSequenceEnd pos is).result = .ok (.proceed next)) : pos ≤ next := by
  rw [parseSequenceEnd] at h
  obtain ⟨_, -, h⟩ := bind_result h
  split at h
  · cases h
  · obtain ⟨-, -, h⟩ := bind_result h
    obtain ⟨-, -, h⟩ := bind_result h
    cases h
    exact Nat.le_refl _

/-- A turn that goes on to the next field consumed at least its header. -/
theorem parseField_advances {buf : List UInt8} {fieldStart next : ℕ} {is : IStream}
    (h : (parseField buf fieldStart is).result = .ok (.proceed next)) : fieldStart < next := by
  rw [parseField] at h
  obtain ⟨_ | ⟨header, pos⟩, hread, h⟩ := bind_result h
  · cases h
  · refine (readVarint_advances hread).trans_le ?_
    refine ite_result h (fun hfail => by cases hfail) fun h => ?_
    refine ite_result h parseVarint_advances fun h => ?_
    refine ite_result h parseVarint_advances fun h => ?_
    refine ite_result h parseFixlen_advances fun h => ?_
    refine ite_result h parseVarintArray_advances fun h => ?_
    refine ite_result h parseVarintArray_advances fun h => ?_
    refine ite_result h parseFixlenArray_advances fun h => ?_
    refine ite_result h parseSequenceStart_advances fun h => ?_
    exact ite_result h parseSequenceEnd_advances fun hfail => by cases hfail

/-- The field loop from `pos` on. -/
def parseFields (buf : List UInt8) (pos : ℕ) : DecodeM ℕ := fun is =>
  if buf.length ≤ pos then
    ⟨[], is, .ok pos⟩
  else
    match _h : parseField buf pos is with
    | ⟨calls, is', .ok (.proceed next)⟩ => (parseFields buf next is').after calls
    | ⟨calls, is', .ok (.finish stop)⟩ => ⟨calls, is', .ok stop⟩
    | ⟨calls, is', .error e⟩ => ⟨calls, is', .error e⟩
termination_by buf.length - pos
decreasing_by
  have hnext := parseField_advances (congrArg Parsed.result _h)
  omega

/-- At the end of the buffer the field loop returns. -/
theorem parseFields_of_le {buf : List UInt8} {pos : ℕ} (is : IStream) (h : buf.length ≤ pos) :
    parseFields buf pos is = ⟨[], is, .ok pos⟩ := by
  rw [parseFields, if_pos h]

/-- A turn that went on is followed by the loop from there. -/
theorem parseFields_of_proceed {buf : List UInt8} {pos next : ℕ} {is is' : IStream}
    {calls : List Callback} (hlt : pos < buf.length)
    (h : parseField buf pos is = ⟨calls, is', .ok (.proceed next)⟩) :
    parseFields buf pos is = (parseFields buf next is').after calls := by
  rw [parseFields, if_neg (Nat.not_le.mpr hlt)]
  split <;> simp_all

/-- A turn that returned ends the loop. -/
theorem parseFields_of_finish {buf : List UInt8} {pos stop : ℕ} {is is' : IStream}
    {calls : List Callback} (hlt : pos < buf.length)
    (h : parseField buf pos is = ⟨calls, is', .ok (.finish stop)⟩) :
    parseFields buf pos is = ⟨calls, is', .ok stop⟩ := by
  rw [parseFields, if_neg (Nat.not_le.mpr hlt)]
  split <;> simp_all

/-- An error ends the loop. -/
theorem parseFields_of_error {buf : List UInt8} {pos : ℕ} {is is' : IStream}
    {calls : List Callback} {e : Error} (hlt : pos < buf.length)
    (h : parseField buf pos is = ⟨calls, is', .error e⟩) :
    parseFields buf pos is = ⟨calls, is', .error e⟩ := by
  rw [parseFields, if_neg (Nat.not_le.mpr hlt)]
  split <;> simp_all

/-- Parse as many fields as possible; the number of bytes fully consumed. -/
def parse (buf : List UInt8) : DecodeM ℕ := do
  if (← self).resume = .none then
    parseFields buf 0
  else
    let pos ← resumeItem buf 0
    -- this chunk may not finish the item either
    if (← self).resume = .none then
      parseFields buf pos
    else
      pure pos

/-- Hold the start of an item the chunk ran out inside until the next feed. -/
def stash (tail : List UInt8) : DecodeM Unit :=
  if carryCap < tail.length then
    latch (fail .invalidMsg)
  else do
    update fun is => is.storeCarry 0 tail
    update fun is => { is with carryLen := tail.length }

/-- Complete the carried item with the head of `chunk`: what is left of the chunk, or `none`
when it was absorbed whole. -/
def resumeCarried (chunk : List UInt8) : DecodeM (Option (List UInt8)) := do
  let held := (← self).carryLen
  let take := min (carryCap - held) chunk.length
  update fun is => is.storeCarry held (chunk.take take)
  let stitched := held + take
  let buf := (← self).carry
  let consumed ← latch (parse (buf.take stitched))
  if held ≤ consumed then
    update fun is => { is with carryLen := 0 }
    pure (some (chunk.drop (consumed - held)))
  else
    update fun is => is.storeCarry 0 ((is.carry.take stitched).drop consumed)
    update fun is => { is with carryLen := stitched - consumed }
    if take < chunk.length then
      latch (fail .invalidMsg)
    else
      pure none

/-- Deliver the bytes past the carry to the payload in progress or to the parser: the number
of bytes consumed. -/
def consume (rest : List UInt8) : DecodeM ℕ := do
  match (← self).resume with
  | .payload _ _ _ _ =>
    let pos ← deliverPayload rest 0
    if (← self).resume = .none then
      let more ← latch (parse (rest.drop pos))
      pure (pos + more)
    else
      pure pos
  | _ => latch (parse rest)

/-- The in-place path of `feed`. -/
def feedRest (rest : List UInt8) : DecodeM Status := do
  let consumed ← consume rest
  if consumed < rest.length then
    stash (rest.drop consumed)
  return (← self).verdict

/-- Feed a chunk of encoded bytes, pushing decoded fields to the visitor. -/
def feed (chunk : List UInt8) : DecodeM Status := do
  if (← self).invalid then
    fail .invalidMsg
  else if (← self).carryLen = 0 then
    feedRest chunk
  else
    match ← resumeCarried chunk with
    | some rest => feedRest rest
    | none => return (← self).verdict

/-- Feed a non-empty list of chunks in order, whatever each one reports. -/
def feedAll (is : IStream) (chunk : List UInt8) : List (List UInt8) → Parsed Status
  | [] => feed chunk is
  | next :: rest => (feedAll (feed chunk is).is next rest).after (feed chunk is).calls

end IStream

/-- Decode a contiguous message in one shot. -/
def decode (buf : List UInt8) : Parsed Status := IStream.feed buf IStream.new

end Sofab
