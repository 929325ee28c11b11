import Mathlib.Data.List.Basic
import Sofab.Lib.Steps
import Sofab.Types

/-!
# Wrapper-array slots

What a generated visitor does around the callbacks of a wrapper array: it checks an element id
against the bound that governs it, and makes the slot that the element lands in. Every
reservation has a twin for a destination that still holds an earlier decode. A slot that is
handed back is named by its index.
-/

namespace Sofab

open Steps Step

/-- The one bound that governs an element index: of the schema, or of the receiver. -/
inductive Bound
  | schema (n : ℕ)
  | cap (n : ℕ)
  deriving DecidableEq, Repr

/-- The destination of a wrapper array: slots that can grow in number. What is written
through a slot is `write`. -/
class SeqVec (C : Type) (α : outParam Type) where
  len : C → ℕ
  growTo : C → ℕ → C × Bool
  slotMut : C → ℕ → Option α
  write : C → ℕ → α → C
  truncate : C → ℕ → C
  clear : C → C

namespace SeqVec

/-- Assign to the slot at `i`, if there is one. -/
def modify {C α : Type} [SeqVec C α] (out : C) (i : ℕ) (f : α → α) : C :=
  match slotMut out i with
  | none => out
  | some x => write out i (f x)

end SeqVec

/-- A growable container. -/
structure Vec (α : Type) where
  slots : List α
  deriving DecidableEq, Repr

/-- A container of at most `N` slots. -/
structure HeaplessVec (N : ℕ) (α : Type) where
  slots : List α
  fits : slots.length ≤ N
  deriving DecidableEq, Repr

instance {α : Type} : Inhabited (Vec α) := ⟨⟨[]⟩⟩

instance {N : ℕ} {α : Type} : Inhabited (HeaplessVec N α) := ⟨⟨[], Nat.zero_le N⟩⟩

section Containers

variable {α : Type} [Inhabited α]

/-- The push loop of a growable container, `left` slots from its end. -/
def Vec.pushDefaults (vec : Vec α) : ℕ → Vec α
  | 0 => vec
  | left + 1 => Vec.pushDefaults ⟨vec.slots ++ [default]⟩ left

instance : SeqVec (Vec α) α where
  len vec := vec.slots.length
  growTo vec len := (vec.pushDefaults (len - vec.slots.length), true)
  slotMut vec i := vec.slots[i]?
  write vec i x := ⟨vec.slots.set i x⟩
  truncate vec len := ⟨vec.slots.take len⟩
  clear _ := ⟨[]⟩

variable {N : ℕ}

/-- Append a slot unless the container is full. -/
def HeaplessVec.push (vec : HeaplessVec N α) (x : α) : Option (HeaplessVec N α) :=
  if hroom : vec.slots.length < N then
    some ⟨vec.slots ++ [x], by rw [List.length_append, List.length_singleton]; exact hroom⟩
  else
    none

/-- The push loop of a fixed container, `left` slots from its end. -/
def HeaplessVec.pushDefaults (vec : HeaplessVec N α) : ℕ → HeaplessVec N α × Bool
  | 0 => (vec, true)
  | left + 1 =>
    match vec.push default with
    | none => (vec, false)
    | some vec => HeaplessVec.pushDefaults vec left

instance : SeqVec (HeaplessVec N α) α where
  len vec := vec.slots.length
  growTo vec len :=
    -- refused up front, so that a full container never grows part of the way
    if N < len then (vec, false) else vec.pushDefaults (len - vec.slots.length)
  slotMut vec i := vec.slots[i]?
  write vec i x := ⟨vec.slots.set i x, by rw [List.length_set]; exact vec.fits⟩
  truncate vec len := ⟨vec.slots.take len, Nat.le_trans (List.length_take_le' _ _) vec.fits⟩
  clear vec := ⟨vec.slots.take 0, Nat.le_trans (List.length_take_le' _ _) vec.fits⟩

end Containers

/-- Check an element id against the bound on the array's index. -/
def checkIndex (id : Id) : Bound → Except Error Unit
  | .schema n => if n ≤ id.toNat then .error .invalidMsg else .ok ()
  | .cap 0 => .error .argument
  | .cap n => if n ≤ id.toNat then .error .limitExceeded else .ok ()

/-- Check a length or a count that the wire announces against the bound on it. -/
def checkLen (len : ℕ) : Bound → Except Error Unit
  | .schema n => if n < len then .error .invalidMsg else .ok ()
  | .cap 0 => .error .argument
  | .cap n => if n < len then .error .limitExceeded else .ok ()

open SeqVec

/-! ## Into a container that starts empty -/

section Reserving

variable {C α : Type} [SeqVec C α]

/-- Grow a container that is too short for the slot at `i`. -/
def growFor (i : ℕ) : Step C Error Unit := fun out =>
  if len out ≤ i then
    match growTo out (i + 1) with
    | (out, true) => (out, .ok ())
    | (out, false) => (out, .err .argument)
  else
    (out, .ok ())

/-- Hand back the slot at `i`. -/
def slotAt (i : ℕ) : Step C Error ℕ := fun out =>
  (out, if (slotMut out i).isSome then .ok i else .err .argument)

/-- Reserve the slot that element `id` lands in. -/
def reserveElem (id : Id) (bound : Bound) : Step C Error ℕ := do
  ofExcept (checkIndex id bound)
  growFor id.toNat
  slotAt id.toNat

/-- Place a decoded leaf element at the index its id names. -/
def placeElem (id : Id) (bound : Bound) (value : α) : Step C Error Unit := do
  let i ← reserveElem id bound
  update fun out => modify out i fun _ => value

/-- Reserve a matrix row and empty it. -/
def reserveRow {β : Type} [SeqVec α β] (id : Id) (bound : Bound) : Step C Error ℕ := do
  let i ← reserveElem id bound
  update fun out => modify out i clear
  pure i

end Reserving

/-! ## Into a container that holds an earlier decode -/

/-- A container with the number of slots this decode has made so far. -/
structure Reused (C : Type) where
  out : C
  live : ℕ

section Reusing

variable {C α : Type} [SeqVec C α]

/-- A step on the container alone. -/
def Reused.onOut {β : Type} (m : Step C Error β) : Step (Reused C) Error β := fun reused =>
  let (out, exit) := m reused.out
  ({ reused with out := out }, exit)

/-- Reset the slot at `i` by the caller's hook, if so asked, and hand it back. -/
def resetAt (ask : Bool) (reset : α → α) (i : ℕ) : Step C Error ℕ := do
  let i ← slotAt i
  update fun out => if ask then modify out i reset else out
  pure i

/-- Reset `left` slots from `j` on. -/
def resetFrom (reset : α → α) (j : ℕ) : ℕ → Step C Error Unit
  | 0 => pure ()
  | left + 1 => do
    let _ ← resetAt true reset j
    resetFrom reset (j + 1) left

/-- The body of the reusing reservations; `replace` resets a slot that this decode already
made instead of handing it back to merge into. -/
def reuseSlot (replace : Bool) (id : Id) (bound : Bound) (reset : α → α) :
    Step (Reused C) Error ℕ := do
  ofExcept (checkIndex id bound)
  let i := id.toNat
  let live := (← self).live
  let len := len (← self).out
  if i = live ∧ i < len then do
    -- the steady state: ids in order into a slot that an earlier decode left
    let i ← Reused.onOut (resetAt true reset i)
    update fun reused => { reused with live := i + 1 }
    pure i
  else if i < live then
    Reused.onOut (resetAt replace reset i)
  else do
    Reused.onOut (growFor i)
    Reused.onOut (resetFrom reset live (min len i - live))
    let i ← Reused.onOut (resetAt (decide (i < len)) reset i)
    update fun reused => { reused with live := i + 1 }
    pure i

/-- `reserveElem` for a reused container. -/
def reuseElem (id : Id) (bound : Bound) (reset : α → α) : Step (Reused C) Error ℕ :=
  reuseSlot false id bound reset

/-- `placeElem` for a reused container: the slot is handed back to be written into. -/
def reuseLeaf (id : Id) (bound : Bound) (reset : α → α) : Step (Reused C) Error ℕ :=
  reuseSlot true id bound reset

/-- `reserveRow` for a reused container. -/
def reuseRow {β : Type} [SeqVec α β] (id : Id) (bound : Bound) : Step (Reused C) Error ℕ :=
  reuseSlot true id bound clear

end Reusing

end Sofab
