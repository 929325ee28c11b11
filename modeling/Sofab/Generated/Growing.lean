import Mathlib.Data.List.TakeWhile
import Sofab.Placement
import Sofab.Generated.Decoder

/-!
# A wrapper array that grows

What the code generator emits to receive an array whose schema gives no bound: the container is
extended to the highest index that arrives, and the receiver's cap refuses an index before the
container grows to it. A refusal is latched. The elements are strings, or structs that come in
sequences of their own.
-/

namespace Sofab.Generated

open IStream Steps Step SeqVec LawfulSeqVec

/-! ## Text out of any bytes -/

/-- A byte that continues a character. -/
def isContinuation (b : UInt8) : Bool := 0x80 ≤ b && b ≤ 0xBF

/-- Whether a byte can follow the first one of a character of three or four bytes. -/
def followsLead (b b₁ : UInt8) : Bool :=
  if b = 0xE0 then 0xA0 ≤ b₁ && b₁ ≤ 0xBF
  else if b = 0xED then 0x80 ≤ b₁ && b₁ ≤ 0x9F
  else if b = 0xF0 then 0x90 ≤ b₁ && b₁ ≤ 0xBF
  else if b = 0xF4 then 0x80 ≤ b₁ && b₁ ≤ 0x8F
  else 0xE1 ≤ b && b ≤ 0xF3 && isContinuation b₁

/-- How many bytes that no character starts with are replaced at once. -/
def illFormed : List UInt8 → ℕ
  | b :: b₁ :: rest =>
    if followsLead b b₁ then
      match rest with
      | b₂ :: _ => if 0xF0 ≤ b ∧ isContinuation b₂ then 3 else 2
      | [] => 2
    else
      1
  | _ => 1

/-- The characters of some bytes, with replacements; `fuel` is at least their number. -/
def lossyChars : ℕ → List UInt8 → List Char
  | 0, _ => []
  | fuel + 1, data =>
    if data = [] then []
    else
      match ByteArray.utf8DecodeChar? ⟨data.toArray⟩ 0 with
      | some c => c :: lossyChars fuel (data.drop c.utf8Size)
      | none => Char.ofNat 0xFFFD :: lossyChars fuel (data.drop (illFormed data))

/-- `String::from_utf8_lossy`. -/
def fromUtf8Lossy (data : List UInt8) : String :=
  match fromUtf8 data with
  | some text => text
  | none => String.ofList (lossyChars data.length data)

/-! ## The destination -/

/-- What one slot holds. -/
inductive Slot
  | default
  | str (text : String)
  | num (value : Unsigned)
  deriving DecidableEq, Repr

instance : Inhabited Slot := ⟨.default⟩

/-- A slot that is appended to is a string. -/
def Slot.append (text : String) : Slot → Slot
  | .str s => .str (s ++ text)
  | _ => .str text

/-- A growing destination with a receiver cap on the index. `depth` is 1 inside the array and
`current` the element whose sequence is open. -/
structure Growing where
  fieldId : Id
  cap : ℕ
  depth : ℕ
  current : Option ℕ
  slots : Vec Slot
  verdict : Option Error

/-- What a method does that returns or panics. -/
abbrev GrowingM := Step Growing Empty

namespace Growing

/-- An empty container for a field and a cap. -/
def new (fieldId : Id) (cap : ℕ) : Growing := ⟨fieldId, cap, 0, none, ⟨[]⟩, none⟩

/-- Admit an index, or refuse it and latch the verdict. -/
def admitIndex (index : ℕ) : GrowingM Bool := fun g =>
  if g.verdict.isSome then (g, .ok false)
  else if UInt32.size ≤ index then ({ g with verdict := some .limitExceeded }, .ok false)
  else
    match reserveElem (UInt32.ofNat index) (.cap g.cap) g.slots with
    | (slots, .ok _) => ({ g with slots := slots }, .ok true)
    | (slots, .err e) => ({ g with slots := slots, verdict := some e }, .ok false)
    | (slots, .unwound) => ({ g with slots := slots }, .unwound)

/-- Panic if a frame is not that of the array. -/
def assertFrame (id : Id) : GrowingM Unit := fun g =>
  if id = g.fieldId then (g, .ok ()) else (g, .unwound)

/-- The outermost frame has to be that of the array. -/
def sequenceBegin (id : Id) : GrowingM Unit := do
  update fun g => { g with depth := g.depth + 1 }
  let g ← self
  if g.depth = 1 then
    assertFrame id
  else if g.depth = 2 ∧ g.verdict.isNone then do
    let admitted ← admitIndex id.toNat
    if admitted then update fun g => { g with current := some id.toNat } else pure ()
  else
    pure ()

/-- An element ends with its own sequence. -/
def sequenceEnd : GrowingM Unit :=
  update fun g =>
    let g := if g.depth = 2 then { g with current := none } else g
    { g with depth := g.depth - 1 }

/-- Write a piece through to the slot, if it is still open to writing. -/
def fill (index : ℕ) (chunk : List UInt8) : GrowingM Unit := fun g =>
  if g.verdict.isSome ∨ len g.slots ≤ index then (g, .ok ())
  else ({ g with slots := modify g.slots index (Slot.append (fromUtf8Lossy chunk)) }, .ok ())

/-- A leaf element sits directly inside the array; it may come in pieces. -/
def string (id : Id) (_total offset : ℕ) (chunk : List UInt8) : GrowingM Unit := do
  let g ← self
  if g.depth ≠ 1 ∨ g.verdict.isSome then pure ()
  else if offset = 0 then do
    let admitted ← admitIndex id.toNat
    if admitted then fill id.toNat chunk else pure ()
  else
    fill id.toNat chunk

/-- The one field of a struct element. -/
def unsigned (id : Id) (value : Unsigned) : GrowingM Unit := fun g =>
  if g.depth = 2 ∧ id = 0 then
    match g.current with
    | none => (g, .ok ())
    | some index =>
      if index < len g.slots then
        ({ g with slots := modify g.slots index fun _ => .num value }, .ok ())
      else
        (g, .unwound)
  else
    (g, .ok ())

/-- The other callbacks do nothing. -/
def hears : Callback → GrowingM Unit
  | .unsigned id value => unsigned id value
  | .string id total offset chunk => string id total offset chunk
  | .sequenceBegin id => sequenceBegin id
  | .sequenceEnd => sequenceEnd
  | _ => pure ()

/-- An unsigned value goes to its callback. -/
theorem hears_unsigned (id : Id) (value : Unsigned) :
    hears (.unsigned id value) = unsigned id value := rfl

/-- A piece of a string goes to its callback. -/
theorem hears_string (id : Id) (total offset : ℕ) (chunk : List UInt8) :
    hears (.string id total offset chunk) = string id total offset chunk := rfl

/-- An opened sequence goes to its callback. -/
theorem hears_sequenceBegin (id : Id) : hears (.sequenceBegin id) = sequenceBegin id := rfl

/-- A closed sequence goes to its callback. -/
theorem hears_sequenceEnd : hears .sequenceEnd = sequenceEnd := rfl

end Growing

/-! ## What is admitted -/

/-- The ids that a cap admits: those before the first one that it refuses. -/
def admitted (cap : ℕ) (ids : List Id) : List Id := ids.takeWhile (·.toNat < cap)

/-- The verdict that a cap raises over some ids. -/
def refusal (cap : ℕ) (ids : List Id) : Option Error :=
  if ids.all (·.toNat < cap) then none else some (Bound.cap cap).verdict

/-- The slots that it takes to hold some ids. -/
def reach (ids : List Id) : ℕ := (ids.map (·.toNat)).max?.elim 0 (· + 1)

section Admitting

variable {cap : ℕ} {ids : List Id}

/-- None is refused just if all are below the cap. -/
theorem refusal_eq_none : refusal cap ids = none ↔ ∀ id ∈ ids, id.toNat < cap := by
  simp [refusal]

/-- If not all are below the cap, the cap says how the first is refused. -/
theorem refusal_of_some (h : ¬∀ id ∈ ids, id.toNat < cap) :
    refusal cap ids = some (Bound.cap cap).verdict := by
  simpa [refusal] using h

/-- All are admitted just if none is refused. -/
theorem admitted_eq_self : admitted cap ids = ids ↔ refusal cap ids = none := by
  simp [admitted, refusal_eq_none]

/-- An id that is admitted behind others. -/
theorem admitted_append (hopen : refusal cap ids = none) {id : Id} (hid : id.toNat < cap) :
    admitted cap (ids ++ [id]) = admitted cap ids ++ [id] ∧ refusal cap (ids ++ [id]) = none := by
  have hopen' : refusal cap (ids ++ [id]) = none := by
    simpa [refusal_eq_none, or_imp, forall_and, hid] using hopen
  rw [admitted_eq_self.mpr hopen, admitted_eq_self.mpr hopen']
  exact ⟨rfl, hopen'⟩

/-- An id that is refused behind others. -/
theorem refused_append (hopen : refusal cap ids = none) {id : Id} (hid : ¬id.toNat < cap) :
    admitted cap (ids ++ [id]) = admitted cap ids ∧
      refusal cap (ids ++ [id]) = some (Bound.cap cap).verdict := by
  constructor
  · rw [admitted_eq_self.mpr hopen, admitted, List.takeWhile_append_of_pos]
    · simp [hid]
    · simpa [refusal_eq_none] using hopen
  · simp [refusal, hid]

/-- Behind a refusal nothing is admitted. -/
theorem closed_append (hclosed : refusal cap ids ≠ none) (id : Id) :
    admitted cap (ids ++ [id]) = admitted cap ids ∧
      refusal cap (ids ++ [id]) = refusal cap ids := by
  have hrefused : ¬∀ id ∈ ids, id.toNat < cap := mt refusal_eq_none.mpr hclosed
  constructor
  · rw [admitted, List.takeWhile_append, if_neg]
    · rfl
    · intro hlen
      have hself : admitted cap ids = ids := (List.takeWhile_prefix _).eq_of_length hlen
      exact hclosed (admitted_eq_self.mp hself)
  · rw [refusal_of_some hrefused]
    apply refusal_of_some
    exact fun h => hrefused fun id hid => h id (List.mem_append_left _ hid)

/-- One more id reaches as far as before, or its own slot. -/
theorem reach_append (ids : List Id) (id : Id) :
    reach (ids ++ [id]) = max (reach ids) (id.toNat + 1) := by
  induction ids with
  | nil => simp [reach]
  | cons first ids ih =>
    have hcons (ids : List Id) : reach (first :: ids) = max (first.toNat + 1) (reach ids) := by
      unfold reach
      rw [List.map_cons, List.max?_cons]
      cases (ids.map (·.toNat)).max? with
      | none => simp
      | some highest => simp only [Option.elim_some]; omega
    rw [List.cons_append, hcons, hcons, ih, max_assoc]

/-- What is admitted fits the cap. -/
theorem reach_admitted (cap : ℕ) (ids : List Id) : reach (admitted cap ids) ≤ cap := by
  have hreach (ids : List Id) (hids : ∀ id ∈ ids, id.toNat < cap) : reach ids ≤ cap := by
    induction ids using List.reverseRecOn with
    | nil => exact Nat.zero_le cap
    | append_singleton ids id ih =>
      obtain ⟨hbefore, hid⟩ := List.forall_mem_append.mp hids
      rw [reach_append]
      exact max_le (ih hbefore) (hid id (List.mem_singleton_self id))
  refine hreach _ fun id hid => ?_
  simpa using List.mem_takeWhile_imp hid

end Admitting

namespace Growing

variable {g : Growing} {id : Id}

/-- An index below the cap is admitted: the container holds it. -/
theorem admitIndex_ok (hopen : g.verdict = none) (hid : id.toNat < g.cap) :
    admitIndex id.toNat g = ({ g with slots := ⟨extended g.slots.slots (id.toNat + 1)⟩ }, .ok true) := by
  obtain ⟨slots', hreserve, hslots⟩ := reserveElem_ok (C := Vec Slot)
    ((checkIndex_eq id (.cap g.cap)).trans (if_pos hid)) trivial g.slots
  have hsmall : ¬UInt32.size ≤ id.toNat := Nat.not_le.mpr id.toNat_lt
  rw [admitIndex, hopen, if_neg (by simp), if_neg hsmall, UInt32.ofNat_toNat, hreserve,
    LawfulSeqVec.ext (c := slots') (d := ⟨extended g.slots.slots (id.toNat + 1)⟩) hslots]

/-- Any other is refused with the verdict of the cap, and the container is left as it is. -/
theorem admitIndex_refused (hopen : g.verdict = none) (hid : ¬id.toNat < g.cap) :
    admitIndex id.toNat g = ({ g with verdict := some (Bound.cap g.cap).verdict }, .ok false) := by
  have hreserve := reserveElem_refused (C := Vec Slot)
    ((checkIndex_eq id (.cap g.cap)).trans (if_neg hid)) g.slots
  have hsmall : ¬UInt32.size ≤ id.toNat := Nat.not_le.mpr id.toNat_lt
  rw [admitIndex, hopen, if_neg (by simp), if_neg hsmall, UInt32.ofNat_toNat, hreserve]

/-- Changing a slot leaves the length as it is. -/
theorem len_modified (slots : Vec Slot) (i : ℕ) (f : Slot → Slot) :
    len (modify slots i f) = len slots := by
  rw [len_eq, slots_modify, List.length_modify, len_eq]

/-- A piece changes what is in the slots and not how many there are. -/
theorem fill_eq (g : Growing) (index : ℕ) (chunk : List UInt8) :
    ∃ slots', fill index chunk g = ({ g with slots := slots' }, .ok ()) ∧
      len slots' = len g.slots := by
  unfold fill
  split
  · exact ⟨g.slots, rfl, rfl⟩
  · exact ⟨_, rfl, len_modified ..⟩

/-- A number, if its slot is there, changes what is in the slots and not how many there are. -/
theorem unsigned_eq (g : Growing) (hcurrent : ∀ i ∈ g.current, i < len g.slots) (id : Id)
    (value : Unsigned) : ∃ slots', unsigned id value g = ({ g with slots := slots' }, .ok ()) ∧
      len slots' = len g.slots := by
  obtain ⟨fieldId, cap, depth, current, slots, verdict⟩ := g
  unfold unsigned
  split
  · cases current with
    | none => exact ⟨slots, rfl, rfl⟩
    | some i => exact ⟨_, if_pos (hcurrent i rfl), len_modified ..⟩
  · exact ⟨slots, rfl, rfl⟩

/-- A number outside all elements is not stored. -/
theorem unsigned_outside (hcurrent : g.current = none) (id : Id) (value : Unsigned) :
    unsigned id value g = (g, .ok ()) := by
  obtain ⟨fieldId, cap, depth, current, slots, verdict⟩ := g
  cases hcurrent
  unfold unsigned
  split <;> rfl

/-- Opening a sequence panics if it is not the array. -/
theorem sequenceBegin_outside (hdepth : g.depth = 0) (id : Id) :
    sequenceBegin id g = ({ g with depth := 1 }, if id = g.fieldId then .ok () else .unwound) := by
  obtain ⟨fieldId, cap, depth, current, slots, verdict⟩ := g
  cases hdepth
  rw [sequenceBegin, update_bind, self_bind, if_pos rfl, assertFrame]
  split <;> rfl

/-- Inside the array it is an element. -/
theorem sequenceBegin_inside (hdepth : g.depth = 1) (hopen : g.verdict = none) (id : Id) :
    sequenceBegin id g = ((do
      let admitted ← admitIndex id.toNat
      if admitted then update fun g => { g with current := some id.toNat } else pure ()) :
        GrowingM Unit) { g with depth := 2 } := by
  obtain ⟨fieldId, cap, depth, current, slots, verdict⟩ := g
  cases hdepth
  cases hopen
  rw [sequenceBegin, update_bind, self_bind, if_neg (by simp), if_pos (by simp)]

/-- Deeper than an element, and behind a refusal, it is only counted. -/
theorem sequenceBegin_counted (hdepth : g.depth ≠ 0) (hskip : g.depth ≠ 1 ∨ g.verdict ≠ none)
    (id : Id) : sequenceBegin id g = ({ g with depth := g.depth + 1 }, .ok ()) := by
  rw [sequenceBegin, update_bind, self_bind, if_neg (by simpa using hdepth), if_neg]
  · rfl
  · simpa [imp_iff_not_or, Option.isNone_iff_eq_none] using hskip

/-- A closed sequence is one less deep, and an element ends with its own. -/
theorem sequenceEnd_eq (g : Growing) : sequenceEnd g = ({ g with
    depth := g.depth - 1, current := if g.depth = 2 then none else g.current }, .ok ()) := by
  rw [sequenceEnd, update]
  split <;> rfl

end Growing

/-! ## What a run names -/

/-- The frames that are opened outermost, and the elements inside them. -/
structure Named where
  depth : ℕ
  frames : List Id
  elements : List Id

namespace Named

/-- Nothing was named. -/
def none : Named := ⟨0, [], []⟩

/-- A sequence at the top names a frame; one inside a frame, or a string there, names an element. -/
def hears (n : Named) : Callback → Named
  | .sequenceBegin id =>
    match n.depth with
    | 0 => { n with depth := 1, frames := n.frames ++ [id] }
    | 1 => { n with depth := 2, elements := n.elements ++ [id] }
    | depth + 2 => { n with depth := depth + 3 }
  | .sequenceEnd => { n with depth := n.depth - 1 }
  | .string id _ _ _ => if n.depth = 1 then { n with elements := n.elements ++ [id] } else n
  | _ => n

/-- At the depth of the elements a string names one. -/
theorem hears_string (n : Named) (id : Id) (total offset : ℕ) (chunk : List UInt8) :
    n.hears (.string id total offset chunk) =
      if n.depth = 1 then { n with elements := n.elements ++ [id] } else n := rfl

end Named

/-- The container is what the elements named so far make it, in number and in verdict. An element
whose sequence is open has its slot. -/
structure Tracks (home : Id) (limit : ℕ) (g : Growing) (n : Named) : Prop where
  fieldId : g.fieldId = home
  cap : g.cap = limit
  depth : g.depth = n.depth
  frames : ∀ id ∈ n.frames, id = home
  verdict : g.verdict = refusal limit n.elements
  slots : len g.slots = reach (admitted limit n.elements)
  current : ∀ i ∈ g.current, g.verdict = none ∧ 2 ≤ g.depth ∧ i < len g.slots

/-- A run that returned, or one that panicked over a frame that is not the array's. -/
inductive Follows (home : Id) (limit : ℕ) : Growing × Exit Empty Unit → Named → Prop
  | going {g : Growing} {n : Named} (tracks : Tracks home limit g n) :
      Follows home limit (g, .ok ()) n
  | panicked {g : Growing} {n : Named} (strange : ∃ id ∈ n.frames, id ≠ home)
      (bounded : len g.slots ≤ limit) : Follows home limit (g, .unwound) n

namespace Tracks

variable {home : Id} {limit : ℕ} {g : Growing} {n : Named}

/-- Only how many slots there are matters. -/
theorem refilled (h : Tracks home limit g n) {slots' : Vec Slot} (hlen : len slots' = len g.slots) :
    Tracks home limit { g with slots := slots' } n :=
  { h with
    slots := hlen.trans h.slots
    current := fun i hi => hlen ▸ h.current i hi }

/-- No sequence of an element is open right inside the array. -/
theorem current_eq_none (h : Tracks home limit g n) (hdepth : g.depth < 2) : g.current = none := by
  refine Option.eq_none_iff_forall_ne_some.mpr fun i hi => ?_
  have hdeep := (h.current i hi).2.1
  omega

/-- An element whose index is admitted. -/
theorem admitted (h : Tracks home limit g n) (hdepth : g.depth < 2) (hopen : g.verdict = none)
    {id : Id} (hid : id.toNat < limit) :
    Tracks home limit { g with slots := ⟨extended g.slots.slots (id.toNat + 1)⟩ }
      { n with elements := n.elements ++ [id] } := by
  obtain ⟨hadmitted, hstill⟩ := admitted_append (h.verdict.symm.trans hopen) hid
  refine { h with verdict := hopen.trans hstill.symm, slots := ?_, current := fun i hi => ?_ }
  · rw [hadmitted, reach_append, ← h.slots]
    exact length_extended _ _
  · rw [h.current_eq_none hdepth] at hi
    cases hi

/-- An element whose index is refused. -/
theorem refused (h : Tracks home limit g n) (hdepth : g.depth < 2) (hopen : g.verdict = none)
    {id : Id} (hid : ¬id.toNat < limit) :
    Tracks home limit { g with verdict := some (Bound.cap g.cap).verdict }
      { n with elements := n.elements ++ [id] } := by
  obtain ⟨hadmitted, hrefused⟩ := refused_append (h.verdict.symm.trans hopen) hid
  rw [← h.cap] at hrefused
  refine { h with verdict := h.cap ▸ hrefused.symm, slots := ?_, current := fun i hi => ?_ }
  · rw [hadmitted]
    exact h.slots
  · rw [h.current_eq_none hdepth] at hi
    cases hi

/-- An element behind a refusal. -/
theorem ignored (h : Tracks home limit g n) (hclosed : g.verdict ≠ none) (id : Id) :
    Tracks home limit g { n with elements := n.elements ++ [id] } := by
  obtain ⟨hadmitted, hrefused⟩ := closed_append (h.verdict ▸ hclosed) id
  exact { h with
    verdict := h.verdict.trans hrefused.symm
    slots := h.slots.trans (congrArg reach hadmitted.symm) }

/-- The first piece of a string names its element. -/
theorem string (h : Tracks home limit g n) (id : Id) (total : ℕ) (chunk : List UInt8) :
    Follows home limit (Growing.string id total 0 chunk g) (n.hears (.string id total 0 chunk)) := by
  by_cases hdepth : g.depth = 1
  · rw [Named.hears_string, if_pos (h.depth ▸ hdepth)]
    by_cases hopen : g.verdict = none
    · have hstep : Growing.string id total 0 chunk g = ((do
          let admitted ← Growing.admitIndex id.toNat
          if admitted then Growing.fill id.toNat chunk else pure ()) : GrowingM Unit) g := by
        rw [Growing.string, self_bind, if_neg (by simp [hdepth, hopen]), if_pos rfl]
      rw [hstep]
      by_cases hid : id.toNat < limit
      · rw [bind_ok (Growing.admitIndex_ok hopen (h.cap ▸ hid))]
        obtain ⟨slots', hfill, hlen⟩ := Growing.fill_eq
          { g with slots := ⟨extended g.slots.slots (id.toNat + 1)⟩ } id.toNat chunk
        rw [if_pos rfl, hfill]
        exact .going ((h.admitted (by omega) hopen hid).refilled hlen)
      · rw [bind_ok (Growing.admitIndex_refused hopen (h.cap ▸ hid))]
        exact .going (h.refused (by omega) hopen hid)
    · have hstep : Growing.string id total 0 chunk g = (g, .ok ()) := by
        rw [Growing.string, self_bind, if_pos (.inr (Option.isSome_iff_ne_none.mpr hopen))]
        rfl
      rw [hstep]
      exact .going (h.ignored hopen id)
  · have hstep : Growing.string id total 0 chunk g = (g, .ok ()) := by
      rw [Growing.string, self_bind, if_pos (.inl hdepth)]
      rfl
    rw [hstep, Named.hears_string, if_neg (h.depth ▸ hdepth)]
    exact .going h

/-- A later piece goes into the slot that is there. -/
theorem string_later (h : Tracks home limit g n) (id : Id) (total : ℕ) {offset : ℕ}
    (hpos : offset ≠ 0) (chunk : List UInt8) :
    Follows home limit (Growing.string id total offset chunk g) n := by
  by_cases hskip : g.depth ≠ 1 ∨ g.verdict.isSome
  · rw [Growing.string, self_bind, if_pos hskip]
    exact .going h
  · obtain ⟨slots', hfill, hlen⟩ := Growing.fill_eq g id.toNat chunk
    rw [Growing.string, self_bind, if_neg hskip, if_neg hpos, hfill]
    exact .going (h.refilled hlen)

/-- A number names nothing. -/
theorem unsigned (h : Tracks home limit g n) (id : Id) (value : Unsigned) :
    Follows home limit (Growing.unsigned id value g) n := by
  obtain ⟨slots', hunsigned, hlen⟩ :=
    Growing.unsigned_eq g (fun i hi => (h.current i hi).2.2) id value
  rw [hunsigned]
  exact .going (h.refilled hlen)

/-- The outermost frame is the array or a panic. -/
theorem frame (h : Tracks home limit g n) (hdepth : g.depth = 0) (id : Id) :
    Follows home limit (Growing.sequenceBegin id g)
      { n with depth := 1, frames := n.frames ++ [id] } := by
  rw [Growing.sequenceBegin_outside hdepth]
  by_cases hid : id = home
  · rw [if_pos (hid.trans h.fieldId.symm)]
    refine .going { h with depth := rfl, frames := ?_, current := fun i hi => ?_ }
    · exact List.forall_mem_append.mpr ⟨h.frames, List.forall_mem_singleton.mpr hid⟩
    · rw [h.current_eq_none (by omega)] at hi
      cases hi
  · rw [if_neg (h.fieldId.symm ▸ hid)]
    refine .panicked ⟨id, List.mem_append_right _ (List.mem_singleton_self id), hid⟩ ?_
    exact h.slots.trans_le (reach_admitted limit n.elements)

/-- The sequence of an element names it. -/
theorem element (h : Tracks home limit g n) (hdepth : g.depth = 1) (id : Id) :
    Follows home limit (Growing.sequenceBegin id g)
      { n with depth := 2, elements := n.elements ++ [id] } := by
  by_cases hopen : g.verdict = none
  · rw [Growing.sequenceBegin_inside hdepth hopen]
    by_cases hid : id.toNat < limit
    · have hadmit : Growing.admitIndex id.toNat { g with depth := 2 } = _ :=
        Growing.admitIndex_ok hopen (h.cap ▸ hid)
      rw [bind_ok hadmit, if_pos rfl]
      have hnext := h.admitted (by omega) hopen hid
      refine .going { hnext with depth := rfl, current := fun i hi => ?_ }
      obtain rfl := Option.some.inj hi
      refine ⟨hopen, le_rfl, ?_⟩
      change id.toNat < (extended g.slots.slots (id.toNat + 1)).length
      rw [length_extended]
      omega
    · have hadmit : Growing.admitIndex id.toNat { g with depth := 2 } = _ :=
        Growing.admitIndex_refused hopen (h.cap ▸ hid)
      rw [bind_ok hadmit]
      have hnext := h.refused (by omega) hopen hid
      refine .going { hnext with depth := rfl, current := fun i hi => ?_ }
      rw [h.current_eq_none (by omega)] at hi
      cases hi
  · rw [Growing.sequenceBegin_counted (by omega) (.inr hopen)]
    have hnext := h.ignored hopen id
    exact .going { hnext with
      depth := congrArg (· + 1) hdepth
      current := fun i hi => absurd (h.current i hi).1 hopen }

/-- An opened sequence names a frame or an element, and panics only over a frame that is not the
array's. -/
theorem sequenceBegin (h : Tracks home limit g n) (id : Id) :
    Follows home limit (Growing.sequenceBegin id g) (n.hears (.sequenceBegin id)) := by
  obtain ⟨depth, frames, elements⟩ := n
  match depth with
  | 0 => exact h.frame h.depth id
  | 1 => exact h.element h.depth id
  | depth + 2 =>
    have hdepth : g.depth = depth + 2 := h.depth
    rw [Growing.sequenceBegin_counted (by omega) (.inl (by omega))]
    refine .going { h with depth := congrArg (· + 1) hdepth, current := fun i hi => ?_ }
    obtain ⟨hopen, hdeep, hslot⟩ := h.current i hi
    exact ⟨hopen, Nat.le_succ_of_le hdeep, hslot⟩

/-- A closed sequence names nothing. -/
theorem sequenceEnd (h : Tracks home limit g n) :
    Follows home limit (Growing.sequenceEnd g) (n.hears .sequenceEnd) := by
  rw [Growing.sequenceEnd_eq]
  refine .going { h with depth := congrArg (· - 1) h.depth, current := fun i hi => ?_ }
  by_cases hdepth : g.depth = 2
  · rw [if_pos hdepth] at hi
    cases hi
  · rw [if_neg hdepth] at hi
    obtain ⟨hopen, hdeep, hslot⟩ := h.current i hi
    exact ⟨hopen, Nat.le_sub_one_of_lt (lt_of_le_of_ne hdeep (Ne.symm hdepth)), hslot⟩

end Tracks

/-! ## Over a run -/

/-- What is named stays named. -/
theorem Named.frames_hears (n : Named) (c : Callback) :
    ∀ id ∈ n.frames, id ∈ (n.hears c).frames := by
  intro id hid
  cases c with
  | sequenceBegin id' =>
    obtain ⟨depth, frames, elements⟩ := n
    match depth with
    | 0 => exact List.mem_append_left _ hid
    | 1 => exact hid
    | depth + 2 => exact hid
  | string id' total offset chunk =>
    rw [hears_string]
    split
    · exact hid
    · exact hid
  | _ => exact hid

/-- Only that a payload came is named. -/
theorem Named.hears_payload (n : Named) (isBlob : Bool) (id : Id) (total : ℕ)
    (chunk chunk' : List UInt8) :
    n.hears (.payload isBlob id total 0 chunk) = n.hears (.payload isBlob id total 0 chunk') := by
  cases isBlob <;> rfl

namespace Follows

variable {home : Id} {limit : ℕ} {s : Growing × Exit Empty Unit} {n : Named}

/-- A run goes on, or has panicked, over a callback that starts its payload. -/
theorem hears (h : Follows home limit s n) {c : Callback} (hstart : FromStart c) :
    Follows home limit (onward Growing.hears s c) (n.hears c) := by
  cases h with
  | panicked strange bounded =>
    obtain ⟨id, hid, hne⟩ := strange
    exact .panicked ⟨id, n.frames_hears c id hid, hne⟩ bounded
  | going tracks =>
    cases c with
    | unsigned id value => exact tracks.unsigned id value
    | string id total offset chunk =>
      obtain rfl : offset = 0 := hstart
      exact tracks.string id total chunk
    | sequenceBegin id => exact tracks.sequenceBegin id
    | sequenceEnd => exact tracks.sequenceEnd
    | _ => exact .going tracks

/-- A later piece of a payload names nothing that its first one did not. -/
theorem later (h : Follows home limit s n) (isBlob : Bool) (id : Id) (total : ℕ) {offset : ℕ}
    (hpos : offset ≠ 0) (chunk : List UInt8) :
    Follows home limit (onward Growing.hears s (.payload isBlob id total offset chunk)) n := by
  cases h with
  | panicked strange bounded => exact .panicked strange bounded
  | going tracks =>
    cases isBlob with
    | false => exact tracks.string_later id total hpos chunk
    | true => exact .going tracks

/-- A string in pieces is named by the first of them. -/
theorem seamless : Seamless (onward Growing.hears) Named.hears (Follows home limit)
    (fun isBlob id total seen s n =>
      Follows home limit s (n.hears (.payload isBlob id total 0 seen))) where
  call h hstart _ := h.hears hstart
  first h _ _ := h.hears (fromStart_payload.mpr rfl)
  next held hbegun _ _ := by
    rw [Named.hears_payload]
    exact held.later _ _ _ (List.length_pos_iff.mpr hbegun).ne' _
  last held hbegun _ _ := by
    rw [Named.hears_payload]
    exact held.later _ _ _ (List.length_pos_iff.mpr hbegun).ne' _

end Follows

/-- Behind a refusal, outside the elements that came before it, nothing changes the container. -/
def Frozen (g g' : Growing) : Prop :=
  g.verdict ≠ none → g.current = none →
    g'.verdict = g.verdict ∧ g'.current = none ∧ g'.slots = g.slots

instance : Std.Refl Frozen := ⟨fun _ _ hcurrent => ⟨rfl, hcurrent, rfl⟩⟩

instance : IsTrans Growing Frozen where
  trans _ _ _ h h' hclosed hcurrent := by
    obtain ⟨hverdict, hcurrent', hslots⟩ := h hclosed hcurrent
    obtain ⟨hverdict', hcurrent'', hslots'⟩ := h' (hverdict ▸ hclosed) hcurrent'
    exact ⟨hverdict'.trans hverdict, hcurrent'', hslots'.trans hslots⟩

/-- Once refused, no callback changes the container or the verdict. -/
theorem Growing.hears_frozen (c : Callback) : Leads Frozen (Growing.hears c) := by
  intro g hclosed hcurrent
  have hsome := Option.isSome_iff_ne_none.mpr hclosed
  cases c with
  | unsigned id value =>
    rw [hears_unsigned, unsigned_outside hcurrent]
    exact ⟨rfl, hcurrent, rfl⟩
  | string id total offset chunk =>
    rw [hears_string, string, self_bind, if_pos (.inr hsome)]
    exact ⟨rfl, hcurrent, rfl⟩
  | sequenceBegin id =>
    by_cases hdepth : g.depth = 0
    · rw [hears_sequenceBegin, sequenceBegin_outside hdepth]
      exact ⟨rfl, hcurrent, rfl⟩
    · rw [hears_sequenceBegin, sequenceBegin_counted hdepth (.inr hclosed)]
      exact ⟨rfl, hcurrent, rfl⟩
  | sequenceEnd =>
    rw [hears_sequenceEnd, sequenceEnd_eq, hcurrent, ite_self]
    exact ⟨rfl, rfl, rfl⟩
  | _ => exact ⟨rfl, hcurrent, rfl⟩

/-- Whatever bytes come in whatever chunks, the container never grows past the cap. It panics only
over a frame that is not the array's; else it holds just the slots up to the highest of the
elements before the first that the cap refuses, that refusal stands, and nothing that comes later
changes the container. -/
theorem growing_exact (fieldId : Id) (cap : ℕ) (chunk : List UInt8) (rest : List (List UInt8)) :
    let run := inOrder Growing.hears (feedAll IStream.new chunk rest).calls (.new fieldId cap)
    let named := listen Named.hears .none (decode (chunk :: rest).flatten).calls
    len run.1.slots ≤ cap ∧
      (run.2 = .ok () ↔ ∀ id ∈ named.frames, id = fieldId) ∧
      (run.2 = .ok () → len run.1.slots = reach (admitted cap named.elements) ∧
        run.1.verdict = refusal cap named.elements ∧
        ∀ more, run.1.verdict ≠ none →
          (inOrder Growing.hears more run.1).1.slots = run.1.slots) := by
  intro run named
  have hstart : Follows fieldId cap (.new fieldId cap, .ok ()) .none :=
    .going ⟨rfl, rfl, rfl, by simp [Named.none], by simp [Named.none, refusal, Growing.new], rfl,
      by simp [Growing.new]⟩
  have hfollows : Follows fieldId cap run named := by
    have hfed := Follows.seamless.fed hstart chunk rest
    rwa [listen, ← inOrder_eq_foldl] at hfed
  cases hrun : run with
  | mk g exit =>
    rw [hrun] at hfollows
    cases hfollows with
    | panicked strange bounded =>
      obtain ⟨id, hid, hne⟩ := strange
      refine ⟨bounded, ?_, fun habsurd => by cases habsurd⟩
      exact iff_of_false (fun habsurd => by cases habsurd) fun hframes => hne (hframes id hid)
    | going tracks =>
      refine ⟨tracks.slots.trans_le (reach_admitted cap named.elements),
        iff_of_true rfl tracks.frames, fun _ => ⟨tracks.slots, tracks.verdict, fun more hclosed => ?_⟩⟩
      have hcurrent : g.current = none := by
        refine Option.eq_none_iff_forall_ne_some.mpr fun i hi => ?_
        exact hclosed (tracks.current i hi).1
      exact (leads_inOrder Growing.hears Growing.hears_frozen more g hclosed hcurrent).2.2

end Sofab.Generated
