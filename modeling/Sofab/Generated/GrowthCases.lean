import Sofab.Ceilings
import Sofab.Generated.Growing
import Sofab.Generated.Reusing

/-!
# Cases of growth

A case is not bytes but the elements to deliver under their ids: it is encoded, fed to a growing
destination at once, and answers what became of it together with the container.
-/

namespace Sofab.Generated

open IStream Steps Step OStream SeqVec LawfulSeqVec

/-- An element that is delivered. -/
inductive Element
  | str (id : Id) (text : String)
  | struct (id : Id) (value : Unsigned)
  deriving DecidableEq, Repr

/-- Write a string, or a struct with one number. -/
def Element.write : Element → EncodeM Unit
  | .str id text => writeStr id text
  | .struct id value => do
    writeSequenceBeginLazy id
    writeUnsigned 0 value
    writeSequenceEndKeep

/-- Build a message, or panic. The array is closed so that an empty one survives. -/
def build (fieldId : Id) (elements : List Element) : Option (List UInt8) :=
  let written : EncodeM ℕ := do
    writeSequenceBeginLazy fieldId
    inOrder Element.write elements
    writeSequenceEndKeep
    flush
  match written (.new (List.replicate 4096 0)) with
  | (os, .ok _) => some (os.buffer.take os.bytesUsed)
  | _ => none

/-- What a case answers. -/
inductive Outcome
  | complete
  | incomplete
  | invalid
  | limitExceeded
  deriving DecidableEq, Repr

/-- Any other error is no outcome. -/
def Outcome.of : Except Error Status → Option Outcome
  | .ok .complete => some .complete
  | .ok .incomplete => some .incomplete
  | .error .invalidMsg => some .invalid
  | .error .limitExceeded => some .limitExceeded
  | .error _ => none

/-- Run a case, or panic: the receiver's verdict dominates what the stream answers. -/
def runAt (fieldId : Id) (cap : ℕ) (elements : List Element) : Option (Outcome × Vec Slot) := do
  let bytes ← build fieldId elements
  let fed := IStream.feed bytes .new
  match inOrder Growing.hears fed.calls (.new fieldId cap) with
  | (dest, .ok ()) =>
    let answer ← Outcome.of (match dest.verdict with
      | some raised => .error raised
      | none => fed.result)
    some (answer, dest.slots)
  | _ => none

/-! ## What a case writes -/

/-- A string is read back from its own bytes, nothing replaced. -/
theorem fromUtf8Lossy_toUTF8 (text : String) : fromUtf8Lossy text.toUTF8.data.toList = text := by
  rw [fromUtf8Lossy, fromUtf8_toUTF8]

namespace Element

/-- The id of an element. -/
def id : Element → Id
  | .str id _ => id
  | .struct id _ => id

/-- What an element makes of its slot: a string is appended, a number replaces what is there. -/
def onto : Element → Slot → Slot
  | .str _ text => Slot.append text
  | .struct _ value => fun _ => .num value

/-- The writer calls for an element. -/
def calls : Element → List Call
  | .str id text => [.field (.str id text)]
  | .struct id value => [.sequenceBeginLazy id, .field (.unsigned 0 value), .sequenceEndKeep]

/-- An element is written by its calls. -/
theorem write_eq (e : Element) : e.write = inOrder (Call.write .little) e.calls := by
  cases e with
  | str id text => exact (inOrder_singleton _ _).symm
  | struct id value =>
    rw [calls, inOrder, inOrder, inOrder_singleton]
    rfl

end Element

/-- The writer calls for a case. -/
def caseCalls (fieldId : Id) (elements : List Element) : List Call :=
  .sequenceBeginLazy fieldId :: (elements.flatMap Element.calls ++ [.sequenceEndKeep])

/-- The calls of a case keep every sequence they close. -/
theorem caseCalls_kept (fieldId : Id) (elements : List Element) :
    ∀ call ∈ caseCalls fieldId elements, call ≠ .sequenceEnd := by
  have helement (e : Element) : ∀ call ∈ e.calls, call ≠ .sequenceEnd := by
    cases e <;> simp [Element.calls]
  simp only [caseCalls, List.forall_mem_cons, List.forall_mem_append]
  refine ⟨by simp, fun call hcall => ?_, by simp⟩
  obtain ⟨e, -, hmem⟩ := List.mem_flatMap.mp hcall
  exact helement e call hmem

/-- The calls of a case close every sequence they open. -/
theorem caseCalls_closed (fieldId : Id) (elements : List Element) :
    depthAfter 0 (caseCalls fieldId elements) = 0 := by
  have helements (depth : ℕ) : depthAfter depth (elements.flatMap Element.calls) = depth := by
    induction elements with
    | nil => rfl
    | cons e elements ih =>
      have hclosed : depthAfter depth e.calls = depth := by cases e <;> rfl
      rw [List.flatMap_cons, depthAfter_append, hclosed, ih]
  rw [caseCalls, depthAfter, depthAfter_append, helements]
  rfl

/-- What is built decodes to the events of the case. -/
theorem build_told {fieldId : Id} {elements : List Element} {wire : List UInt8}
    (h : build fieldId elements = some wire) :
    (decode wire).calls = (caseCalls fieldId elements).flatMap Call.events ∧
      (decode wire).result = .ok .complete := by
  have hwritten : (do
      writeSequenceBeginLazy fieldId
      inOrder Element.write elements
      writeSequenceEndKeep
      flush : EncodeM ℕ) =
        (inOrder (Call.write .little) (caseCalls fieldId elements) >>= fun _ => flush) := by
    have helements : inOrder (Call.write .little) (elements.flatMap Element.calls) =
        inOrder Element.write elements := by
      rw [inOrder_flatMap]
      exact congrArg (inOrder · elements) (funext fun e => e.write_eq.symm)
    rw [caseCalls, inOrder, inOrder_append, inOrder_singleton, helements, bind_assoc, bind_assoc]
    rfl
  unfold build at h
  simp only [hwritten] at h
  rcases hrun : inOrder (Call.write .little) (caseCalls fieldId elements)
    (.new (List.replicate 4096 0)) with ⟨os, _ | e | _⟩
  · rw [bind_ok hrun, written_flush hrun] at h
    cases h
    exact written_told hrun (caseCalls_kept fieldId elements) (caseCalls_closed fieldId elements)
  · rw [bind_err hrun] at h
    cases h
  · rw [bind_unwound hrun] at h
    cases h

namespace Growing

variable {g : Growing} {id : Id}

/-- What is done to a slot just made is landed in it. -/
theorem modify_made (slots : Vec Slot) (i : ℕ) (f : Slot → Slot) :
    modify (⟨extended slots.slots (i + 1)⟩ : Vec Slot) i f = ⟨land i f slots.slots⟩ :=
  LawfulSeqVec.ext (slots_modify _ i f)

/-- A slot that was made is there. -/
theorem lt_made (slots : Vec Slot) (i : ℕ) :
    i < len (⟨extended slots.slots (i + 1)⟩ : Vec Slot) := by
  change i < (extended slots.slots (i + 1)).length
  rw [length_extended]
  omega

/-- A string that comes whole lands in its slot. -/
theorem string_told (hdepth : g.depth = 1) (hopen : g.verdict = none) (hid : id.toNat < g.cap)
    (total : ℕ) (text : String) : string id total 0 text.toUTF8.data.toList g =
      ({ g with slots := ⟨land id.toNat (Slot.append text) g.slots.slots⟩ }, .ok ()) := by
  have hroom : ¬(g.verdict.isSome = true ∨
      len (⟨extended g.slots.slots (id.toNat + 1)⟩ : Vec Slot) ≤ id.toNat) := by
    rw [hopen, not_or, Nat.not_le]
    exact ⟨by simp, lt_made g.slots id.toNat⟩
  rw [string, self_bind, if_neg (by simp [hdepth, hopen]), if_pos rfl, bind_ok (admitIndex_ok hopen hid),
    if_pos rfl, fill, if_neg hroom, fromUtf8Lossy_toUTF8, modify_made]

/-- A string past the cap is refused. -/
theorem string_refused (hdepth : g.depth = 1) (hopen : g.verdict = none) (hid : ¬id.toNat < g.cap)
    (total : ℕ) (chunk : List UInt8) : string id total 0 chunk g =
      ({ g with verdict := some (Bound.cap g.cap).verdict }, .ok ()) := by
  rw [string, self_bind, if_neg (by simp [hdepth, hopen]), if_pos rfl,
    bind_ok (admitIndex_refused hopen hid)]
  rfl

/-- A struct lands in its slot. -/
theorem struct_told (hdepth : g.depth = 1) (hcurrent : g.current = none) (hopen : g.verdict = none)
    (hid : id.toNat < g.cap) (value : Unsigned) :
    inOrder hears [.sequenceBegin id, .unsigned 0 value, .sequenceEnd] g =
      ({ g with slots := ⟨land id.toNat (fun _ => .num value) g.slots.slots⟩ }, .ok ()) := by
  obtain ⟨fieldId, cap, depth, current, slots, verdict⟩ := g
  cases hdepth
  cases hcurrent
  cases hopen
  have hbegin : hears (.sequenceBegin id) ⟨fieldId, cap, 1, none, slots, none⟩ =
      (⟨fieldId, cap, 2, some id.toNat, ⟨extended slots.slots (id.toNat + 1)⟩, none⟩, .ok ()) := by
    rw [hears_sequenceBegin, sequenceBegin_inside rfl rfl,
      bind_ok (admitIndex_ok (g := ⟨fieldId, cap, 2, none, slots, none⟩) rfl hid)]
    rfl
  have hvalue : hears (.unsigned 0 value)
      ⟨fieldId, cap, 2, some id.toNat, ⟨extended slots.slots (id.toNat + 1)⟩, none⟩ =
        (⟨fieldId, cap, 2, some id.toNat, ⟨land id.toNat (fun _ => .num value) slots.slots⟩, none⟩,
          .ok ()) := by
    rw [← modify_made]
    exact if_pos (lt_made slots id.toNat)
  rw [inOrder, bind_ok hbegin, inOrder, bind_ok hvalue, inOrder_singleton]
  rfl

/-- A struct past the cap is refused. -/
theorem struct_refused (hdepth : g.depth = 1) (hcurrent : g.current = none)
    (hopen : g.verdict = none) (hid : ¬id.toNat < g.cap) (value : Unsigned) :
    inOrder hears [.sequenceBegin id, .unsigned 0 value, .sequenceEnd] g =
      ({ g with verdict := some (Bound.cap g.cap).verdict }, .ok ()) := by
  obtain ⟨fieldId, cap, depth, current, slots, verdict⟩ := g
  cases hdepth
  cases hcurrent
  cases hopen
  have hbegin : hears (.sequenceBegin id) ⟨fieldId, cap, 1, none, slots, none⟩ =
      (⟨fieldId, cap, 2, none, slots, some (Bound.cap cap).verdict⟩, .ok ()) := by
    rw [hears_sequenceBegin, sequenceBegin_inside rfl rfl,
      bind_ok (admitIndex_refused (g := ⟨fieldId, cap, 2, none, slots, none⟩) rfl hid)]
    rfl
  have hvalue (g : Growing) (hcurrent : g.current = none) :
      hears (.unsigned 0 value) g = (g, .ok ()) := unsigned_outside hcurrent 0 value
  rw [inOrder, bind_ok hbegin, inOrder, bind_ok (hvalue _ rfl), inOrder_singleton]
  rfl

/-- An element of an open case inside the array. -/
theorem element_told (hdepth : g.depth = 1) (hcurrent : g.current = none) (hopen : g.verdict = none)
    (e : Element) : inOrder hears (e.calls.flatMap Call.events) g =
      (if e.id.toNat < g.cap then
        { g with slots := ⟨land e.id.toNat e.onto g.slots.slots⟩ }
      else { g with verdict := some (Bound.cap g.cap).verdict }, .ok ()) := by
  cases e with
  | str id text =>
    have hannounced (total : ℕ) : hears (.fixlenBegin id .str total) g = (g, .ok ()) := rfl
    have hevents : (Element.str id text).calls.flatMap Call.events = [
        .fixlenBegin id .str text.toUTF8.data.toList.length,
        .string id text.toUTF8.data.toList.length 0 text.toUTF8.data.toList] := rfl
    rw [hevents, inOrder, bind_ok (hannounced _), inOrder_singleton, hears_string]
    split
    · next hid => exact string_told hdepth hopen hid _ text
    · next hid => exact string_refused hdepth hopen hid _ _
  | struct id value =>
    split
    · next hid => exact struct_told hdepth hcurrent hopen hid value
    · next hid => exact struct_refused hdepth hcurrent hopen hid value

/-- An element behind a refusal. -/
theorem element_ignored (hdepth : g.depth = 1) (hcurrent : g.current = none)
    (hclosed : g.verdict ≠ none) (e : Element) :
    inOrder hears (e.calls.flatMap Call.events) g = (g, .ok ()) := by
  cases e with
  | str id text =>
    have hannounced (total : ℕ) : hears (.fixlenBegin id .str total) g = (g, .ok ()) := rfl
    have hevents : (Element.str id text).calls.flatMap Call.events = [
        .fixlenBegin id .str text.toUTF8.data.toList.length,
        .string id text.toUTF8.data.toList.length 0 text.toUTF8.data.toList] := rfl
    rw [hevents, inOrder, bind_ok (hannounced _), inOrder_singleton, hears_string, string, self_bind,
      if_pos (.inr (Option.isSome_iff_ne_none.mpr hclosed))]
    rfl
  | struct id value =>
    obtain ⟨fieldId, cap, depth, current, slots, verdict⟩ := g
    cases hdepth
    cases hcurrent
    have hbegin : hears (.sequenceBegin id) ⟨fieldId, cap, 1, none, slots, verdict⟩ =
        (⟨fieldId, cap, 2, none, slots, verdict⟩, .ok ()) :=
      sequenceBegin_counted (by simp) (.inr hclosed) id
    have hvalue : hears (.unsigned 0 value) ⟨fieldId, cap, 2, none, slots, verdict⟩ =
        (⟨fieldId, cap, 2, none, slots, verdict⟩, .ok ()) := unsigned_outside rfl 0 value
    change inOrder hears [.sequenceBegin id, .unsigned 0 value, .sequenceEnd] _ = _
    rw [inOrder, bind_ok hbegin, inOrder, bind_ok hvalue, inOrder_singleton]
    rfl

/-- Elements behind a refusal. -/
theorem elements_ignored (hdepth : g.depth = 1) (hcurrent : g.current = none)
    (hclosed : g.verdict ≠ none) (elements : List Element) :
    inOrder hears ((elements.flatMap Element.calls).flatMap Call.events) g = (g, .ok ()) := by
  induction elements with
  | nil => rfl
  | cons e elements ih =>
    rw [List.flatMap_cons, List.flatMap_append, inOrder_append,
      bind_ok (element_ignored hdepth hcurrent hclosed e), ih]

/-- The array closes. -/
theorem array_closed (fieldId : Id) (cap : ℕ) (slots : Vec Slot) (verdict : Option Error) :
    hears .sequenceEnd ⟨fieldId, cap, 1, none, slots, verdict⟩ =
      (⟨fieldId, cap, 0, none, slots, verdict⟩, .ok ()) := rfl

/-- Elements land in their slots up to the first that is refused. -/
theorem elements_told (hdepth : g.depth = 1) (hcurrent : g.current = none) (hopen : g.verdict = none)
    (elements : List Element) :
    inOrder hears ((elements.flatMap Element.calls).flatMap Call.events) g =
      ({ g with
        slots := ⟨landAll (·.id.toNat) Element.onto (elements.takeWhile (·.id.toNat < g.cap))
          g.slots.slots⟩
        verdict := refusal g.cap (elements.map Element.id) }, .ok ()) := by
  induction elements generalizing g with
  | nil =>
    obtain ⟨fieldId, cap, depth, current, slots, verdict⟩ := g
    cases hopen
    have hnone : refusal cap [] = none := refusal_eq_none.mpr (List.forall_mem_nil _)
    rw [List.map_nil, hnone]
    rfl
  | cons e elements ih =>
    rw [List.flatMap_cons, List.flatMap_append, inOrder_append]
    have htold := element_told hdepth hcurrent hopen e
    by_cases hid : e.id.toNat < g.cap
    · rw [if_pos hid] at htold
      have hlater := ih (g := { g with slots := ⟨land e.id.toNat e.onto g.slots.slots⟩ })
        hdepth hcurrent hopen
      refine (bind_ok htold _).trans (hlater.trans ?_)
      simp [refusal, hid]
    · rw [if_neg hid] at htold
      have hlater := elements_ignored (g := { g with verdict := some (Bound.cap g.cap).verdict })
        hdepth hcurrent (by simp) elements
      refine (bind_ok htold _).trans (hlater.trans ?_)
      simp [refusal, hid]

end Growing

/-- The verdict of the receiver dominates. -/
theorem runAt_eq {fieldId : Id} {cap : ℕ} {elements : List Element} {wire : List UInt8}
    {g : Growing} (hbuilt : build fieldId elements = some wire)
    (hrun : inOrder Growing.hears (decode wire).calls (.new fieldId cap) = (g, .ok ())) :
    runAt fieldId cap elements =
      (Outcome.of (dominated g.verdict (decode wire).result)).map (·, g.slots) := by
  rw [decode] at hrun
  simp only [runAt, hbuilt, hrun, Option.bind_eq_bind, Option.bind_some]
  change (Outcome.of (dominated g.verdict (decode wire).result)).bind _ = _
  cases Outcome.of (dominated g.verdict (decode wire).result) with
  | none => rfl
  | some answer => rfl

/-- A case that can be built is complete if the cap admits all its elements; else the verdict is
that of the cap, which is no outcome of a cap of zero. A slot holds what the elements up to the
first one refused make of it, in order. -/
theorem growth_exact {fieldId : Id} {elements : List Element} {wire : List UInt8}
    (hbuilt : build fieldId elements = some wire) (cap : ℕ) :
    let kept := elements.takeWhile (·.id.toNat < cap)
    ∃ slots : Vec Slot,
      runAt fieldId cap elements =
        (if ∀ e ∈ elements, e.id.toNat < cap then some (.complete, slots)
          else if cap = 0 then none else some (.limitExceeded, slots)) ∧
      len slots = reach (kept.map Element.id) ∧
      ∀ j < len slots, slots.slots[j]? =
        some ((kept.filter (·.id.toNat = j)).foldl (fun slot e => e.onto slot) .default) := by
  intro kept
  obtain ⟨hcalls, hresult⟩ := build_told hbuilt
  have hopened : Growing.hears (.sequenceBegin fieldId) (.new fieldId cap) =
      (⟨fieldId, cap, 1, none, ⟨[]⟩, none⟩, .ok ()) := by
    rw [Growing.hears_sequenceBegin, Growing.sequenceBegin_outside rfl]
    exact congrArg (Prod.mk _) (if_pos rfl)
  have htold := Growing.elements_told (g := ⟨fieldId, cap, 1, none, ⟨[]⟩, none⟩) rfl rfl rfl elements
  let slots : Vec Slot := ⟨landAll (·.id.toNat) Element.onto kept []⟩
  have hrun : inOrder Growing.hears (decode wire).calls (.new fieldId cap) =
      (⟨fieldId, cap, 0, none, slots, refusal cap (elements.map Element.id)⟩, .ok ()) := by
    rw [hcalls, caseCalls, List.flatMap_cons, List.flatMap_append]
    change inOrder Growing.hears (.sequenceBegin fieldId :: (_ ++ [.sequenceEnd])) _ = _
    rw [inOrder, bind_ok hopened, inOrder_append, bind_ok htold, inOrder_singleton]
    exact Growing.array_closed fieldId cap slots _
  refine ⟨slots, ?_, ?_, fun j hj => ?_⟩
  · rw [runAt_eq hbuilt hrun, hresult]
    by_cases hall : ∀ e ∈ elements, e.id.toNat < cap
    · have hnone : refusal cap (elements.map Element.id) = none := by
        simpa [refusal_eq_none] using hall
      rw [hnone, if_pos hall]
      rfl
    · have hsome : refusal cap (elements.map Element.id) = some (Bound.cap cap).verdict :=
        refusal_of_some (by simpa using hall)
      rw [hsome, if_neg hall]
      cases cap <;> rfl
  · have hlen := length_landAll (·.id.toNat) Element.onto kept ([] : List Slot)
    rw [List.length_nil, Nat.zero_max] at hlen
    rw [reach, List.map_map]
    exact hlen
  · have hget := getD_landAll (·.id.toNat) Element.onto kept ([] : List Slot) j
    rw [List.getElem?_nil, Option.getD_none] at hget
    replace hj : j < slots.slots.length := hj
    change slots.slots[j]?.getD default = _ at hget
    rw [List.getElem?_eq_getElem hj] at hget ⊢
    exact congrArg some hget

/-- A gap, an element that comes again, and one past the cap that hides the one behind it. -/
theorem growth_exact_hidden :
    ∃ slots, runAt 3 8 [.struct 2 9, .struct 0 7, .struct 2 10, .struct 8 3, .struct 5 1] =
        some (.limitExceeded, slots) ∧
      len slots = 3 ∧ slots.slots[1]? = some .default ∧ slots.slots[2]? = some (.num 10) := by
  have hbuilt : build 3 [.struct 2 9, .struct 0 7, .struct 2 10, .struct 8 3, .struct 5 1] =
      some [30, 22, 0, 9, 7, 6, 0, 7, 7, 22, 0, 10, 7, 70, 0, 3, 7, 46, 0, 1, 7, 7] := by
    decide +kernel
  obtain ⟨slots, hrun, hlen, hslots⟩ := growth_exact hbuilt 8
  have hthree : len slots = 3 := hlen.trans (by decide)
  refine ⟨slots, hrun.trans (if_neg (by decide)), hthree, ?_, ?_⟩
  · exact (hslots 1 (by omega)).trans (by decide)
  · exact (hslots 2 (by omega)).trans (by decide)

end Sofab.Generated
