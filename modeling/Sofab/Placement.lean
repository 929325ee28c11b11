import Sofab.Reuse

/-!
# The slots of a wrapper array

Elements arrive under any ids in any order. Whatever is refused leaves the container as it is,
and every accepted use of a slot lands its change in that slot alone, so the container is
determined by the accepted uses: how long it is by the highest id, each slot by the uses of it
in order.
-/

namespace Sofab

open Steps Step SeqVec LawfulSeqVec

/-! ## Landing changes in a list of slots -/

section Landing

variable {α : Type} [Inhabited α]

/-- Land a change in the slot at `i`, adding slots up to it. -/
def land (i : ℕ) (change : α → α) (l : List α) : List α := (extended l (i + 1)).modify i change

/-- Landing in a slot makes a list long enough for it. -/
theorem length_land (i : ℕ) (change : α → α) (l : List α) :
    (land i change l).length = max l.length (i + 1) := by
  rw [land, List.length_modify, length_extended]

/-- A change lands in one slot; the slots added are defaults. -/
theorem getD_land (i : ℕ) (change : α → α) (l : List α) (j : ℕ) :
    (land i change l)[j]?.getD default =
      if i = j then change (l[j]?.getD default) else l[j]?.getD default := by
  have hslot : (extended l (i + 1))[j]?.getD default = l[j]?.getD default := by
    rw [getElem?_extended]
    split
    · rfl
    · next hj =>
      rw [List.getElem?_eq_none (Nat.le_of_not_lt hj)]
      split <;> rfl
  by_cases hij : i = j
  · subst hij
    have hlt : i < (extended l (i + 1)).length := by
      rw [length_extended]
      omega
    rw [List.getElem?_eq_getElem hlt, Option.getD_some] at hslot
    rw [land, List.getElem?_modify_eq, List.getElem?_eq_getElem hlt, if_pos rfl, ← hslot]
    rfl
  · rw [land, List.getElem?_modify_ne _ _ hij, hslot, if_neg hij]

variable {ι : Type} (target : ι → ℕ) (effect : ι → α → α)

/-- Land the changes of several uses in order. -/
def landAll (uses : List ι) (l : List α) : List α :=
  uses.foldl (fun l use => land (target use) (effect use) l) l

/-- With nothing to land a list stays as it is. -/
@[simp] theorem landAll_nil (l : List α) : landAll target effect [] l = l := rfl

/-- The first use lands, and the rest behind it. -/
@[simp] theorem landAll_cons (use : ι) (uses : List ι) (l : List α) :
    landAll target effect (use :: uses) l =
      landAll target effect uses (land (target use) (effect use) l) := rfl

/-- The highest slot that is used gives the length. -/
theorem length_landAll (uses : List ι) (l : List α) :
    (landAll target effect uses l).length =
      max l.length ((uses.map target).max?.elim 0 (· + 1)) := by
  induction uses generalizing l with
  | nil => simp
  | cons use uses ih =>
    rw [landAll_cons, ih, length_land, List.map_cons, List.max?_cons]
    rcases (uses.map target).max? with _ | highest
    · simp
    · simp only [Option.elim_some]
      omega

/-- A slot holds what its own uses make of it. -/
theorem getD_landAll (uses : List ι) (l : List α) (j : ℕ) :
    (landAll target effect uses l)[j]?.getD default =
      (uses.filter (target · = j)).foldl (fun x use => effect use x) (l[j]?.getD default) := by
  induction uses generalizing l with
  | nil => rfl
  | cons use uses ih =>
    rw [landAll_cons, ih, getD_land]
    by_cases hj : target use = j <;> simp [hj]

end Landing

/-! ## Uses of slots -/

/-- A leaf element that is placed. -/
structure Placement (α : Type) where
  id : Id
  bound : Bound
  value : α

/-- A use of a compound element's slot: the element is framed and its slot changed at once, or
a slot is taken up again by its index. -/
inductive SlotUse (α : Type)
  | frame (id : Id) (bound : Bound) (change : α → α)
  | revisit (i : ℕ) (change : α → α)

/-- The slot that is used. -/
def SlotUse.target {α : Type} : SlotUse α → ℕ
  | .frame id _ _ => id.toNat
  | .revisit i _ => i

/-- What is made of the slot. -/
def SlotUse.change {α : Type} : SlotUse α → α → α
  | .frame _ _ change => change
  | .revisit _ change => change

/-- Whether the element is framed. -/
def SlotUse.isFrame {α : Type} : SlotUse α → Bool
  | .frame _ _ _ => true
  | .revisit _ _ => false

section Running

variable {C α : Type} [SeqVec C α]

/-- Place a leaf element. -/
def Placement.run (p : Placement α) : Step C Error Unit := placeElem p.id p.bound p.value

/-- Use a slot that is reserved by `reserve`. -/
def SlotUse.run (reserve : Id → Bound → Step C Error ℕ) : SlotUse α → Step C Error Unit
  | .frame id bound change => reserveThen (reserve id bound) change
  | .revisit i change => reserveThen (slotAt i) change

end Running

/-! ## What is answered -/

/-- The ids that a bound lets pass are those below this. -/
def Bound.size : Bound → ℕ
  | .schema n => n
  | .cap n => n

/-- What is answered to an id that is not below the bound. -/
def Bound.verdict : Bound → Error
  | .schema _ => .invalidMsg
  | .cap 0 => .argument
  | .cap _ => .limitExceeded

/-- The answer to an id in a container of `length` slots and of at most `limit`, if there is a
limit: the bound is asked first, then the container. -/
def admission (limit : Option ℕ) (length : ℕ) (id : Id) (bound : Bound) : Exit Error Unit :=
  if id.toNat < bound.size then
    if ∀ N ∈ limit, id.toNat + 1 ≤ N ∨ id.toNat < length then .ok () else .err .argument
  else
    .err bound.verdict

/-- The answer to a leaf element. -/
def Placement.answer {α : Type} (limit : Option ℕ) (length : ℕ) (p : Placement α) :
    Exit Error Unit :=
  admission limit length p.id p.bound

/-- The answer to a use of a compound element's slot. -/
def SlotUse.answer {α : Type} (limit : Option ℕ) (length : ℕ) : SlotUse α → Exit Error Unit
  | .frame id bound _ => admission limit length id bound
  | .revisit i _ => if i < length then .ok () else .err .argument

/-- The uses that were answered well. -/
def granted {ι : Type} : List ι → List (Exit Error Unit) → List ι
  | use :: uses, exit :: exits =>
    if exit = .ok () then use :: granted uses exits else granted uses exits
  | _, _ => []

/-- The law of wrapper arrays for a run of `uses`: what each is answered, that a refused one
leaves the container as it is, and what the container is in the end. The uses of one slot that
were granted, in order, make its `value`. -/
structure PlacementLaw {C α ι : Type} [SeqVec C α] (run : ι → Step C Error Unit)
    (answer : ℕ → ι → Exit Error Unit) (target : ι → ℕ) (value : List ι → α) (uses : List ι)
    (empty : C) : Prop where
  answered : ∀ i (hi : i < uses.length), (drive run uses empty).2[i]? =
    some (answer (len (drive run (uses.take i) empty).1) uses[i])
  inert : ∀ i (hi : i < uses.length),
    answer (len (drive run (uses.take i) empty).1) uses[i] ≠ .ok () →
      (drive run (uses.take (i + 1)) empty).1 = (drive run (uses.take i) empty).1
  length : len (drive run uses empty).1 =
    ((granted uses (drive run uses empty).2).map target).max?.elim 0 (· + 1)
  slot : ∀ j < len (drive run uses empty).1, slotMut (drive run uses empty).1 j =
    some (value ((granted uses (drive run uses empty).2).filter (target · = j)))

/-! ## What the uses make of a slot -/

section Values

variable {α : Type}

/-- The value that was placed last. -/
def lastPlaced [Inhabited α] (ps : List (Placement α)) : α := ps.getLast?.elim default (·.value)

/-- The changes of an element in order. -/
def merged (uses : List (SlotUse α)) (x : α) : α := uses.foldl (fun x use => use.change x) x

/-- The uses of a row from the one that framed it last, all of them if none did. -/
def sinceFrame : List (SlotUse α) → List (SlotUse α)
  | [] => []
  | use :: uses => if uses.any SlotUse.isFrame then sinceFrame uses else use :: uses

/-- The changes of a row since it was last framed, made to an empty row. -/
def rowValue [Inhabited α] (emptyRow : α) (uses : List (SlotUse α)) : α :=
  merged (sinceFrame uses) (if uses.any SlotUse.isFrame then emptyRow else default)

/-- What a use makes of a row. -/
def rowEffect (emptyRow : α) (use : SlotUse α) (row : α) : α :=
  use.change (if use.isFrame then emptyRow else row)

/-- Without a frame all uses are since the last one. -/
theorem sinceFrame_of_not_any {uses : List (SlotUse α)} (h : uses.any SlotUse.isFrame = false) :
    sinceFrame uses = uses := by
  cases uses with
  | nil => rfl
  | cons use uses =>
    rw [List.any_cons, Bool.or_eq_false_iff] at h
    rw [sinceFrame, h.2, if_neg Bool.false_ne_true]

/-- Placed values replace one another, and the last one stays. -/
theorem foldl_placed [Inhabited α] (ps : List (Placement α)) (x : α) :
    ps.foldl (fun _ p => p.value) x = ps.getLast?.elim x (·.value) := by
  induction ps generalizing x with
  | nil => rfl
  | cons p ps ih =>
    rw [List.foldl_cons, ih, List.getLast?_cons]
    cases ps.getLast? <;> rfl

/-- Framing a row again starts it over. -/
theorem foldl_rowEffect (emptyRow : α) (uses : List (SlotUse α)) (x : α) :
    uses.foldl (fun x use => rowEffect emptyRow use x) x =
      merged (sinceFrame uses) (if uses.any SlotUse.isFrame then emptyRow else x) := by
  induction uses generalizing x with
  | nil => rfl
  | cons use uses ih =>
    rw [List.foldl_cons, ih, sinceFrame, List.any_cons]
    by_cases hframed : uses.any SlotUse.isFrame = true
    · simp [hframed]
    · rw [Bool.not_eq_true] at hframed
      simp [hframed, sinceFrame_of_not_any hframed, merged, rowEffect]

end Values

/-! ## The law from one use -/

/-- One use: either it is refused and leaves the container as it is, or its effect lands. -/
structure Obeys {C α ι : Type} [Inhabited α] [SeqVec C α] [LawfulSeqVec C α]
    (run : ι → Step C Error Unit) (answer : ℕ → ι → Exit Error Unit) (target : ι → ℕ)
    (effect : ι → α → α) : Prop where
  refused : ∀ use (c : C), answer (len c) use ≠ .ok () → run use c = (c, answer (len c) use)
  landed : ∀ use (c : C), answer (len c) use = .ok () → ∃ c', run use c = (c', .ok ()) ∧
    slots c' = land (target use) (effect use) (slots c)

section Law

variable {C α ι : Type} [Inhabited α] [SeqVec C α] [LawfulSeqVec C α]
  {run : ι → Step C Error Unit} {answer : ℕ → ι → Exit Error Unit} {target : ι → ℕ}
  {effect : ι → α → α} (h : Obeys (C := C) run answer target effect)

include h

/-- Each use is answered as the container it meets demands. -/
theorem Obeys.exit_eq (use : ι) (c : C) : (run use c).2 = answer (len c) use := by
  by_cases hok : answer (len c) use = .ok ()
  · obtain ⟨c', hrun, -⟩ := h.landed use c hok
    rw [hrun, hok]
  · rw [h.refused use c hok]

/-- What was granted has landed, from any container. -/
theorem Obeys.slots_drive (uses : List ι) (c : C) :
    slots (drive run uses c).1 =
      landAll target effect (granted uses (drive run uses c).2) (slots c) := by
  induction uses generalizing c with
  | nil => rfl
  | cons use uses ih =>
    rw [drive_cons, ih, granted]
    by_cases hok : answer (len c) use = .ok ()
    · obtain ⟨c', hrun, hslots⟩ := h.landed use c hok
      rw [hrun, if_pos rfl, landAll_cons, hslots]
    · rw [h.refused use c hok, if_neg hok]

/-- The law of a run. -/
theorem Obeys.law {value : List ι → α}
    (hvalue : ∀ uses, uses.foldl (fun x use => effect use x) default = value uses)
    (uses : List ι) {empty : C} (hempty : len empty = 0) :
    PlacementLaw run answer target value uses empty := by
  have hnone : slots empty = [] :=
    List.eq_nil_of_length_eq_zero ((len_eq empty).symm.trans hempty)
  have hslots := h.slots_drive uses empty
  rw [hnone] at hslots
  refine ⟨fun i hi => ?_, fun i hi hrefused => ?_, ?_, fun j hj => ?_⟩
  · rw [drive_report run uses empty hi, h.exit_eq]
  · rw [drive_take_succ run uses empty hi, h.refused _ _ hrefused]
  · rw [len_eq, hslots, length_landAll, List.length_nil, Nat.zero_max]
  · have hget := getD_landAll target effect (granted uses (drive run uses empty).2) [] j
    rw [List.getElem?_nil, Option.getD_none, hvalue, ← hslots] at hget
    rw [len_eq] at hj
    rw [slotMut_eq, ← hget, List.getElem?_eq_getElem hj, Option.getD_some]

end Law

/-! ## The law of each reservation -/

/-- A check passes the ids below the size and answers the others with the verdict. -/
theorem checkIndex_eq (id : Id) (bound : Bound) :
    checkIndex id bound = if id.toNat < bound.size then .ok () else .error bound.verdict := by
  have hask (n : ℕ) (e : Error) : (if n ≤ id.toNat then .error e else .ok () : Except Error Unit) =
      if id.toNat < n then .ok () else .error e := by
    simp only [← Nat.not_lt, ite_not]
  cases bound with
  | schema n => exact hask n _
  | cap n =>
    cases n with
    | zero => rfl
    | succ n => exact hask (n + 1) _

section Reservations

variable {C α : Type} [Inhabited α] [SeqVec C α] [LawfulSeqVec C α] {limit : Option ℕ}
  (hlimit : ∀ n, Holds C n ↔ ∀ N ∈ limit, n ≤ N)

include hlimit

/-- A container holds a slot within the limit; a slot that it already has is within it. -/
theorem holds_iff_admitted (id : Id) (c : C) : Holds C (id.toNat + 1) ↔
    ∀ N ∈ limit, id.toNat + 1 ≤ N ∨ id.toNat < len c := by
  rw [hlimit]
  refine forall₂_congr fun N hN => ⟨Or.inl, ?_⟩
  rintro (hfits | hlt)
  · exact hfits
  · have hheld : (slots c).length ≤ N := (hlimit _).mp (holds_slots c) N hN
    rw [len_eq] at hlt
    omega

/-- An admitted element is reserved, and the container holds its slot. -/
theorem reserveElem_of_admitted {id : Id} {bound : Bound} {c : C}
    (h : admission limit (len c) id bound = .ok ()) :
    ∃ c', reserveElem id bound c = (c', .ok id.toNat) ∧
      slots c' = extended (slots c) (id.toNat + 1) := by
  rw [admission] at h
  split at h
  · next hid =>
    split at h
    · next hfits =>
      exact reserveElem_ok ((checkIndex_eq id bound).trans (if_pos hid))
        ((holds_iff_admitted hlimit id c).mpr hfits) c
    · cases h
  · cases h

/-- An element that is not admitted is refused, and the container stays as it is. -/
theorem reserveElem_of_not_admitted {id : Id} {bound : Bound} {c : C}
    (h : admission limit (len c) id bound ≠ .ok ()) :
    ∃ e, admission limit (len c) id bound = .err e ∧ reserveElem id bound c = (c, .err e) := by
  rw [admission] at h ⊢
  split at h
  · next hid =>
    rw [if_pos hid]
    split at h
    · exact absurd rfl h
    · next hfull =>
      refine ⟨.argument, if_neg hfull, ?_⟩
      exact reserveElem_full ((checkIndex_eq id bound).trans (if_pos hid))
        (mt (holds_iff_admitted hlimit id c).mp hfull) c
  · next hid =>
    rw [if_neg hid]
    exact ⟨_, rfl, reserveElem_refused ((checkIndex_eq id bound).trans (if_neg hid)) c⟩

/-- Placing a leaf element. -/
theorem obeys_place : Obeys (C := C) (α := α) Placement.run (Placement.answer limit)
    (·.id.toNat) (fun p _ => p.value) where
  refused p c h := by
    obtain ⟨e, hanswer, hreserve⟩ := reserveElem_of_not_admitted hlimit h
    rw [Placement.run, placeElem, bind_err hreserve, Placement.answer, hanswer]
  landed p c h := by
    obtain ⟨c', hreserve, hslots⟩ := reserveElem_of_admitted hlimit h
    refine ⟨_, by rw [Placement.run, placeElem, bind_ok hreserve]; rfl, ?_⟩
    rw [slots_modify, hslots, land]

/-- Using the slots that a reservation hands back, changed by `reserved` first. -/
theorem obeys_use {reserve : Id → Bound → Step C Error ℕ} {reserved : α → α}
    (hreserve : ∀ id bound, reserve id bound = (reserveElem id bound >>= fun i =>
      update (fun out => modify out i reserved) >>= fun _ => pure i)) :
    Obeys (SlotUse.run reserve) (SlotUse.answer limit) SlotUse.target fun use x =>
      use.change (if use.isFrame then reserved x else x) where
  refused use c h := by
    cases use with
    | frame id bound change =>
      obtain ⟨e, hanswer, hrefused⟩ := reserveElem_of_not_admitted hlimit h
      rw [SlotUse.run, reserveThen, hreserve, bind_err (bind_err hrefused _), SlotUse.answer,
        hanswer]
    | revisit i change =>
      rw [SlotUse.answer] at h ⊢
      split at h
      · exact absurd rfl h
      · next hi =>
        have hnone : slotAt i c = (c, .err .argument) := by
          rw [slotAt, slotMut_eq, List.getElem?_eq_none (by rwa [len_eq, Nat.not_lt] at hi)]
          rfl
        rw [SlotUse.run, reserveThen, bind_err hnone, if_neg hi]
  landed use c h := by
    cases use with
    | frame id bound change =>
      obtain ⟨c', hok, hslots⟩ := reserveElem_of_admitted hlimit h
      refine ⟨_, by rw [SlotUse.run, reserveThen, hreserve, Step.bind_assoc, bind_ok hok]; rfl, ?_⟩
      rw [slots_modify, slots_modify, hslots, List.modify_modify_eq]
      rfl
    | revisit i change =>
      rw [SlotUse.answer] at h
      split at h
      · next hi =>
        rw [len_eq] at hi
        refine ⟨_, by rw [SlotUse.run, reserveThen, bind_ok (slotAt_of_lt hi)]; rfl, ?_⟩
        rw [slots_modify, SlotUse.target, land, extended_of_le hi]
        rfl
      · cases h

/-- Reserving an element hands its slot back as it is. -/
theorem obeys_elem : Obeys (C := C) (α := α) (SlotUse.run reserveElem) (SlotUse.answer limit)
    SlotUse.target SlotUse.change := by
  have hsame (c : C) (i : ℕ) : modify c i id = c :=
    LawfulSeqVec.ext (by rw [slots_modify, List.modify_id])
  have h := @obeys_use C α _ _ _ _ hlimit reserveElem id fun _ _ => by
    simp only [hsame]
    exact (Step.bind_pure _).symm
  simpa only [id, ite_self] using h

/-- Reserving a row empties it. -/
theorem obeys_row {β : Type} [Inhabited β] [SeqVec α β] [LawfulSeqVec α β] {emptyRow : α}
    (hempty : len emptyRow = 0) :
    Obeys (C := C) (α := α) (SlotUse.run reserveRow) (SlotUse.answer limit) SlotUse.target
      (rowEffect emptyRow) := by
  have hclear (row : α) : clear row = emptyRow := by
    apply LawfulSeqVec.ext
    rw [slots_clear, List.eq_nil_of_length_eq_zero ((len_eq emptyRow).symm.trans hempty)]
  have h := @obeys_use C α _ _ _ _ hlimit reserveRow clear fun _ _ => rfl
  simp only [hclear] at h
  exact h

end Reservations

/-! ## The two containers -/

/-- The law of the three reservations in a growable container and in one of at most `N` slots,
for any rows: a leaf element's slot holds the value placed last, a compound element's the
changes made to it in order, and a row the changes since it was last framed. -/
theorem placement_law {α ρ β : Type} [Inhabited α] [Inhabited ρ] [Inhabited β] [SeqVec ρ β]
    [LawfulSeqVec ρ β] (emptyRow : ρ) (hempty : len emptyRow = 0) (N : ℕ)
    (placements : List (Placement α)) (elems : List (SlotUse α)) (rows : List (SlotUse ρ)) :
    (PlacementLaw Placement.run (Placement.answer none) (·.id.toNat) lastPlaced placements
        (⟨[]⟩ : Vec α) ∧
      PlacementLaw Placement.run (Placement.answer (some N)) (·.id.toNat) lastPlaced placements
        (⟨[], Nat.zero_le N⟩ : HeaplessVec N α)) ∧
    (PlacementLaw (SlotUse.run reserveElem) (SlotUse.answer none) SlotUse.target
        (merged · default) elems (⟨[]⟩ : Vec α) ∧
      PlacementLaw (SlotUse.run reserveElem) (SlotUse.answer (some N)) SlotUse.target
        (merged · default) elems (⟨[], Nat.zero_le N⟩ : HeaplessVec N α)) ∧
    (PlacementLaw (SlotUse.run reserveRow) (SlotUse.answer none) SlotUse.target
        (rowValue emptyRow) rows (⟨[]⟩ : Vec ρ) ∧
      PlacementLaw (SlotUse.run reserveRow) (SlotUse.answer (some N)) SlotUse.target
        (rowValue emptyRow) rows (⟨[], Nat.zero_le N⟩ : HeaplessVec N ρ)) := by
  have hvec (γ : Type) [Inhabited γ] (n : ℕ) : Holds (Vec γ) n ↔ ∀ N ∈ none, n ≤ N :=
    iff_of_true trivial (by simp)
  have hheapless (γ : Type) [Inhabited γ] (n : ℕ) :
      Holds (HeaplessVec N γ) n ↔ ∀ M ∈ some N, n ≤ M := by
    simp only [Option.mem_some_iff, forall_eq']
    rfl
  refine ⟨⟨?_, ?_⟩, ⟨?_, ?_⟩, ?_, ?_⟩
  · exact (obeys_place (hvec α)).law (foldl_placed · default) placements rfl
  · exact (obeys_place (hheapless α)).law (foldl_placed · default) placements rfl
  · exact (obeys_elem (hvec α)).law (fun _ => rfl) elems rfl
  · exact (obeys_elem (hheapless α)).law (fun _ => rfl) elems rfl
  · exact (obeys_row (hvec ρ) hempty).law (foldl_rowEffect emptyRow · default) rows rfl
  · exact (obeys_row (hheapless ρ) hempty).law (foldl_rowEffect emptyRow · default) rows rfl

/-- Two slots: an id past the schema, one past the container, one past the capacity and one
that nothing may reach are refused between two values for the same slot; a row is framed twice
and taken up once more. -/
theorem placement_law_two :
    let placements : List (Placement UInt8) := [⟨1, .schema 3, 7⟩, ⟨3, .schema 3, 8⟩,
      ⟨2, .cap 9, 9⟩, ⟨9, .cap 9, 1⟩, ⟨0, .cap 0, 1⟩, ⟨1, .cap 2, 5⟩]
    let rows : List (SlotUse (Vec UInt8)) := [.frame 1 (.cap 2) (fun row => ⟨row.slots ++ [7]⟩),
      .frame 1 (.cap 2) (fun row => ⟨row.slots ++ [8]⟩), .revisit 1 (fun row => ⟨row.slots ++ [9]⟩)]
    let placed := drive Placement.run placements (⟨[], Nat.zero_le 2⟩ : HeaplessVec 2 UInt8)
    placed.2 = [.ok (), .err .invalidMsg, .err .argument, .err .limitExceeded, .err .argument,
        .ok ()] ∧
      len placed.1 = 2 ∧ slotMut placed.1 0 = some 0 ∧ slotMut placed.1 1 = some 5 ∧
      slotMut (drive (SlotUse.run reserveRow) rows (⟨[]⟩ : Vec (Vec UInt8))).1 1 =
        some ⟨[8, 9]⟩ := by
  intro placements rows placed
  obtain ⟨⟨-, hplaced⟩, -, hrows, -⟩ :=
    placement_law (⟨[]⟩ : Vec UInt8) rfl 2 placements [] rows
  refine ⟨rfl, hplaced.length.trans rfl, ?_, ?_, ?_⟩
  · exact (hplaced.slot 0 (by decide)).trans rfl
  · exact (hplaced.slot 1 (by decide)).trans rfl
  · exact (hrows.slot 1 (by decide)).trans rfl

/-! ## A count ahead of its elements -/

/-- The count that an id completes is checked as the id. -/
theorem checkLen_succ (id : Id) (bound : Bound) :
    checkLen (id.toNat + 1) bound = checkIndex id bound := by
  have hask (n : ℕ) (e : Error) :
      (if n < id.toNat + 1 then .error e else .ok () : Except Error Unit) =
        if n ≤ id.toNat then .error e else .ok () := by
    simp only [Nat.lt_add_one_iff]
  cases bound with
  | schema n => exact hask n _
  | cap n =>
    cases n with
    | zero => rfl
    | succ n => exact hask (n + 1) _

section Counting

variable {C α : Type} [Inhabited α] [SeqVec C α] [LawfulSeqVec C α] {bound : Bound}

/-- Placing under one bound in a container that has room for it. -/
theorem obeys_roomy (hroom : Holds C bound.size) :
    Obeys (C := C) (fun element : Id × α => placeElem element.1 bound element.2)
      (fun _ element => if element.1.toNat < bound.size then .ok () else .err bound.verdict)
      (·.1.toNat) (fun element _ => element.2) where
  refused element c h := by
    split at h
    · exact absurd rfl h
    · next hid =>
      have hcheck := (checkIndex_eq element.1 bound).trans (if_neg hid)
      rw [placeElem, bind_err (reserveElem_refused hcheck c), if_neg hid]
  landed element c h := by
    split at h
    · next hid =>
      have hcheck := (checkIndex_eq element.1 bound).trans (if_pos hid)
      obtain ⟨c', hreserve, hslots⟩ :=
        reserveElem_ok hcheck (holds_of_le (Nat.succ_le_of_lt hid) hroom) c
      refine ⟨_, by rw [placeElem, bind_ok hreserve]; rfl, ?_⟩
      rw [slots_modify, hslots, land]
    · cases h

/-- Under one bound every element is answered by its id alone. -/
theorem drive_roomy (hroom : Holds C bound.size) (elements : List (Id × α)) (c : C) :
    (drive (fun element => placeElem element.1 bound element.2) elements c).2 =
      elements.map fun element =>
        if element.1.toNat < bound.size then .ok () else .err bound.verdict := by
  induction elements generalizing c with
  | nil => rfl
  | cons element elements ih =>
    rw [drive_cons, ih, List.map_cons]
    exact congrArg (· :: _) ((obeys_roomy hroom).exit_eq element c)

omit [Inhabited α] in
/-- What fits is granted. -/
theorem granted_map_roomy (elements : List (Id × α)) :
    granted elements (elements.map fun element =>
      if element.1.toNat < bound.size then .ok () else .err bound.verdict) =
        elements.filter (·.1.toNat < bound.size) := by
  induction elements with
  | nil => rfl
  | cons element elements ih =>
    rw [List.map_cons, granted, ih]
    by_cases hid : element.1.toNat < bound.size <;> simp [hid]

/-- A container that has room ends with the slots that what fits takes. -/
theorem len_drive_roomy (hroom : Holds C bound.size) {empty : C} (hempty : len empty = 0)
    (elements : List (Id × α)) :
    len (drive (fun element => placeElem element.1 bound element.2) elements empty).1 =
      ((elements.filter (·.1.toNat < bound.size)).map (·.1.toNat)).max?.elim 0 (· + 1) := by
  rw [len_eq, (obeys_roomy hroom).slots_drive, drive_roomy hroom, granted_map_roomy, length_landAll,
    ← len_eq, hempty, Nat.zero_max]

/-- A count is checked as the elements that it announces: the check of the count that they come
to answers the error that any of them is answered, and no error if none is. A container that has
room for the bound ends within it, and has come to the count if the check passes. -/
theorem count_word_exact (hroom : Holds C bound.size) {empty : C} (hempty : len empty = 0)
    {elements : List (Id × α)} (hsome : elements ≠ []) :
    let count := (elements.map (·.1.toNat)).max?.elim 0 (· + 1)
    let placed := drive (fun element => placeElem element.1 bound element.2) elements empty
    (∀ e, .err e ∈ placed.2 ↔ checkLen count bound = .error e) ∧
      len placed.1 ≤ bound.size ∧ (checkLen count bound = .ok () → len placed.1 = count) := by
  intro count placed
  obtain ⟨highest, hhighest⟩ : ∃ highest, (elements.map (·.1.toNat)).max? = some highest :=
    Option.ne_none_iff_exists'.mp (by simpa [List.max?_eq_none_iff] using hsome)
  obtain ⟨hmem, hle⟩ := List.max?_eq_some_iff.mp hhighest
  obtain ⟨top, htop, rfl⟩ := List.mem_map.mp hmem
  have hcount : count = top.1.toNat + 1 := by simp [count, hhighest]
  have hcheck : checkLen count bound =
      if top.1.toNat < bound.size then .ok () else .error bound.verdict := by
    rw [hcount, checkLen_succ, checkIndex_eq]
  have hbelow (element : Id × α) (h : element ∈ elements) : element.1.toNat ≤ top.1.toNat :=
    hle _ (List.mem_map_of_mem h)
  refine ⟨fun e => ?_, ?_, fun hpass => ?_⟩
  · have hanswered : Exit.err e ∈ placed.2 ↔
        ∃ element ∈ elements, ¬element.1.toNat < bound.size ∧ bound.verdict = e := by
      rw [drive_roomy hroom, List.mem_map]
      refine exists_congr fun element => and_congr_right fun _ => ?_
      split <;> simp_all
    rw [hanswered, hcheck]
    constructor
    · rintro ⟨element, helement, hid, rfl⟩
      exact if_neg fun hfits => hid (Nat.lt_of_le_of_lt (hbelow element helement) hfits)
    · intro herror
      split at herror
      · cases herror
      · next hid =>
        cases herror
        exact ⟨top, htop, hid, rfl⟩
  · rw [len_drive_roomy hroom hempty]
    cases hkept : ((elements.filter (·.1.toNat < bound.size)).map (·.1.toNat)).max? with
    | none => exact Nat.zero_le _
    | some last =>
      obtain ⟨element, helement, rfl⟩ := List.mem_map.mp (List.max?_eq_some_iff.mp hkept).1
      exact of_decide_eq_true (List.mem_filter.mp helement).2
  · have hfits : top.1.toNat < bound.size := by
      by_contra hid
      rw [hcheck, if_neg hid] at hpass
      cases hpass
    have hall : elements.filter (·.1.toNat < bound.size) = elements :=
      List.filter_eq_self.mpr fun element helement =>
        decide_eq_true (Nat.lt_of_le_of_lt (hbelow element helement) hfits)
    rw [len_drive_roomy hroom hempty, hall]

/-- Two elements and a gap in a container of three, within a bound of three and past one of two. -/
theorem count_word_exact_gap :
    let run (bound : Bound) := drive (fun element : Id × UInt8 => placeElem element.1 bound element.2)
      [(2, 7), (0, 9)] (⟨[], Nat.zero_le 3⟩ : HeaplessVec 3 UInt8)
    len (run (.schema 3)).1 = 3 ∧ .err .limitExceeded ∈ (run (.cap 2)).2 := by
  intro run
  constructor
  · have h := @count_word_exact (HeaplessVec 3 UInt8) UInt8 _ _ _ (.schema 3) (Nat.le_refl 3)
      ⟨[], Nat.zero_le 3⟩ rfl [(2, 7), (0, 9)] (List.cons_ne_nil _ _)
    exact h.2.2 rfl
  · have h := @count_word_exact (HeaplessVec 3 UInt8) UInt8 _ _ _ (.cap 2) (Nat.le_succ 2)
      ⟨[], Nat.zero_le 3⟩ rfl [(2, 7), (0, 9)] (List.cons_ne_nil _ _)
    exact (h.1 .limitExceeded).mpr rfl

end Counting

end Sofab
