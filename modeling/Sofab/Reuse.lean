import Sofab.Seq

/-!
# Reusing a destination

A destination that holds an earlier decode is cleaned slot by slot as the new one reaches it.
The slots at and past the live count are leftovers, so a reused container is like a fresh one
when its first `live` slots are the fresh container's.
-/

namespace Sofab

open Steps Step SeqVec

/-- A container that behaves like a sequence of slots. It either holds `n` slots or refuses
to grow to them, whatever is in it. -/
class LawfulSeqVec (C : Type) (α : outParam Type) [Inhabited α] [SeqVec C α] where
  slots : C → List α
  Holds : ℕ → Prop
  ext : ∀ {c d : C}, slots c = slots d → c = d
  holds_slots : ∀ c, Holds (slots c).length
  holds_of_le : ∀ {m n}, m ≤ n → Holds n → Holds m
  len_eq : ∀ c : C, len c = (slots c).length
  growTo_holds : ∀ {c : C} {n}, (slots c).length ≤ n → Holds n →
    ∃ c', growTo c n = (c', true) ∧
      slots c' = slots c ++ List.replicate (n - (slots c).length) default
  growTo_full : ∀ {c : C} {n}, ¬ Holds n → growTo c n = (c, false)
  slotMut_eq : ∀ (c : C) i, slotMut c i = (slots c)[i]?
  slots_write : ∀ (c : C) i x, slots (write c i x) = (slots c).set i x
  slots_truncate : ∀ (c : C) n, slots (truncate c n) = (slots c).take n
  slots_clear : ∀ c : C, slots (clear c) = []

section Containers

variable {α : Type} [Inhabited α] {N : ℕ}

/-- A vector is filled up with defaults. -/
theorem Vec.slots_pushDefaults (vec : Vec α) (left : ℕ) :
    (vec.pushDefaults left).slots = vec.slots ++ List.replicate left default := by
  induction left generalizing vec with
  | zero => rw [Vec.pushDefaults, List.replicate_zero, List.append_nil]
  | succ left ih =>
    rw [Vec.pushDefaults, ih, List.append_assoc, List.singleton_append, List.replicate_succ]

omit [Inhabited α] in
/-- A fixed vector with a slot left takes one more element. -/
theorem HeaplessVec.push_of_lt {vec : HeaplessVec N α} (hroom : vec.slots.length < N) (x : α) :
    ∃ vec', vec.push x = some vec' ∧ vec'.slots = vec.slots ++ [x] :=
  ⟨_, dif_pos hroom, rfl⟩

/-- Within the capacity every push of the loop finds room. -/
theorem HeaplessVec.pushDefaults_eq (vec : HeaplessVec N α) (left : ℕ)
    (hroom : vec.slots.length + left ≤ N) :
    ∃ vec', vec.pushDefaults left = (vec', true) ∧
      vec'.slots = vec.slots ++ List.replicate left default := by
  induction left generalizing vec with
  | zero => exact ⟨vec, rfl, by rw [List.replicate_zero, List.append_nil]⟩
  | succ left ih =>
    obtain ⟨pushed, hpush, hslots⟩ := push_of_lt (show vec.slots.length < N by omega) default
    have hlen : pushed.slots.length = vec.slots.length + 1 := by
      rw [hslots, List.length_append, List.length_singleton]
    obtain ⟨vec', hgrown, hslots'⟩ := ih pushed (by omega)
    refine ⟨vec', ?_, ?_⟩
    · rw [pushDefaults, hpush]
      exact hgrown
    · rw [hslots', hslots, List.append_assoc, List.singleton_append, List.replicate_succ]

instance : LawfulSeqVec (Vec α) α where
  slots := Vec.slots
  Holds _ := True
  ext {c d} h := by cases c; cases d; exact congrArg Vec.mk h
  holds_slots _ := trivial
  holds_of_le _ _ := trivial
  len_eq _ := rfl
  growTo_holds _ _ := ⟨_, rfl, Vec.slots_pushDefaults _ _⟩
  growTo_full h := absurd trivial h
  slotMut_eq _ _ := rfl
  slots_write _ _ _ := rfl
  slots_truncate _ _ := rfl
  slots_clear _ := rfl

instance : LawfulSeqVec (HeaplessVec N α) α where
  slots := HeaplessVec.slots
  Holds n := n ≤ N
  ext {c d} h := by cases c; cases d; cases h; rfl
  holds_slots c := c.fits
  holds_of_le := Nat.le_trans
  len_eq _ := rfl
  growTo_holds {c n} hlen hfits := by
    obtain ⟨c', hgrown, hslots⟩ :=
      HeaplessVec.pushDefaults_eq c (n - c.slots.length) (by omega)
    exact ⟨c', (if_neg (by omega)).trans hgrown, hslots⟩
  growTo_full h := if_pos (by omega)
  slotMut_eq _ _ := rfl
  slots_write _ _ _ := rfl
  slots_truncate _ _ := rfl
  slots_clear c := c.slots.take_zero

end Containers

/-- A list made at least `n` long by defaults. -/
def extended {α : Type} [Inhabited α] (l : List α) (n : ℕ) : List α :=
  l ++ List.replicate (n - l.length) default

section Extended

variable {α : Type} [Inhabited α]

/-- An extended list is as long as asked for at least. -/
@[simp] theorem length_extended (l : List α) (n : ℕ) :
    (extended l n).length = max l.length n := by
  rw [extended, List.length_append, List.length_replicate]
  omega

/-- A list that is long enough is not extended. -/
theorem extended_of_le {l : List α} {n : ℕ} (h : n ≤ l.length) : extended l n = l := by
  rw [extended, Nat.sub_eq_zero_of_le h, List.replicate_zero, List.append_nil]

/-- Past the old length an extended list holds defaults. -/
theorem getElem?_extended (l : List α) (n j : ℕ) :
    (extended l n)[j]? = if j < l.length then l[j]? else if j < n then some default else none := by
  rw [extended, List.getElem?_append]
  split
  · rfl
  · rw [List.getElem?_replicate]
    congr 1
    exact propext (by omega)

end Extended

open LawfulSeqVec

/-! ## What the reservations leave -/

section Reserving

variable {C α : Type} [Inhabited α] [SeqVec C α] [LawfulSeqVec C α]

/-- Changing a slot changes that slot of the contents. -/
theorem slots_modify (c : C) (i : ℕ) (f : α → α) :
    slots (modify c i f) = (slots c).modify i f := by
  rw [SeqVec.modify, slotMut_eq]
  rcases hslot : (slots c)[i]? with _ | x
  · exact (List.modify_eq_self (List.getElem?_eq_none_iff.mp hslot)).symm
  · obtain ⟨hi, hx⟩ := List.getElem?_eq_some_iff.mp hslot
    change slots (write c i (f x)) = _
    rw [slots_write, List.modify_eq_set, hslot, Option.getD_some]

/-- A slot that is there is found. -/
theorem slotAt_of_lt {c : C} {i : ℕ} (hi : i < (slots c).length) : slotAt i c = (c, .ok i) := by
  rw [slotAt, slotMut_eq, List.getElem?_eq_getElem hi]
  rfl

/-- A container that holds one more slot than `i` has the slot at `i` after growing. -/
theorem growFor_ok {c : C} {i : ℕ} (hholds : Holds C (i + 1)) :
    ∃ c', growFor i c = (c', .ok ()) ∧ slots c' = extended (slots c) (i + 1) := by
  by_cases hlen : (slots c).length ≤ i
  · obtain ⟨c', hgrown, hslots⟩ := growTo_holds (Nat.le_succ_of_le hlen) hholds
    exact ⟨c', by rw [growFor, len_eq, if_pos hlen, hgrown], hslots⟩
  · exact ⟨c, by rw [growFor, len_eq, if_neg hlen], (extended_of_le (by omega)).symm⟩

/-- A container that cannot hold so many has fewer slots. -/
theorem lt_of_not_holds {c : C} {n : ℕ} (hfull : ¬ Holds C n) : (slots c).length < n :=
  Nat.lt_of_not_le fun h => hfull (holds_of_le h (holds_slots c))

/-- A container that is full does not grow. -/
theorem growFor_full {c : C} {i : ℕ} (hfull : ¬ Holds C (i + 1)) :
    growFor i c = (c, .err .argument) := by
  rw [growFor, len_eq, if_pos (Nat.le_of_lt_succ (lt_of_not_holds hfull)), growTo_full hfull]

omit [Inhabited α] [LawfulSeqVec C α] in
/-- An element that fails the check is refused, and the container stays as it is. -/
theorem reserveElem_refused {id : Id} {bound : Bound} {e : Error}
    (hcheck : checkIndex id bound = .error e) (c : C) :
    reserveElem id bound c = (c, .err e) := by
  rw [reserveElem, hcheck, ofExcept_bind_error]

/-- An element that the container cannot hold is refused, and the container stays as it is. -/
theorem reserveElem_full {id : Id} {bound : Bound} (hcheck : checkIndex id bound = .ok ())
    (hfull : ¬ Holds C (id.toNat + 1)) (c : C) : reserveElem id bound c = (c, .err .argument) := by
  rw [reserveElem, hcheck, ofExcept_bind_ok, bind_err (growFor_full hfull)]

/-- An element that passes and can be held is reserved, and the container holds its slot. -/
theorem reserveElem_ok {id : Id} {bound : Bound} (hcheck : checkIndex id bound = .ok ())
    (hholds : Holds C (id.toNat + 1)) (c : C) :
    ∃ c', reserveElem id bound c = (c', .ok id.toNat) ∧
      slots c' = extended (slots c) (id.toNat + 1) := by
  obtain ⟨c', hgrown, hslots⟩ := growFor_ok (c := c) hholds
  have hi : id.toNat < (slots c').length := by
    rw [hslots, length_extended]
    omega
  exact ⟨c', by rw [reserveElem, hcheck, ofExcept_bind_ok, bind_ok hgrown, slotAt_of_lt hi],
    hslots⟩

end Reserving

/-! ## What the reusing reservations leave -/

section Reusing

variable {C α : Type} [Inhabited α] [SeqVec C α] [LawfulSeqVec C α]

/-- A slot that is there is reset if asked for, and no other one is touched. -/
theorem resetAt_ok (ask : Bool) (reset : α → α) {c : C} {i : ℕ} (hi : i < (slots c).length) :
    ∃ c', resetAt ask reset i c = (c', .ok i) ∧
      slots c' = (slots c).modify i fun x => if ask then reset x else x := by
  refine ⟨if ask then SeqVec.modify c i reset else c, ?_, ?_⟩
  · rw [resetAt, bind_ok (slotAt_of_lt hi), update_bind, pure_apply]
  · cases ask
    · exact (List.modify_id i _).symm
    · exact slots_modify c i reset

/-- Resetting `left` slots gives each of them the default and touches no other. -/
theorem resetFrom_ok {reset : α → α} (hreset : ∀ x, reset x = default) (left : ℕ) {c : C} {j : ℕ}
    (hlen : j + left ≤ (slots c).length) :
    ∃ c', resetFrom reset j left c = (c', .ok ()) ∧
      (slots c').length = (slots c).length ∧
      ∀ k, (slots c')[k]? = if j ≤ k ∧ k < j + left then some default else (slots c)[k]? := by
  induction left generalizing c j with
  | zero =>
    refine ⟨c, rfl, rfl, fun k => ?_⟩
    rw [if_neg (by omega)]
  | succ left ih =>
    obtain ⟨d, hd, hslots⟩ := resetAt_ok true reset (c := c) (i := j) (by omega)
    replace hslots : slots d = (slots c).modify j reset := hslots
    have hdlen : (slots d).length = (slots c).length := by rw [hslots, List.length_modify]
    obtain ⟨c', hc', hlen', hget⟩ := ih (c := d) (j := j + 1) (by omega)
    refine ⟨c', ?_, hlen'.trans hdlen, fun k => ?_⟩
    · rw [resetFrom, bind_ok hd, hc']
    · rw [hget k, hslots]
      by_cases hk : j = k
      · subst hk
        rw [if_neg (by omega), if_pos (by omega), List.getElem?_modify_eq,
          List.getElem?_eq_getElem (by omega), Option.map_eq_map, Option.map_some, hreset]
      · rw [List.getElem?_modify_ne reset _ hk]
        congr 1
        exact propext (by omega)

omit [SeqVec C α] [LawfulSeqVec C α] in
/-- What the slots up to `i` are, once those from `live` on are defaults. -/
theorem take_eq_extended {l l' : List α} {live i : ℕ} (hlive : live ≤ l.length) (hi : live ≤ i)
    (hget : ∀ k ≤ i, l'[k]? = if k < live then l[k]? else some default) :
    l'.take (i + 1) = extended (l.take live) (i + 1) := by
  apply List.ext_getElem?
  intro k
  rw [getElem?_extended, List.getElem?_take, List.length_take, Nat.min_eq_left hlive]
  by_cases hk : k < i + 1
  · rw [if_pos hk, if_pos hk, hget k (by omega)]
    split
    · rw [List.getElem?_take_of_lt (by assumption)]
    · rfl
  · rw [if_neg hk, if_neg hk, if_neg (by omega)]

omit [SeqVec C α] [LawfulSeqVec C α] in
/-- A slot that was added is a default already. -/
theorem modify_extended (ask : Bool) {l : List α} {i : ℕ} (hi : l.length ≤ i) :
    (extended l (i + 1)).modify i (fun x => if ask then default else x) = extended l (i + 1) := by
  apply List.ext_getElem?
  intro k
  rw [List.getElem?_modify, getElem?_extended]
  by_cases hk : i = k
  · subst hk
    rw [if_neg (Nat.not_lt_of_le hi), if_pos (Nat.lt_succ_self i)]
    cases ask <;> simp
  · simp [hk]

omit [Inhabited α] [LawfulSeqVec C α] in
/-- An element that fails the check is refused, and nothing reused is touched. -/
theorem reuseSlot_refused {id : Id} {bound : Bound} {e : Error}
    (hcheck : checkIndex id bound = .error e) (replace : Bool) (reset : α → α)
    (reused : Reused C) : reuseSlot replace id bound reset reused = (reused, .err e) := by
  rw [reuseSlot, hcheck, ofExcept_bind_error]

/-- A step on the container that succeeds leaves the live length as it is. -/
theorem onOut_ok {β : Type} {m : Step C Error β} {out out' : C} {b : β}
    (h : m out = (out', .ok b)) (live : ℕ) :
    Reused.onOut m ⟨out, live⟩ = (⟨out', live⟩, .ok b) := by
  rw [Reused.onOut, h]

/-- A step on the container that fails leaves the live length as it is. -/
theorem onOut_err {β : Type} {m : Step C Error β} {out out' : C} {e : Error}
    (h : m out = (out', .err e)) (live : ℕ) :
    Reused.onOut m ⟨out, live⟩ = (⟨out', live⟩, .err e) := by
  rw [Reused.onOut, h]

/-- A refused growth leaves the container and the live count as they were. -/
theorem reuseSlot_full {id : Id} {bound : Bound} (hcheck : checkIndex id bound = .ok ())
    (hfull : ¬ Holds C (id.toNat + 1)) (replace : Bool) (reset : α → α) {out : C} {live : ℕ}
    (hlive : live ≤ (slots out).length) :
    reuseSlot replace id bound reset ⟨out, live⟩ = (⟨out, live⟩, .err .argument) := by
  have hlen := lt_of_not_holds (c := out) hfull
  rw [reuseSlot, hcheck, ofExcept_bind_ok, self_bind, self_bind]
  dsimp only
  rw [len_eq, if_neg (by omega), if_neg (by omega), bind_err (onOut_err (growFor_full hfull) live)]

/-- Below the live count the slot is the decode's own, reset only to be replaced. -/
theorem reuseSlot_below {id : Id} {bound : Bound} (hcheck : checkIndex id bound = .ok ())
    (replace : Bool) (reset : α → α) {out : C} {live : ℕ} (hlive : live ≤ (slots out).length)
    (hid : id.toNat < live) :
    ∃ out', reuseSlot replace id bound reset ⟨out, live⟩ = (⟨out', live⟩, .ok id.toNat) ∧
      slots out' = (slots out).modify id.toNat fun x => if replace then reset x else x := by
  obtain ⟨out', hreset, hslots⟩ := resetAt_ok replace reset (c := out) (i := id.toNat) (by omega)
  refine ⟨out', ?_, hslots⟩
  rw [reuseSlot, hcheck, ofExcept_bind_ok, self_bind, self_bind]
  dsimp only
  rw [if_neg (by omega), if_pos hid, onOut_ok hreset live]

/-- From the live count on the slot is a fresh one, and so is every slot skipped. -/
theorem reuseSlot_past {id : Id} {bound : Bound} (hcheck : checkIndex id bound = .ok ())
    (hholds : Holds C (id.toNat + 1)) (replace : Bool) {reset : α → α}
    (hreset : ∀ x, reset x = default) {out : C} {live : ℕ} (hlive : live ≤ (slots out).length)
    (hid : live ≤ id.toNat) :
    ∃ out', reuseSlot replace id bound reset ⟨out, live⟩ =
        (⟨out', id.toNat + 1⟩, .ok id.toNat) ∧
      id.toNat + 1 ≤ (slots out').length ∧
      (slots out').take (id.toNat + 1) =
        extended ((slots out).take live) (id.toNat + 1) := by
  by_cases hsteady : id.toNat = live ∧ id.toNat < (slots out).length
  · obtain ⟨rfl, hlt⟩ := hsteady
    obtain ⟨out', hdone, hslots⟩ := resetAt_ok true reset hlt
    refine ⟨out', ?_, ?_, take_eq_extended hlive (Nat.le_refl _) fun k hk => ?_⟩
    · rw [reuseSlot, hcheck, ofExcept_bind_ok, self_bind, self_bind]
      dsimp only
      rw [len_eq, if_pos ⟨rfl, hlt⟩, bind_ok (onOut_ok hdone _), update_bind, pure_apply]
    · rw [hslots, List.length_modify]
      exact hlt
    · rw [hslots, List.getElem?_modify]
      by_cases hki : id.toNat = k
      · subst hki
        rw [List.getElem?_eq_getElem hlt]
        simp [hreset]
      · simp [hki, show k < id.toNat by omega]
  · -- grown first; then the leftovers before the slot are reset, and the slot if it is one
    obtain ⟨grown, hgrown, hgslots⟩ := growFor_ok (c := out) hholds
    have hglen : (slots grown).length = max (slots out).length (id.toNat + 1) := by
      rw [hgslots, length_extended]
    obtain ⟨swept, hswept, hslen, hsget⟩ := resetFrom_ok hreset
      (min (slots out).length id.toNat - live) (c := grown) (j := live) (by omega)
    obtain ⟨out', hdone, hslots⟩ :=
      resetAt_ok (decide (id.toNat < (slots out).length)) reset (c := swept) (i := id.toNat)
        (by omega)
    refine ⟨out', ?_, ?_, take_eq_extended hlive hid fun k hk => ?_⟩
    · rw [reuseSlot, hcheck, ofExcept_bind_ok, self_bind, self_bind]
      dsimp only
      rw [len_eq, if_neg hsteady, if_neg (by omega), bind_ok (onOut_ok hgrown live),
        bind_ok (onOut_ok hswept live), bind_ok (onOut_ok hdone live), update_bind, pure_apply]
    · rw [hslots, List.length_modify]
      omega
    · have hkept : ∀ j, (slots grown)[j]? = if j < (slots out).length then (slots out)[j]?
          else if j < id.toNat + 1 then some default else none := fun j => by
        rw [hgslots, getElem?_extended]
      rw [hslots]
      by_cases hki : id.toNat = k
      · subst hki
        rw [List.getElem?_modify]
        have hlast : (slots swept)[id.toNat]? = if id.toNat < (slots out).length then
            (slots out)[id.toNat]? else some default := by
          rw [hsget, if_neg (by omega), hkept, if_pos (Nat.lt_succ_self id.toNat)]
        rw [hlast, if_neg (Nat.not_lt_of_le hid)]
        by_cases hlt : id.toNat < (slots out).length
        · rw [if_pos hlt, List.getElem?_eq_getElem hlt]
          simp [hlt, hreset]
        · rw [if_neg hlt]
          simp [hlt]
      · rw [List.getElem?_modify_ne _ _ hki, hsget, hkept, if_pos (show k < id.toNat + 1 by omega)]
        by_cases hkl : k < live
        · rw [if_pos hkl, if_neg (by omega), if_pos (by omega)]
        · rw [if_neg hkl]
          by_cases hleft : k < (slots out).length
          · rw [if_pos (by omega)]
          · rw [if_neg (by omega), if_neg hleft]

end Reusing

/-! ## A decode into either destination -/

/-- What happens to a wrapper array: it opens, or one element of it arrives and its update is
applied to the slot. -/
inductive Occurrence (α : Type)
  | wrapper
  | element (id : Id) (bound : Bound) (update : α → α)

section Twins

variable {C α : Type} [SeqVec C α]

/-- Reserve a slot of the reused container and apply the update to it. -/
def reuseThen (reserve : Step (Reused C) Error ℕ) (change : α → α) : Step (Reused C) Error Unit :=
  do
    let i ← reserve
    update fun reused => { reused with out := SeqVec.modify reused.out i change }

/-- Reserve a slot of the fresh container and apply the update to it. -/
def reserveThen (reserve : Step C Error ℕ) (change : α → α) : Step C Error Unit := do
  let i ← reserve
  update fun out => SeqVec.modify out i change

/-- An element's step on either side. -/
abbrev ElementStep (σ α : Type) := Id → Bound → (α → α) → Step σ Error Unit

/-- The three kinds of element: how it is stored when the destination is reused, and how when
the destination starts empty. -/
inductive Twins [Inhabited α] :
    ElementStep (Reused C) α → ElementStep C α → Prop
  | elem (reset : α → α) (hreset : ∀ x, reset x = default) :
      Twins (fun id bound => reuseThen (reuseElem id bound reset))
        (fun id bound => reserveThen (reserveElem id bound))
  | leaf (reset : α → α) (hreset : ∀ x, reset x = default) :
      Twins (fun id bound => reuseThen (reuseLeaf id bound reset))
        (fun id bound change => placeElem id bound (change default))
  | row {β : Type} [Inhabited β] [SeqVec α β] [LawfulSeqVec α β]
      (hempty : len (default : α) = 0) :
      Twins (fun id bound => reuseThen (reuseRow id bound))
        (fun id bound => reserveThen (reserveRow id bound))

/-- A step of a decode into a reused container. -/
def onReused (store : ElementStep (Reused C) α) : Occurrence α → Step (Reused C) Error Unit
  | .wrapper => update fun reused => { reused with live := 0 }
  | .element id bound change => store id bound change

/-- A step of a decode into a container that is emptied first. -/
def onFresh (store : ElementStep C α) : Occurrence α → Step C Error Unit
  | .wrapper => update clear
  | .element id bound change => store id bound change

variable [Inhabited α] [LawfulSeqVec C α]

/-- The first `live` slots of the reused container are the fresh one's. -/
structure LikeFresh (reused : Reused C) (fresh : C) : Prop where
  live_le : reused.live ≤ (slots reused.out).length
  slots_eq : slots fresh = (slots reused.out).take reused.live

/-- What each side does with one element: both refuse it in the same words and keep what they
have, or both land it in the slot it names, emptied first where it replaces. -/
structure Lands (replace : Bool) (reuse : ElementStep (Reused C) α) (reserve : ElementStep C α) :
    Prop where
  reuse_eq : ∀ id bound change, reuse id bound change =
    reuseThen (reuseSlot replace id bound fun _ => default) change
  reserve_refused : ∀ {id bound} {fresh : C} {e}, reserveElem id bound fresh = (fresh, .err e) →
    ∀ change, reserve id bound change fresh = (fresh, .err e)
  reserve_ok : ∀ {id bound} {fresh fresh' : C} {i}, reserveElem id bound fresh = (fresh', .ok i) →
    ∀ change, ∃ fresh'', reserve id bound change fresh = (fresh'', .ok ()) ∧
      slots fresh'' =
        (slots fresh').modify i fun x => change (if replace then default else x)

/-- Each of the three kinds of element lands alike on both sides. -/
theorem Lands.of_twins {reuse : ElementStep (Reused C) α} {reserve : ElementStep C α}
    (htwins : Twins reuse reserve) : ∃ replace, Lands replace reuse reserve := by
  cases htwins with
  | elem reset hreset =>
    obtain rfl : reset = fun _ => default := funext hreset
    refine ⟨false, ⟨fun _ _ _ => rfl, fun h change => ?_, fun h change => ?_⟩⟩
    · rw [reserveThen, bind_err h]
    · exact ⟨_, by rw [reserveThen, bind_ok h]; rfl, slots_modify _ _ _⟩
  | leaf reset hreset =>
    obtain rfl : reset = fun _ => default := funext hreset
    refine ⟨true, ⟨fun _ _ _ => rfl, fun h change => ?_, fun h change => ?_⟩⟩
    · rw [placeElem, bind_err h]
    · exact ⟨_, by rw [placeElem, bind_ok h]; rfl, slots_modify _ _ _⟩
  | row hempty =>
    have hclear : (clear : α → α) = fun _ => default := by
      funext row
      apply LawfulSeqVec.ext
      rw [slots_clear, List.eq_nil_of_length_eq_zero ((len_eq (default : α)).symm.trans hempty)]
    refine ⟨true, ⟨fun _ _ _ => ?_, fun h change => ?_, fun h change => ?_⟩⟩
    · rw [reuseRow, hclear]
    · rw [reserveThen, reserveRow, bind_err (bind_err h _)]
    · refine ⟨_, by rw [reserveThen, reserveRow, bind_assoc, bind_ok h]; rfl, ?_⟩
      rw [slots_modify, slots_modify, List.modify_modify_eq, hclear]
      rfl

/-- A check of the index that passes or names its error. -/
theorem checkIndex_cases (id : Id) (bound : Bound) :
    checkIndex id bound = .ok () ∨ ∃ e, checkIndex id bound = .error e := by
  rcases h : checkIndex id bound with e | _
  · exact Or.inr ⟨e, rfl⟩
  · exact Or.inl rfl

/-- One element is stored alike on either side. -/
theorem LikeFresh.element {replace : Bool} {reuse : ElementStep (Reused C) α}
    {reserve : ElementStep C α} (hlands : Lands replace reuse reserve) {reused : Reused C}
    {fresh : C} (h : LikeFresh reused fresh) (id : Id) (bound : Bound) (change : α → α) :
    (reuse id bound change reused).2 = (reserve id bound change fresh).2 ∧
      LikeFresh (reuse id bound change reused).1 (reserve id bound change fresh).1 := by
  obtain ⟨out, live⟩ := reused
  obtain ⟨hlive, hfresh⟩ := h
  replace hlive : live ≤ (slots out).length := hlive
  replace hfresh : slots fresh = (slots out).take live := hfresh
  have hfreshLen : (slots fresh).length = live := by
    rw [hfresh, List.length_take, Nat.min_eq_left hlive]
  rw [hlands.reuse_eq]
  rcases checkIndex_cases id bound with hcheck | ⟨e, hcheck⟩
  · by_cases hholds : Holds C (id.toNat + 1)
    · obtain ⟨fresh', hreserve, hslots⟩ := reserveElem_ok hcheck hholds fresh
      obtain ⟨fresh'', hstored, hslots'⟩ := hlands.reserve_ok hreserve change
      rw [hstored]
      by_cases hid : id.toNat < live
      · obtain ⟨out', hreuse, hout⟩ :=
          reuseSlot_below hcheck replace (fun _ => default) hlive hid
        rw [reuseThen, bind_ok hreuse]
        refine ⟨rfl, ?_, ?_⟩
        · change live ≤ (slots (SeqVec.modify out' id.toNat change)).length
          rw [slots_modify, List.length_modify, hout, List.length_modify]
          exact hlive
        · change _ = (slots (SeqVec.modify out' id.toNat change)).take live
          rw [hslots', hslots, extended_of_le (by omega), slots_modify, hout,
            List.modify_modify_eq, List.take_modify, hfresh]
          rfl
      · obtain ⟨out', hreuse, hlen, htake⟩ :=
          reuseSlot_past hcheck hholds replace (fun _ => rfl) hlive (Nat.le_of_not_lt hid)
        rw [reuseThen, bind_ok hreuse]
        refine ⟨rfl, ?_, ?_⟩
        · change id.toNat + 1 ≤ (slots (SeqVec.modify out' id.toNat change)).length
          rw [slots_modify, List.length_modify]
          exact hlen
        · change _ = (slots (SeqVec.modify out' id.toNat change)).take (id.toNat + 1)
          calc slots fresh''
              = ((extended (slots fresh) (id.toNat + 1)).modify id.toNat
                  fun x => if replace then default else x).modify id.toNat change := by
                rw [hslots', hslots, List.modify_modify_eq]
                rfl
            _ = (extended (slots fresh) (id.toNat + 1)).modify id.toNat change := by
                rw [modify_extended replace (by omega)]
            _ = (slots (SeqVec.modify out' id.toNat change)).take (id.toNat + 1) := by
                rw [slots_modify, List.take_modify, htake, hfresh]
    · rw [reuseThen, bind_err (reuseSlot_full hcheck hholds replace _ hlive),
        hlands.reserve_refused (reserveElem_full hcheck hholds fresh)]
      exact ⟨rfl, hlive, hfresh⟩
  · rw [reuseThen, bind_err (reuseSlot_refused hcheck replace _ _),
      hlands.reserve_refused (reserveElem_refused hcheck fresh)]
    exact ⟨rfl, hlive, hfresh⟩

/-- Whatever happens to the array happens alike on both sides. -/
theorem LikeFresh.occurrence {replace : Bool} {reuse : ElementStep (Reused C) α}
    {reserve : ElementStep C α} (hlands : Lands replace reuse reserve) {reused : Reused C}
    {fresh : C} (h : LikeFresh reused fresh) (o : Occurrence α) :
    (onReused reuse o reused).2 = (onFresh reserve o fresh).2 ∧
      LikeFresh (onReused reuse o reused).1 (onFresh reserve o fresh).1 := by
  cases o with
  | wrapper =>
    refine ⟨rfl, Nat.zero_le _, ?_⟩
    change slots (clear fresh) = _
    rw [slots_clear, onReused, update, List.take_zero]
  | element id bound change => exact h.element hlands id bound change

/-- A whole decode, from any pair of containers that are alike. -/
theorem LikeFresh.drive {replace : Bool} {reuse : ElementStep (Reused C) α}
    {reserve : ElementStep C α} (hlands : Lands replace reuse reserve)
    (occurrences : List (Occurrence α)) {reused : Reused C} {fresh : C}
    (h : LikeFresh reused fresh) :
    (drive (onReused reuse) occurrences reused).2 = (drive (onFresh reserve) occurrences fresh).2 ∧
      LikeFresh (drive (onReused reuse) occurrences reused).1
        (drive (onFresh reserve) occurrences fresh).1 := by
  induction occurrences generalizing reused fresh with
  | nil => exact ⟨rfl, h⟩
  | cons o occurrences ih =>
    obtain ⟨hexit, hlike⟩ := h.occurrence hlands o
    obtain ⟨hexits, hlikes⟩ := ih hlike
    rw [drive_cons, drive_cons, hexit, hexits]
    exact ⟨rfl, hlikes⟩

/-- A decode into a container with anything in it reports, step by step, what one into an
empty container reports, and after the truncation holds what that one holds. It may stop
anywhere: `occurrences` is any list. -/
theorem reused_decode_eq_fresh {reuse : ElementStep (Reused C) α} {reserve : ElementStep C α}
    (htwins : Twins reuse reserve) (occurrences : List (Occurrence α)) (out empty : C)
    (hempty : len empty = 0) :
    (drive (onReused reuse) occurrences ⟨out, 0⟩).2 =
        (drive (onFresh reserve) occurrences empty).2 ∧
      (drive (onReused reuse) occurrences ⟨out, 0⟩).1.live ≤
        len (drive (onReused reuse) occurrences ⟨out, 0⟩).1.out ∧
      truncate (drive (onReused reuse) occurrences ⟨out, 0⟩).1.out
          (drive (onReused reuse) occurrences ⟨out, 0⟩).1.live =
        (drive (onFresh reserve) occurrences empty).1 := by
  obtain ⟨replace, hlands⟩ := Lands.of_twins htwins
  have hstart : LikeFresh (⟨out, 0⟩ : Reused C) empty :=
    ⟨Nat.zero_le _, List.eq_nil_of_length_eq_zero ((len_eq empty).symm.trans hempty)⟩
  obtain ⟨hexits, hlive, hslots⟩ := hstart.drive hlands occurrences
  refine ⟨hexits, ?_, LawfulSeqVec.ext ?_⟩
  · rw [len_eq]
    exact hlive
  · rw [slots_truncate, hslots]

end Twins

/-- Two rows left behind in a matrix of at most four; the new decode skips a row and fills the
next, then names one past the capacity and one past the schema. -/
theorem reused_decode_eq_fresh_rows :
    let rows : HeaplessVec 4 (Vec UInt8) := ⟨[⟨[1, 2]⟩, ⟨[3]⟩], by decide⟩
    let done := drive (onReused fun id bound => reuseThen (reuseRow id bound))
      [.wrapper, .element 1 (.cap 9) (fun row => ⟨row.slots ++ [7]⟩),
        .element 4 (.cap 9) (fun row => row), .element 3 (.schema 3) (fun row => row)] ⟨rows, 0⟩
    done.2 = [.ok (), .ok (), .err .argument, .err .invalidMsg] ∧
      (truncate done.1.out done.1.live).slots = [⟨[]⟩, ⟨[7]⟩] := by
  intro rows done
  have h := reused_decode_eq_fresh (C := HeaplessVec 4 (Vec UInt8)) (.row rfl)
    [.wrapper, .element 1 (.cap 9) (fun row => ⟨row.slots ++ [7]⟩),
      .element 4 (.cap 9) (fun row => row), .element 3 (.schema 3) (fun row => row)] rows default rfl
  exact ⟨h.1.trans rfl, (congrArg HeaplessVec.slots h.2.2).trans rfl⟩

end Sofab
