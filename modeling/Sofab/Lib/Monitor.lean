import Sofab.Lib.Reader

/-!
# Monitors

A monitor goes over the notes of a reading one by one and either moves on or objects. A reader
keeps a monitor when it never objects, wherever the input ends and whether it is rejected or
not, and when it is known where the monitor stands once the reader has finished.
-/

namespace Reading

variable {ν σ α β S : Type}

/-- Where a monitor stands after some notes, unless it objects. -/
def heed (step : S → ν → Option S) (s : S) (notes : List ν) : Option S := notes.foldlM step s

section Heed

variable {step : S → ν → Option S} {s s₁ s' : S} {notes : List ν}

/-- With no notes a monitor stays where it is. -/
@[simp] theorem heed_nil (step : S → ν → Option S) (s : S) : heed step s [] = some s := rfl

/-- A monitor takes the first note and goes on with the rest. -/
theorem heed_cons (step : S → ν → Option S) (s : S) (n : ν) (notes : List ν) :
    heed step s (n :: notes) = (step s n).bind fun s₁ => heed step s₁ notes := rfl

/-- Behind a note that it allows a monitor goes on from the state it moved to. -/
theorem heed_cons_of_some {n : ν} (h : step s n = some s₁) (notes : List ν) :
    heed step s (n :: notes) = heed step s₁ notes := by
  rw [heed_cons, h]
  rfl

/-- Notes in a row are heeded one list after the other. -/
theorem heed_append (step : S → ν → Option S) (s : S) (notes more : List ν) :
    heed step s (notes ++ more) = (heed step s notes).bind fun s₁ => heed step s₁ more :=
  List.foldlM_append

/-- Behind notes that it allows a monitor goes on from the state it moved to. -/
theorem heed_append_of_some (h : heed step s notes = some s₁) (more : List ν) :
    heed step s (notes ++ more) = heed step s₁ more := by
  rw [heed_append, h]
  rfl

/-- A monitor that does not object to some notes did not object to the first of them. -/
theorem exists_of_heed_cons {n : ν} (h : heed step s (n :: notes) = some s') :
    ∃ s₁, step s n = some s₁ ∧ heed step s₁ notes = some s' := by
  rw [heed_cons] at h
  exact Option.bind_eq_some_iff.mp h

end Heed

namespace Reader

/-- From `s` the monitor does not object to what the reader notes, and stands at `after a` once
it has finished with `a`. -/
def Upholds (step : S → ν → Option S) (s : S) (r : Reader ν σ α) (after : α → S) : Prop :=
  ∀ xs, ∃ s', heed step s (r xs).notes = some s' ∧
    ∀ a rest, (r xs).outcome = .done a rest → s' = after a

section Upholds

variable {step : S → ν → Option S} {s : S} {mid : α → S} {after : β → S} {r : Reader ν σ α}
  {next : α → Reader ν σ β}

/-- Reading nothing leaves a monitor where it is. -/
theorem upholds_pure {f : α → S} (a : α) : Upholds step (f a) (pure a : Reader ν σ α) f := by
  intro xs
  refine ⟨f a, rfl, fun b rest h => ?_⟩
  cases h
  rfl

/-- A rejection asks nothing of a monitor. -/
theorem upholds_reject : Upholds step s (reject : Reader ν σ α) mid :=
  fun _ => ⟨s, rfl, fun _ _ h => by cases h⟩

/-- A note is upheld where the monitor allows it. -/
theorem upholds_note {n : ν} {s' : S} (h : step s n = some s') :
    Upholds step s (note n : Reader ν σ Unit) fun _ => s' :=
  fun _ => ⟨s', heed_cons_of_some h [], fun _ _ _ => rfl⟩

/-- A reader that is kept goes on from where it finished, with a result that it may return. -/
theorem Upholds.bind_of_returning {Q : α → Prop} (hr : Upholds step s r mid) (hreturns : Returning Q r)
    (hnext : ∀ a, Q a → Upholds step (mid a) (next a) after) :
    Upholds step s (r >>= next) after := by
  intro xs
  obtain ⟨s₁, hfirst, hmid⟩ := hr xs
  rcases hread : r xs with ⟨notes, ⟨a, rest⟩ | torn | _⟩
  · rw [hread] at hfirst hmid
    obtain rfl : s₁ = mid a := hmid a rest rfl
    obtain ⟨s', hsecond, hdone⟩ := hnext a (hreturns hread) rest
    rw [bind_of_done hread]
    exact ⟨s', (heed_append_of_some hfirst _).trans hsecond, hdone⟩
  · rw [hread] at hfirst
    rw [bind_of_short hread]
    exact ⟨s₁, hfirst, fun _ _ h => by cases h⟩
  · rw [hread] at hfirst
    rw [bind_of_invalid hread]
    exact ⟨s₁, hfirst, fun _ _ h => by cases h⟩

/-- The second reader is upheld from where the first one leaves the monitor. -/
theorem Upholds.bind (hr : Upholds step s r mid) (hnext : ∀ a, Upholds step (mid a) (next a) after) :
    Upholds step s (r >>= next) after :=
  hr.bind_of_returning (Q := fun _ => True) (fun _ _ _ _ _ => trivial) fun a _ => hnext a

/-- Behind a demand its condition holds. -/
theorem upholds_demand {p : Prop} [Decidable p] {next : Unit → Reader ν σ β}
    (hnext : p → Upholds step s (next ()) after) : Upholds step s (demand p >>= next) after := by
  by_cases hp : p
  · rw [demand_of_pos hp, pure_bind]
    exact hnext hp
  · rw [demand_of_neg hp, reject_bind]
    exact upholds_reject

/-- Behind a note the monitor has moved on. -/
theorem Upholds.behind_note {n : ν} {s' : S} {next : Unit → Reader ν σ β} (h : step s n = some s')
    (hnext : Upholds step s' (next ()) after) : Upholds step s (note n >>= next) after :=
  (upholds_note h).bind fun _ => hnext

end Upholds

end Reader

/-- A monitor that is kept by every step is kept by reading to the end. -/
theorem exhaust_upholds {step : S → ν → Option S} {stand : α → S} {next : α → Reader ν σ α}
    {hnext : Shrinks next} (hstep : ∀ a, Reader.Upholds step (stand a) (next a) stand) (a : α) :
    Reader.Upholds step (stand a) (exhaust next hnext a) stand := by
  refine fun xs => exhaust_induction (motive := fun a _ report =>
    ∃ s', heed step (stand a) report.notes = some s' ∧
      ∀ b rest, report.outcome = .done b rest → s' = stand b) ?_ ?_ ?_ ?_ a xs
  · intro a
    refine ⟨stand a, rfl, fun b rest h => ?_⟩
    cases h
    rfl
  · intro a xs notes b rest hread ih
    obtain ⟨s₁, hfirst, hmid⟩ := hstep a xs
    rw [hread] at hfirst hmid
    obtain rfl : s₁ = stand b := hmid b rest rfl
    obtain ⟨s', hsecond, hdone⟩ := ih
    exact ⟨s', (heed_append_of_some hfirst _).trans hsecond, hdone⟩
  · intro a xs notes torn _ hread
    obtain ⟨s', hall, _⟩ := hstep a xs
    rw [hread] at hall
    exact ⟨s', hall, fun _ _ h => by cases h⟩
  · intro a xs notes _ hread
    obtain ⟨s', hall, _⟩ := hstep a xs
    rw [hread] at hall
    exact ⟨s', hall, fun _ _ h => by cases h⟩

end Reading
