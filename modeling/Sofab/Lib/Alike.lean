import Sofab.Lib.Steps

/-!
# States that steps cannot tell apart

A step commutes with a change of the state if it does the same behind the change as in front of it:
it neither looks at what is changed nor touches it. A step is congruent for a relation if it reports
the same in related states and leaves related ones; a run of such steps is too.
-/

namespace Steps.Step

variable {σ ε α β : Type} {ι : Type*}

/-! ## Changes of the state -/

/-- A step that does the same behind a change of the state as in front of it. -/
def Commutes (f : σ → σ) (m : Step σ ε α) : Prop := ∀ s, m (f s) = (f (m s).1, (m s).2)

section Commutes

variable {f : σ → σ}

/-- Returning a value looks at no state. -/
theorem commutes_pure (a : α) : Commutes f (pure a : Step σ ε α) := fun _ => rfl

/-- Failing looks at no state. -/
theorem commutes_fail (e : ε) : Commutes f (fail e : Step σ ε α) := fun _ => rfl

/-- Reporting a result looks at no state. -/
theorem commutes_ofExcept (result : Except ε α) : Commutes f (ofExcept result) := by
  cases result <;> exact fun _ => rfl

/-- An update commutes with every change that it commutes with as a function. -/
theorem commutes_update {g : σ → σ} (h : ∀ s, g (f s) = f (g s)) :
    Commutes f (update g : Step σ ε Unit) := fun s => congrArg (·, Exit.ok ()) (h s)

/-- A step may look at what the change leaves as it is. -/
theorem commutes_self_bind {next : σ → Step σ ε α} (hnext : ∀ s, Commutes f (next s))
    (hread : ∀ s, next (f s) = next s) : Commutes f (self >>= next) := by
  intro s
  rw [self_bind, self_bind, hread]
  exact hnext s s

/-- A step may choose by what the change leaves as it is. -/
theorem commutes_ite {p : σ → Prop} [DecidablePred p] {m n : Step σ ε α}
    (hread : ∀ s, p (f s) ↔ p s) (hm : Commutes f m) (hn : Commutes f n) :
    Commutes f fun s => if p s then m s else n s := by
  intro s
  simp only [hread]
  split
  · exact hm s
  · exact hn s

/-- Commuting steps compose. -/
theorem Commutes.bind {m : Step σ ε α} {next : α → Step σ ε β} (hm : Commutes f m)
    (hnext : ∀ a, Commutes f (next a)) : Commutes f (m >>= next) := by
  intro s
  have hchanged := hm s
  rcases hrun : m s with ⟨s', a | e | _⟩ <;> rw [hrun] at hchanged
  · rw [bind_ok hchanged, bind_ok hrun, hnext a]
  · rw [bind_err hchanged, bind_err hrun]
  · rw [bind_unwound hchanged, bind_unwound hrun]

/-- Catching the error of a commuting step commutes too. -/
theorem Commutes.attempt {m : Step σ ε α} (hm : Commutes f m) : Commutes f (attempt m) := by
  intro s
  have hchanged := hm s
  rcases hrun : m s with ⟨s', a | e | _⟩ <;> rw [hrun] at hchanged
  · rw [attempt_ok hchanged, attempt_ok hrun]
  · rw [attempt_err hchanged, attempt_err hrun]
  · rw [attempt_unwound hchanged, attempt_unwound hrun]

end Commutes

/-! ## Related states -/

/-- A step that reports the same in related states and leaves related ones. -/
def Congruent (R : σ → σ → Prop) (m : Step σ ε α) : Prop :=
  ∀ s t, R s t → (m t).2 = (m s).2 ∧ R (m s).1 (m t).1

section Congruent

variable {R : σ → σ → Prop}

/-- Returning a value leaves related states as they are. -/
theorem congruent_pure (a : α) : Congruent R (pure a : Step σ ε α) := fun _ _ h => ⟨rfl, h⟩

/-- Failing leaves related states as they are. -/
theorem congruent_fail (e : ε) : Congruent R (fail e : Step σ ε α) := fun _ _ h => ⟨rfl, h⟩

/-- A step may look at what is the same in related states. -/
theorem congruent_self_bind {next : σ → Step σ ε α}
    (h : ∀ s t, R s t → (next t t).2 = (next s s).2 ∧ R (next s s).1 (next t t).1) :
    Congruent R (self >>= next) := h

/-- Continuing in the same way after steps that report the same. -/
theorem bind_related {m : Step σ ε α} {next : α → Step σ ε β} {s t : σ}
    (hexit : (m t).2 = (m s).2) (hkept : R (m s).1 (m t).1)
    (hnext : ∀ a, (m s).2 = .ok a → (next a (m t).1).2 = (next a (m s).1).2 ∧
      R (next a (m s).1).1 (next a (m t).1).1) :
    ((m >>= next) t).2 = ((m >>= next) s).2 ∧ R ((m >>= next) s).1 ((m >>= next) t).1 := by
  rcases hs : m s with ⟨s', exit⟩
  rcases ht : m t with ⟨t', exit'⟩
  rw [hs, ht] at hexit hkept hnext
  obtain rfl : exit' = exit := hexit
  cases exit' with
  | ok a =>
    rw [bind_ok hs, bind_ok ht]
    exact hnext a rfl
  | err e =>
    rw [bind_err hs, bind_err ht]
    exact ⟨rfl, hkept⟩
  | unwound =>
    rw [bind_unwound hs, bind_unwound ht]
    exact ⟨rfl, hkept⟩

/-- Congruent steps compose. -/
theorem Congruent.bind {m : Step σ ε α} {next : α → Step σ ε β} (hm : Congruent R m)
    (hnext : ∀ a, Congruent R (next a)) : Congruent R (m >>= next) := by
  intro s t hst
  obtain ⟨hexit, hkept⟩ := hm s t hst
  exact bind_related hexit hkept fun a _ => hnext a _ _ hkept

/-- Catching the error of a congruent step is congruent too. -/
theorem Congruent.attempt {m : Step σ ε α} (hm : Congruent R m) : Congruent R (attempt m) := by
  intro s t hst
  obtain ⟨hexit, hkept⟩ := hm s t hst
  rcases hs : m s with ⟨s', exit⟩
  rcases ht : m t with ⟨t', exit'⟩
  rw [hs, ht] at hexit hkept
  obtain rfl : exit' = exit := hexit
  cases exit' with
  | ok a =>
    rw [attempt_ok hs, attempt_ok ht]
    exact ⟨rfl, hkept⟩
  | err e =>
    rw [attempt_err hs, attempt_err ht]
    exact ⟨rfl, hkept⟩
  | unwound =>
    rw [attempt_unwound hs, attempt_unwound ht]
    exact ⟨rfl, hkept⟩

/-- A run of congruent steps. -/
theorem congruent_drive {step : ι → Step σ ε α} (h : ∀ i, Congruent R (step i)) (is : List ι)
    {s t : σ} (hst : R s t) :
    (drive step is t).2 = (drive step is s).2 ∧ R (drive step is s).1 (drive step is t).1 := by
  induction is generalizing s t with
  | nil => exact ⟨rfl, hst⟩
  | cons i is ih =>
    obtain ⟨hexit, hkept⟩ := h i s t hst
    obtain ⟨hexits, hlater⟩ := ih hkept
    rw [drive_cons, drive_cons, hexit, hexits]
    exact ⟨rfl, hlater⟩

end Congruent

end Steps.Step
