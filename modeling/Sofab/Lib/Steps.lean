import Mathlib.Data.List.Basic
import Mathlib.Order.Defs.Unbundled

/-!
# Steps that may fail or unwind

A step updates a state and ends in one of three ways: with a value, with an error that the
caller may ignore, or by unwinding. It is the state that stands after each of them, so a
caller that catches what it is told can go on stepping.

`drive` is such a caller: it takes its steps in order whatever each of them reports.
-/

namespace Steps

variable {σ ε α β γ : Type} {ι : Type*}

/-- How a step ends. -/
inductive Exit (ε α : Type) where
  | ok (value : α)
  | err (error : ε)
  | unwound
  deriving DecidableEq

/-- A step from state to state. -/
def Step (σ ε α : Type) := σ → σ × Exit ε α

namespace Step

/-- Return a value. -/
protected def pure (a : α) : Step σ ε α := fun s => (s, .ok a)

/-- Run the second step on the value of the first one, if there is one. -/
protected def bind (m : Step σ ε α) (f : α → Step σ ε β) : Step σ ε β := fun s =>
  match m s with
  | (s, .ok a) => f a s
  | (s, .err e) => (s, .err e)
  | (s, .unwound) => (s, .unwound)

instance : Monad (Step σ ε) where
  pure := Step.pure
  bind := Step.bind

/-- The state itself. -/
def self : Step σ ε σ := fun s => (s, .ok s)

/-- Assign to the state. -/
def update (f : σ → σ) : Step σ ε Unit := fun s => (f s, .ok ())

/-- End with an error. -/
def fail (e : ε) : Step σ ε α := fun s => (s, .err e)

/-- End like a result that does not touch the state. -/
def ofExcept : Except ε α → Step σ ε α
  | .ok a => fun s => (s, .ok a)
  | .error e => fail e

/-- Take an error as a value. -/
def attempt (m : Step σ ε α) : Step σ ε (Except ε α) := fun s =>
  match m s with
  | (s, .ok a) => (s, .ok (.ok a))
  | (s, .err e) => (s, .ok (.error e))
  | (s, .unwound) => (s, .unwound)

/-- Continuing after a step that gave a value. -/
theorem bind_ok {m : Step σ ε α} {s s' : σ} {a : α} (h : m s = (s', .ok a)) (f : α → Step σ ε β) :
    (m >>= f) s = f a s' := by
  change Step.bind m f s = _
  rw [Step.bind, h]

/-- An error ends the sequence. -/
theorem bind_err {m : Step σ ε α} {s s' : σ} {e : ε} (h : m s = (s', .err e))
    (f : α → Step σ ε β) : (m >>= f) s = (s', .err e) := by
  change Step.bind m f s = _
  rw [Step.bind, h]

/-- Unwinding ends the sequence. -/
theorem bind_unwound {m : Step σ ε α} {s s' : σ} (h : m s = (s', .unwound))
    (f : α → Step σ ε β) : (m >>= f) s = (s', .unwound) := by
  change Step.bind m f s = _
  rw [Step.bind, h]

/-- Steps in a row may be grouped either way. -/
theorem bind_assoc (m : Step σ ε α) (f : α → Step σ ε β) (g : β → Step σ ε γ) :
    (m >>= f >>= g) = (m >>= fun a => f a >>= g) := by
  funext s
  rcases hm : m s with ⟨s', a | e | _⟩
  · rw [bind_ok hm]
    rcases hf : f a s' with ⟨s'', b | e | _⟩
    · rw [bind_ok hf, bind_ok ((bind_ok hm f).trans hf)]
    · rw [bind_err hf, bind_err ((bind_ok hm f).trans hf)]
    · rw [bind_unwound hf, bind_unwound ((bind_ok hm f).trans hf)]
  · rw [bind_err hm, bind_err (bind_err hm f)]
  · rw [bind_unwound hm, bind_unwound (bind_unwound hm f)]

/-- Returning what a step returned adds nothing. -/
theorem bind_pure (m : Step σ ε α) : (m >>= pure) = m := by
  funext s
  rcases hm : m s with ⟨s', a | e | _⟩
  · exact bind_ok hm _
  · exact bind_err hm _
  · exact bind_unwound hm _

/-- An attempt hands on the value of a step that succeeds. -/
theorem attempt_ok {m : Step σ ε α} {s s' : σ} {a : α} (h : m s = (s', .ok a)) :
    attempt m s = (s', .ok (.ok a)) := by
  rw [attempt, h]

/-- An attempt turns an error into a value. -/
theorem attempt_err {m : Step σ ε α} {s s' : σ} {e : ε} (h : m s = (s', .err e)) :
    attempt m s = (s', .ok (.error e)) := by
  rw [attempt, h]

/-- An attempt does not catch an unwinding. -/
theorem attempt_unwound {m : Step σ ε α} {s s' : σ} (h : m s = (s', .unwound)) :
    attempt m s = (s', .unwound) := by
  rw [attempt, h]

/-- What does not unwind and is only attempted goes on. -/
theorem attempt_bind {m : Step σ ε α} {s : σ} (h : (m s).2 ≠ .unwound) (next : Step σ ε β) :
    (attempt m >>= fun _ => next) s = next (m s).1 := by
  rcases hm : m s with ⟨s', a | e | _⟩
  · exact bind_ok (attempt_ok hm) _
  · exact bind_ok (attempt_err hm) _
  · rw [hm] at h
    exact absurd rfl h

/-- Returning a value leaves the state as it is. -/
theorem pure_apply (a : α) (s : σ) : (pure a : Step σ ε α) s = (s, .ok a) := rfl

/-- Reading the state and continuing is continuing with it. -/
theorem self_bind (f : σ → Step σ ε α) (s : σ) : (self >>= f) s = f s s := rfl

/-- A result that is a value is continued with. -/
theorem ofExcept_bind_ok (a : α) (f : α → Step σ ε β) (s : σ) :
    (ofExcept (.ok a) >>= f) s = f a s := rfl

/-- A result that is an error ends the steps. -/
theorem ofExcept_bind_error (e : ε) (f : α → Step σ ε β) (s : σ) :
    (ofExcept (.error e) >>= f) s = (s, .err e) := rfl

/-- An update is followed by continuing in the new state. -/
theorem update_bind (g : σ → σ) (f : Unit → Step σ ε α) (s : σ) :
    (update g >>= f) s = f () (g s) := rfl

/-- Wherever a step starts, however it ends, it leads to a state that `R` relates to the
start. -/
def Leads (R : σ → σ → Prop) (m : Step σ ε α) : Prop := ∀ s, R s (m s).1

section Leads

variable {R : σ → σ → Prop}

/-- An update leads where its function does. -/
theorem leads_update {f : σ → σ} (h : ∀ s, R s (f s)) : Leads R (update f : Step σ ε Unit) := h

/-- Reading the state leads where its continuation does. -/
theorem leads_self_bind {f : σ → Step σ ε α} (h : ∀ s, Leads R (f s)) : Leads R (self >>= f) :=
  fun s => h s s

/-- Catching an error does not change where a step leads. -/
theorem Leads.attempt {m : Step σ ε α} (h : Leads R m) : Leads R (attempt m) := by
  intro s
  have hs := h s
  rcases hm : m s with ⟨s', a | e | _⟩ <;> rw [hm] at hs
  · rwa [attempt_ok hm]
  · rwa [attempt_err hm]
  · rwa [attempt_unwound hm]

/-- Returning a value leads nowhere else. -/
theorem leads_pure [Std.Refl R] (a : α) : Leads R (pure a : Step σ ε α) := fun s =>
  Std.Refl.refl s

/-- Failing leads nowhere else. -/
theorem leads_fail [Std.Refl R] (e : ε) : Leads R (fail e : Step σ ε α) := fun s =>
  Std.Refl.refl s

/-- Reporting a result leads nowhere else. -/
theorem leads_ofExcept [Std.Refl R] (result : Except ε α) : Leads R (ofExcept result) := by
  cases result <;> exact fun s => Std.Refl.refl s

/-- Steps in a row lead where a transitive relation lets them. -/
theorem Leads.bind [IsTrans σ R] {m : Step σ ε α} {f : α → Step σ ε β} (hm : Leads R m)
    (hf : ∀ a, Leads R (f a)) : Leads R (m >>= f) := by
  intro s
  have hs := hm s
  rcases hrun : m s with ⟨s', a | e | _⟩ <;> rw [hrun] at hs
  · rw [bind_ok hrun]
    exact IsTrans.trans _ _ _ hs (hf a s')
  · rwa [bind_err hrun]
  · rwa [bind_unwound hrun]

end Leads

end Step

/-- Take the steps of a list in order whatever each of them reports: the state reached and
the reports. -/
def drive (step : ι → Step σ ε α) : List ι → σ → σ × List (Exit ε α)
  | [], s => (s, [])
  | i :: is, s =>
    let (s, exit) := step i s
    let (s, exits) := drive step is s
    (s, exit :: exits)

section Drive

variable (step : ι → Step σ ε α)

/-- With no steps to take the state stays and nothing is reported. -/
@[simp] theorem drive_nil (s : σ) : drive step [] s = (s, []) := rfl

/-- The first step is taken and reported, and the rest is driven from where it leads. -/
@[simp] theorem drive_cons (i : ι) (is : List ι) (s : σ) :
    drive step (i :: is) s =
      ((drive step is (step i s).1).1, (step i s).2 :: (drive step is (step i s).1).2) := rfl

/-- Driving on from where earlier steps led. -/
theorem drive_append (is js : List ι) (s : σ) :
    drive step (is ++ js) s =
      ((drive step js (drive step is s).1).1,
        (drive step is s).2 ++ (drive step js (drive step is s).1).2) := by
  induction is generalizing s with
  | nil => rfl
  | cons i is ih => rw [List.cons_append, drive_cons, drive_cons, ih, List.cons_append]

/-- The state one step further. -/
theorem drive_take_succ (is : List ι) (s : σ) {i : ℕ} (hi : i < is.length) :
    (drive step (is.take (i + 1)) s).1 = (step is[i] (drive step (is.take i) s).1).1 := by
  rw [List.take_succ_eq_append_getElem hi, drive_append]
  rfl

/-- The report of each step, made in the state before it. -/
theorem drive_report (is : List ι) (s : σ) {i : ℕ} (hi : i < is.length) :
    (drive step is s).2[i]? = some (step is[i] (drive step (is.take i) s).1).2 := by
  induction is generalizing s i with
  | nil => exact absurd hi (Nat.not_lt_zero i)
  | cons j is ih =>
    cases i with
    | zero => rfl
    | succ i => exact ih (step j s).1 (Nat.lt_of_succ_lt_succ hi)

/-- There is one report a step. -/
@[simp] theorem drive_length (is : List ι) (s : σ) : (drive step is s).2.length = is.length := by
  induction is generalizing s with
  | nil => rfl
  | cons i is ih => rw [drive_cons, List.length_cons, List.length_cons, ih]

/-- What holds at the start and is kept by each step of a run holds all along the run. -/
theorem drive_take_induction {I : ℕ → σ → Prop} {is : List ι} {s : σ} (hs : I 0 s)
    (hstep : ∀ i (hi : i < is.length), I i (drive step (is.take i) s).1 →
      I (i + 1) (step is[i] (drive step (is.take i) s).1).1) :
    ∀ i ≤ is.length, I i (drive step (is.take i) s).1 := by
  intro i
  induction i with
  | zero => exact fun _ => hs
  | succ i ih =>
    intro hi
    rw [drive_take_succ step is s hi]
    exact hstep i hi (ih (Nat.le_of_succ_le hi))

end Drive

/-- Take the steps of a list in order until one does not return. -/
def inOrder (step : ι → Step σ ε Unit) : List ι → Step σ ε Unit
  | [] => pure ()
  | i :: is => do
    step i
    inOrder step is

section InOrder

open Step

variable (step : ι → Step σ ε Unit)

/-- One step in order is that step. -/
theorem inOrder_singleton (i : ι) : inOrder step [i] = step i := bind_pure (step i)

/-- Steps in order are taken one list after the other. -/
theorem inOrder_append (is js : List ι) :
    inOrder step (is ++ js) = (inOrder step is >>= fun _ => inOrder step js) := by
  induction is with
  | nil => rfl
  | cons i is ih =>
    rw [List.cons_append, inOrder, inOrder, ih, bind_assoc]

/-- Steps of images are steps of the images of each. -/
theorem inOrder_map {κ : Type*} (f : κ → ι) (ks : List κ) :
    inOrder step (ks.map f) = inOrder (fun k => step (f k)) ks := by
  induction ks with
  | nil => rfl
  | cons k ks ih =>
    rw [List.map_cons, inOrder, inOrder, ih]

/-- Steps of lists in a row are taken list by list. -/
theorem inOrder_flatMap {κ : Type*} (f : κ → List ι) (ks : List κ) :
    inOrder step (ks.flatMap f) = inOrder (fun k => inOrder step (f k)) ks := by
  induction ks with
  | nil => rfl
  | cons k ks ih =>
    rw [List.flatMap_cons, inOrder_append, inOrder, ih]

/-- A step, unless an earlier one did not return. -/
def onward (s : σ × Exit ε Unit) (i : ι) : σ × Exit ε Unit :=
  match s with
  | (s, .ok ()) => step i s
  | (s, .err e) => (s, .err e)
  | (s, .unwound) => (s, .unwound)

/-- Behind an exit that is not a success nothing more is done. -/
theorem foldl_onward_ended (is : List ι) (s : σ) {exit : Exit ε Unit} (hended : exit ≠ .ok ()) :
    is.foldl (onward step) (s, exit) = (s, exit) := by
  induction is with
  | nil => rfl
  | cons i is ih =>
    have hsame : onward step (s, exit) i = (s, exit) := by
      cases exit with
      | ok value => exact absurd rfl hended
      | err e => rfl
      | unwound => rfl
    rw [List.foldl_cons, hsame, ih]

/-- Steps in order are a fold that does nothing behind the one that did not return. -/
theorem inOrder_eq_foldl (is : List ι) (s : σ) :
    inOrder step is s = is.foldl (onward step) (s, .ok ()) := by
  induction is generalizing s with
  | nil => rfl
  | cons i is ih =>
    rw [inOrder, List.foldl_cons, onward]
    rcases hstep : step i s with ⟨s', _ | e | _⟩
    · rw [bind_ok hstep, ih]
    · rw [bind_err hstep, foldl_onward_ended step is s' (by simp)]
    · rw [bind_unwound hstep, foldl_onward_ended step is s' (by simp)]

/-- Steps in order lead where each of them leads. -/
theorem leads_inOrder {R : σ → σ → Prop} [Std.Refl R] [IsTrans σ R]
    (h : ∀ i, Leads R (step i)) (is : List ι) : Leads R (inOrder step is) := by
  induction is with
  | nil => exact leads_pure ()
  | cons i is ih => exact (h i).bind fun _ => ih

/-- Steps that all return are driven alike. -/
theorem drive_of_inOrder {is : List ι} {s s' : σ} (h : inOrder step is s = (s', .ok ())) :
    (drive step is s).1 = s' ∧ ∀ exit ∈ (drive step is s).2, exit = .ok () := by
  induction is generalizing s with
  | nil =>
    cases h
    exact ⟨rfl, fun exit hmem => absurd hmem List.not_mem_nil⟩
  | cons i is ih =>
    rw [inOrder] at h
    rcases hstep : step i s with ⟨s₁, _ | e | _⟩
    · rw [bind_ok hstep] at h
      obtain ⟨hstate, hexits⟩ := ih h
      rw [drive_cons, hstep]
      exact ⟨hstate, List.forall_mem_cons.mpr ⟨rfl, hexits⟩⟩
    · rw [bind_err hstep] at h
      cases h
    · rw [bind_unwound hstep] at h
      cases h

/-- Two states that every step treats alike, as long as none unwinds, are treated alike by a
list of steps. -/
theorem inOrder_related {τ : Type} {R : σ → τ → Prop} (step' : ι → Step τ ε Unit)
    (hstep : ∀ i {s t}, R s t → (step i s).2 = (step' i t).2 ∧
      ((step i s).2 ≠ .unwound → R (step i s).1 (step' i t).1))
    (is : List ι) {s : σ} {t : τ} (hrelated : R s t) :
    (inOrder step is s).2 = (inOrder step' is t).2 ∧
      ((inOrder step is s).2 ≠ .unwound → R (inOrder step is s).1 (inOrder step' is t).1) := by
  induction is generalizing s t with
  | nil => exact ⟨rfl, fun _ => hrelated⟩
  | cons i is ih =>
    obtain ⟨hexit, hkept⟩ := hstep i hrelated
    rw [inOrder, inOrder]
    rcases hs : step i s with ⟨s₁, _ | e | _⟩ <;> rcases ht : step' i t with ⟨t₁, _ | e' | _⟩ <;>
      rw [hs, ht] at hexit hkept <;> cases hexit
    · rw [bind_ok hs, bind_ok ht]
      exact ih (hkept (by simp))
    · rw [bind_err hs, bind_err ht]
      exact ⟨rfl, hkept⟩
    · rw [bind_unwound hs, bind_unwound ht]
      exact ⟨rfl, hkept⟩

end InOrder

end Steps
