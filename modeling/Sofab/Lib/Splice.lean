import Mathlib.Data.List.Basic

/-!
# Writing a run of values into a fixed-size list

`overwrite` is the store a fixed-size buffer admits: it replaces the values from a position
on and drops whatever would land past the end, so it never changes the length. Everything
below and beyond the written window is kept.
-/

namespace Splice

variable {α : Type*}

/-- Replace the values of `xs` from position `i` on by `run`, within the length of `xs`. -/
def overwrite (xs : List α) (i : ℕ) (run : List α) : List α :=
  xs.take i ++ run.take (xs.length - i) ++ xs.drop (i + run.length)

/-- Storing leaves the length as it is. -/
@[simp] theorem overwrite_length (xs : List α) (i : ℕ) (run : List α) :
    (overwrite xs i run).length = xs.length := by
  simp only [overwrite, List.length_append, List.length_take, List.length_drop]
  omega

/-- Values below the window are untouched, even by a write past the end. -/
theorem take_overwrite_of_le (xs : List α) {i k : ℕ} (run : List α) (hk : k ≤ i) :
    (overwrite xs i run).take k = xs.take k := by
  by_cases hi : i ≤ xs.length
  · rw [overwrite, List.append_assoc, List.take_append_of_le_length (by simp; omega),
      List.take_take, Nat.min_eq_left hk]
  · have htake : xs.take i = xs := List.take_of_length_le (by omega)
    have hroom : xs.length - i = 0 := by omega
    have hdrop : xs.drop (i + run.length) = [] := List.drop_eq_nil_of_le (by omega)
    rw [overwrite, htake, hroom, hdrop, List.take_zero, List.append_nil, List.append_nil]

/-- A window that fits holds a prefix of the written run, behind what was there before. -/
theorem take_overwrite_of_fit (xs : List α) {i k : ℕ} (run : List α)
    (hfit : i + run.length ≤ xs.length) (hk : k ≤ run.length) :
    (overwrite xs i run).take (i + k) = xs.take i ++ run.take k := by
  have hrun : run.take (xs.length - i) = run := List.take_of_length_le (by omega)
  have hlen : (xs.take i).length = i := by rw [List.length_take, Nat.min_eq_left (by omega)]
  rw [overwrite, hrun, List.take_append_of_le_length (by simp [hlen]; omega), List.take_append,
    List.take_of_length_le (by omega), hlen, Nat.add_sub_cancel_left]

/-- A window that fits holds exactly the written run, behind what was there before. -/
theorem take_overwrite (xs : List α) {i : ℕ} (run : List α) (hfit : i + run.length ≤ xs.length) :
    (overwrite xs i run).take (i + run.length) = xs.take i ++ run := by
  rw [take_overwrite_of_fit xs run hfit (Nat.le_refl _), List.take_length]

/-- Values past the window are untouched. -/
theorem drop_overwrite (xs : List α) {i k : ℕ} (run : List α) (hfit : i + run.length ≤ xs.length)
    (hk : i + run.length ≤ k) : (overwrite xs i run).drop k = xs.drop k := by
  have hrun : run.take (xs.length - i) = run := List.take_of_length_le (by omega)
  have hlen : (xs.take i ++ run).length = i + run.length := by
    rw [List.length_append, List.length_take, Nat.min_eq_left (by omega)]
  rw [overwrite, hrun, List.drop_append, List.drop_eq_nil_of_le (by omega), hlen, List.drop_drop,
    List.nil_append, Nat.add_sub_of_le hk]

/-- A write that fits replaces exactly its window. -/
theorem overwrite_of_fit (xs : List α) {i : ℕ} (run : List α) (hfit : i + run.length ≤ xs.length) :
    overwrite xs i run = xs.take i ++ run ++ xs.drop (i + run.length) := by
  have hrun : run.take (xs.length - i) = run := List.take_of_length_le (by omega)
  rw [overwrite, hrun]

/-- Two writes side by side are one write of the joined run. -/
theorem overwrite_overwrite (xs : List α) {i : ℕ} (run next : List α)
    (hfit : i + run.length + next.length ≤ xs.length) :
    overwrite (overwrite xs i run) (i + run.length) next = overwrite xs i (run ++ next) := by
  rw [overwrite_of_fit _ next (by simpa using hfit), take_overwrite xs run (by omega),
    drop_overwrite xs run (by omega) (by omega),
    overwrite_of_fit xs (run ++ next) (by rw [List.length_append]; omega), List.length_append,
    List.append_assoc (xs.take i), Nat.add_assoc]

/-- `ys` is `xs` with `run` written from position `i` on; the values past the run are
unspecified. -/
structure Stored (xs : List α) (i : ℕ) (run ys : List α) : Prop where
  size : ys.length = xs.length
  take : ys.take (i + run.length) = xs.take i ++ run

/-- A run that fits is stored by overwriting. -/
theorem stored_overwrite (xs : List α) {i : ℕ} (run : List α) (hfit : i + run.length ≤ xs.length) :
    Stored xs i run (overwrite xs i run) :=
  ⟨overwrite_length xs i run, take_overwrite xs run hfit⟩

/-- Storing nothing changes nothing. -/
theorem stored_nil (xs : List α) (i : ℕ) : Stored xs i [] xs :=
  ⟨rfl, (List.append_nil _).symm⟩

/-- Two stores side by side store the joined run. -/
theorem Stored.trans {xs ys zs run next : List α} {i : ℕ} (h : Stored xs i run ys)
    (h' : Stored ys (i + run.length) next zs) : Stored xs i (run ++ next) zs where
  size := h'.size.trans h.size
  take := by
    have htake := h'.take
    rw [h.take] at htake
    rw [List.length_append, ← Nat.add_assoc, htake, List.append_assoc]

/-- A store leaves what is below it. -/
theorem Stored.take_of_le {xs ys run : List α} {i k : ℕ} (h : Stored xs i run ys) (hk : k ≤ i)
    (hi : i ≤ xs.length) : ys.take k = xs.take k := by
  have htake := congrArg (List.take k) h.take
  rw [List.take_take, Nat.min_eq_left (by omega), List.take_append_of_le_length (by simp; omega),
    List.take_take, Nat.min_eq_left hk] at htake
  exact htake

/-- A store of a run from a position on. -/
structure Store (α : Type*) where
  pos : ℕ
  run : List α

/-- Everything a store writes lies from `lower` up to, not including, `upper`. -/
def Store.Within (lower upper : ℕ) (s : Store α) : Prop :=
  lower ≤ s.pos ∧ s.pos + s.run.length ≤ upper

/-- A store within bounds is within wider ones. -/
theorem Store.Within.mono {s : Store α} {lower lower' upper upper' : ℕ} (h : s.Within lower upper)
    (hlower : lower' ≤ lower) (hupper : upper ≤ upper') : s.Within lower' upper' :=
  ⟨Nat.le_trans hlower h.1, Nat.le_trans h.2 hupper⟩

/-- Perform stores one after the other. -/
def storeAll (xs : List α) (stores : List (Store α)) : List α :=
  stores.foldl (fun xs s => overwrite xs s.pos s.run) xs

/-- No stores change nothing. -/
@[simp] theorem storeAll_nil (xs : List α) : storeAll xs [] = xs := rfl

/-- Stores are made from the first on. -/
@[simp] theorem storeAll_cons (xs : List α) (s : Store α) (stores : List (Store α)) :
    storeAll xs (s :: stores) = storeAll (overwrite xs s.pos s.run) stores := rfl

/-- Stores leave the length as it is. -/
theorem storeAll_length (xs : List α) (stores : List (Store α)) :
    (storeAll xs stores).length = xs.length := by
  induction stores generalizing xs with
  | nil => rfl
  | cons store stores ih => rw [storeAll_cons, ih, overwrite_length]

/-- Stores are made one list after the other. -/
theorem storeAll_append (xs : List α) (stores more : List (Store α)) :
    storeAll xs (stores ++ more) = storeAll (storeAll xs stores) more := List.foldl_append

end Splice
