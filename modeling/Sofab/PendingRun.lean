import Sofab.Types
import Sofab.Lib.Splice

/-!
# The run of held-back sequence ids

The ids of the innermost open sequences whose header is not written yet. The run is a
fixed-size array of `maxDepth` slots, of which the first `n` have been written; `Holds`
says which list of ids, outermost first, it stands for.
-/

namespace Sofab

/-- A slot that was never written holds nothing. -/
structure PendingRun where
  ids : List (Option Id)
  n : ℕ

namespace PendingRun

/-- The run of a new stream. -/
def new : PendingRun := ⟨List.replicate maxDepth none, 0⟩

/-- Number of held-back headers. -/
def len (run : PendingRun) : ℕ := run.n

/-- Whether no header is held back. -/
def isEmpty (run : PendingRun) : Bool := run.n = 0

/-- Append the id of the innermost open sequence. -/
def push (run : PendingRun) (id : Id) : PendingRun := ⟨run.ids.set run.n (some id), run.n + 1⟩

/-- The `i`th held-back id, outermost first. -/
def get (run : PendingRun) (i : ℕ) : Id := (run.ids.getD i none).getD 0

/-- Remove the innermost held-back id, if there is one. -/
def pop (run : PendingRun) : PendingRun × Option Id :=
  match run.n with
  | 0 => (run, none)
  | n + 1 => (⟨run.ids, n⟩, some (run.get n))

/-- Drop the outermost `k` ids. -/
def dropFront (run : PendingRun) (k : ℕ) : PendingRun :=
  if k = run.n then
    ⟨run.ids, 0⟩
  else if k = 0 then
    run
  else
    ⟨Splice.overwrite run.ids 0 ((run.ids.take run.n).drop k), run.n - k⟩

/-- The run stands for the ids `held`, outermost first. -/
structure Holds (run : PendingRun) (held : List Id) : Prop where
  size : run.ids.length = maxDepth
  len : run.n = held.length
  filled : run.ids.take run.n = held.map some

variable {run : PendingRun} {held : List Id} {id : Id}

/-- A new run holds no ids. -/
theorem holds_new : new.Holds [] where
  size := List.length_replicate
  len := rfl
  filled := rfl

/-- A run holds no more ids than sequences may be open. -/
theorem Holds.length_le (h : run.Holds held) : held.length ≤ maxDepth := by
  have hlen := congrArg List.length h.filled
  rw [List.length_take, List.length_map, h.size] at hlen
  omega

/-- A run stands for one list of ids. -/
theorem Holds.unique {other : List Id} (h : run.Holds held) (h' : run.Holds other) :
    held = other :=
  (List.map_inj_right fun _ _ => Option.some.inj).mp (h.filled.symm.trans h'.filled)

/-- A run is empty just if it holds no ids. -/
theorem Holds.isEmpty_iff (h : run.Holds held) : run.isEmpty = true ↔ held = [] := by
  rw [isEmpty, h.len, decide_eq_true_eq, List.length_eq_zero_iff]

/-- Below the ceiling a pushed id is the innermost. -/
theorem Holds.push (h : run.Holds held) (hroom : held.length < maxDepth) :
    (run.push id).Holds (held ++ [id]) where
  size := by rw [PendingRun.push, List.length_set, h.size]
  len := by rw [PendingRun.push, h.len, List.length_append, List.length_singleton]
  filled := by
    have hin : run.n < run.ids.length := by
      rw [h.size, h.len]
      exact hroom
    rw [PendingRun.push, List.take_add_one, List.take_set_of_le (Nat.le_refl _),
      List.getElem?_set_self hin, h.filled, List.map_append]
    rfl

/-- The `i`th id of the run. -/
theorem Holds.get (h : run.Holds held) {i : ℕ} (hi : i < held.length) :
    run.get i = held[i] := by
  have hslot : (run.ids.take run.n)[i]? = some (some held[i]) := by
    rw [h.filled, List.getElem?_map, List.getElem?_eq_getElem hi]
    rfl
  rw [List.getElem?_take_of_lt (h.len ▸ hi)] at hslot
  rw [PendingRun.get, List.getD_eq_getElem?_getD, hslot]
  rfl

/-- With nothing held back nothing is popped. -/
theorem Holds.pop_nil (h : run.Holds []) : run.pop = (run, none) := by
  rw [pop, h.len]
  rfl

/-- The innermost id is popped. -/
theorem Holds.pop_concat (h : run.Holds (held ++ [id])) :
    ∃ run', run.pop = (run', some id) ∧ run'.Holds held := by
  have hn : run.n = held.length + 1 := by rw [h.len, List.length_append, List.length_singleton]
  have hget := h.get (i := held.length) (by simp)
  refine ⟨⟨run.ids, held.length⟩, ?_, h.size, rfl, ?_⟩
  · rw [pop, hn]
    change ((⟨run.ids, held.length⟩ : PendingRun), some (run.get held.length)) = _
    rw [hget]
    simp
  · have htake := congrArg (List.take held.length) h.filled
    rw [List.take_take, hn, Nat.min_eq_left (Nat.le_succ _), List.map_append,
      List.take_left' (List.length_map _)] at htake
    exact htake

/-- Dropping the outermost ids keeps the others in order. -/
theorem Holds.dropFront (h : run.Holds held) {k : ℕ} (hk : k ≤ held.length) :
    (run.dropFront k).Holds (held.drop k) := by
  rw [PendingRun.dropFront]
  split
  · next hall =>
    have hnil : held.drop k = [] := List.drop_eq_nil_of_le (by rw [← h.len]; omega)
    rw [hnil]
    exact ⟨h.size, rfl, rfl⟩
  split
  · next hzero =>
    rw [hzero, List.drop_zero]
    exact h
  · have hshift : (run.ids.take run.n).drop k = (held.drop k).map some := by
      rw [h.filled, List.map_drop]
    have hlen : ((held.drop k).map some).length = run.n - k := by
      rw [List.length_map, List.length_drop, h.len]
    have hmax := h.length_le
    refine ⟨?_, ?_, ?_⟩
    · rw [Splice.overwrite_length, h.size]
    · rw [List.length_drop, h.len]
    · have htake := Splice.take_overwrite run.ids (i := 0) ((held.drop k).map some)
        (by rw [Nat.zero_add, hlen, h.size, h.len]; omega)
      rw [Nat.zero_add, hlen, List.take_zero, List.nil_append] at htake
      rw [hshift]
      exact htake

end PendingRun

end Sofab
