import Sofab.Buffered

/-!
# An accumulator behind any source

Nothing makes a caller deliver payloads the way the decoder does. Behind any other source, with
any totals and offsets, the accumulator still answers by a rule: from the last start on it hands
back once, at the first piece whose total the bytes since that start have reached.
-/

namespace Sofab

/-- A piece as it is handed to an accumulator. -/
structure Piece where
  total : ℕ
  offset : ℕ
  chunk : List UInt8
  deriving DecidableEq, Repr

/-- The answers to pieces that are fed in order. -/
def PayloadAcc.feedEach (acc : PayloadAcc) : List Piece → List (Option (List UInt8))
  | [] => []
  | p :: ps => (acc.feed p.total p.offset p.chunk).2 ::
      (acc.feed p.total p.offset p.chunk).1.feedEach ps

/-- What all pieces up to one deliver, behind bytes held before. -/
def delivered (held : List UInt8) (ps : List Piece) (j : ℕ) : List UInt8 :=
  held ++ (ps.take (j + 1)).flatMap Piece.chunk

/-- The total of a piece is reached with it. -/
def Reaches (held : List UInt8) (ps : List Piece) (j : ℕ) : Prop :=
  ∀ p ∈ ps[j]?, p.total ≤ (delivered held ps j).length

instance (held : List UInt8) (ps : List Piece) (j : ℕ) : Decidable (Reaches held ps j) :=
  inferInstanceAs (Decidable (∀ p ∈ ps[j]?, _))

/-- The payload that a piece is answered with: the first whose total is reached hands it back. -/
def handedBack (held : List UInt8) (ps : List Piece) (j : ℕ) (p : Piece) : Option (List UInt8) :=
  if Reaches held ps j ∧ ∀ i < j, ¬Reaches held ps i then
    some ((delivered held ps j).take p.total)
  else
    none

/-- Up to the first piece there is what was held, and that piece. -/
theorem delivered_zero (held : List UInt8) (p : Piece) (ps : List Piece) :
    delivered held (p :: ps) 0 = held ++ p.chunk := by
  simp [delivered]

/-- Up to a later piece the first one counts as held. -/
theorem delivered_succ (held : List UInt8) (p : Piece) (ps : List Piece) (j : ℕ) :
    delivered held (p :: ps) (j + 1) = delivered (held ++ p.chunk) ps j := by
  simp [delivered]

/-- The first piece reaches its total if it fills it from what was held. -/
theorem reaches_zero (held : List UInt8) (p : Piece) (ps : List Piece) :
    Reaches held (p :: ps) 0 ↔ p.total ≤ (held ++ p.chunk).length := by
  simp [Reaches, delivered_zero]

/-- For a later piece the first one counts as held. -/
theorem reaches_succ (held : List UInt8) (p : Piece) (ps : List Piece) (j : ℕ) :
    Reaches held (p :: ps) (j + 1) ↔ Reaches (held ++ p.chunk) ps j := by
  simp [Reaches, delivered_succ]

/-- Behind a piece that reaches its total no other is answered. -/
theorem handedBack_of_reaches {held : List UInt8} {p : Piece} {ps : List Piece}
    (h : p.total ≤ (held ++ p.chunk).length) (j : ℕ) (q : Piece) :
    handedBack held (p :: ps) (j + 1) q = none := by
  refine if_neg fun hfirst => hfirst.2 0 j.succ_pos ?_
  exact (reaches_zero held p ps).mpr h

/-- A piece that does not reach its total is held. -/
theorem handedBack_of_not_reaches {held : List UInt8} {p : Piece} {ps : List Piece}
    (h : ¬p.total ≤ (held ++ p.chunk).length) (j : ℕ) (q : Piece) :
    handedBack held (p :: ps) (j + 1) q = handedBack (held ++ p.chunk) ps j q := by
  unfold handedBack
  have hearlier : (∀ i < j + 1, ¬Reaches held (p :: ps) i) ↔
      ∀ i < j, ¬Reaches (held ++ p.chunk) ps i := by
    constructor
    · intro hall i hi
      rw [← reaches_succ]
      exact hall (i + 1) (Nat.succ_lt_succ hi)
    · intro hall i hi
      cases i with
      | zero => exact (reaches_zero held p ps).not.mpr h
      | succ i =>
        rw [reaches_succ]
        exact hall i (Nat.lt_of_succ_lt_succ hi)
  simp only [reaches_succ, hearlier, delivered_succ]

namespace PayloadAcc

/-- An accumulator that has handed its payload back answers no further piece. -/
theorem feedEach_complete (buf : List UInt8) {ps : List Piece} (hps : ∀ p ∈ ps, p.offset ≠ 0)
    (j : ℕ) : (feedEach ⟨buf, true⟩ ps)[j]? = ps[j]?.map fun _ => none := by
  induction ps generalizing j with
  | nil => rfl
  | cons p ps ih =>
    obtain ⟨hp, hrest⟩ := List.forall_mem_cons.mp hps
    have hfeed : feed ⟨buf, true⟩ p.total p.offset p.chunk = (⟨buf, true⟩, none) := by
      rw [feed, if_neg hp, if_pos rfl]
    rw [feedEach, hfeed]
    cases j with
    | zero => rfl
    | succ j => exact ih hrest j

/-- What pieces behind a start are answered. -/
theorem feedEach_held (held : List UInt8) {ps : List Piece} (hps : ∀ p ∈ ps, p.offset ≠ 0)
    (j : ℕ) : (feedEach ⟨held, false⟩ ps)[j]? = ps[j]?.map (handedBack held ps j) := by
  induction ps generalizing held j with
  | nil => rfl
  | cons p ps ih =>
    obtain ⟨hp, hrest⟩ := List.forall_mem_cons.mp hps
    rw [feedEach, feed, if_neg hp, if_neg Bool.false_ne_true, gather]
    by_cases hreach : p.total ≤ (held ++ p.chunk).length
    · simp only [if_neg (Nat.not_lt.mpr hreach)]
      cases j with
      | zero => simp [handedBack, (reaches_zero held p ps).mpr hreach, delivered_zero]
      | succ j =>
        simp only [List.getElem?_cons_succ, feedEach_complete _ hrest]
        exact congrArg (ps[j]?.map ·) (funext fun q => (handedBack_of_reaches hreach j q).symm)
    · simp only [if_pos (Nat.lt_of_not_le hreach)]
      cases j with
      | zero => simp [handedBack, (reaches_zero held p ps).not.mpr hreach]
      | succ j =>
        simp only [List.getElem?_cons_succ, ih _ hrest]
        exact congrArg (ps[j]?.map ·) (funext fun q => (handedBack_of_not_reaches hreach j q).symm)

end PayloadAcc

/-- Whatever an accumulator was fed before, the pieces from a start to the next one are answered by
themselves: the first at which the bytes since the start reach the total that it declares hands back
as many of them as that, and no other piece hands back anything. -/
theorem accumulator_exact (before : List AccCall) (start : Piece) (hstart : start.offset = 0)
    {pieces : List Piece} (hpieces : ∀ p ∈ pieces, p.offset ≠ 0) (j : ℕ) :
    ((accAfter .new before).feedEach (start :: pieces))[j]? =
      (start :: pieces)[j]?.map (handedBack [] (start :: pieces) j) := by
  rw [PayloadAcc.feedEach, hstart, PayloadAcc.feed, if_pos rfl]
  by_cases hwhole : start.total ≤ start.chunk.length
  · have hreach : start.total ≤ ([] ++ start.chunk).length := hwhole
    rw [if_pos hwhole]
    cases j with
    | zero => simp [handedBack, (reaches_zero [] start pieces).mpr hreach, delivered_zero]
    | succ j =>
      simp only [List.getElem?_cons_succ, PayloadAcc.feedEach_complete _ hpieces]
      exact congrArg (pieces[j]?.map ·) (funext fun q => (handedBack_of_reaches hreach j q).symm)
  · have hreach : ¬start.total ≤ ([] ++ start.chunk).length := hwhole
    rw [if_neg hwhole, PayloadAcc.gather, List.nil_append, if_pos (Nat.lt_of_not_le hwhole)]
    cases j with
    | zero => simp [handedBack, (reaches_zero [] start pieces).not.mpr hreach]
    | succ j =>
      simp only [List.getElem?_cons_succ, PayloadAcc.feedEach_held _ hpieces]
      exact congrArg (pieces[j]?.map ·) (funext fun q => (handedBack_of_not_reaches hreach j q).symm)

/-- A payload abandoned for another, which is overrun by its last piece and then told on. -/
theorem accumulator_exact_overrun :
    ((accAfter .new [.feed 9 0 [1, 2]]).feedEach [⟨3, 0, [3]⟩, ⟨3, 7, [4, 5, 6]⟩, ⟨3, 4, [7]⟩])[1]? =
      some (some [3, 4, 5]) :=
  (@accumulator_exact [.feed 9 0 [1, 2]] ⟨3, 0, [3]⟩ rfl [⟨3, 7, [4, 5, 6]⟩, ⟨3, 4, [7]⟩]
    (by decide) 1).trans (by decide +kernel)

end Sofab
