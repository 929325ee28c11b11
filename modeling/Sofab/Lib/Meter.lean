import Sofab.Lib.Reader

/-!
# What a reading costs

Every note has a cost, and every symbol that is consumed pays for one unit of it. A reader may
begin with some credit and leave some for the readers behind it. If the steps of a reading to the
end need no credit, its notes cost no more than there are symbols.
-/

namespace Reading

variable {ν σ α β : Type}

/-- The cost of some notes. -/
def price (cost : ν → ℕ) : List ν → ℕ
  | [] => 0
  | n :: notes => cost n + price cost notes

/-- No notes cost nothing. -/
@[simp] theorem price_nil (cost : ν → ℕ) : price cost [] = 0 := rfl

/-- The price of a list is that of its first note and of the rest. -/
@[simp] theorem price_cons (cost : ν → ℕ) (n : ν) (notes : List ν) :
    price cost (n :: notes) = cost n + price cost notes := rfl

/-- Prices add up over lists of notes. -/
@[simp] theorem price_append (cost : ν → ℕ) (notes more : List ν) :
    price cost (notes ++ more) = price cost notes + price cost more := by
  induction notes with
  | nil => simp
  | cons n notes ih => simp [ih, Nat.add_assoc]

/-- What is left of the symbols, and the credit left with a result. -/
def Outcome.unspent (after : α → ℕ) : Outcome σ α → ℕ
  | .done a rest => after a + rest.length
  | .short _ => 0
  | .invalid => 0

namespace Reader

/-- With some credit the reader pays for its notes, and leaves what it says. -/
def Pays (cost : ν → ℕ) (credit : ℕ) (r : Reader ν σ α) (after : α → ℕ) : Prop :=
  ∀ xs, price cost (r xs).notes + (r xs).outcome.unspent after ≤ credit + xs.length

section Pays

variable {cost : ν → ℕ} {credit : ℕ} {mid : α → ℕ} {after : β → ℕ} {r : Reader ν σ α}
  {next : α → Reader ν σ β}

/-- Reading nothing costs nothing, so it may leave any credit up to the one given. -/
theorem pays_pure {a : α} (h : mid a ≤ credit) : Pays cost credit (pure a : Reader ν σ α) mid := by
  intro xs
  change 0 + (mid a + xs.length) ≤ _
  omega

/-- A rejection leaves no notes to pay for. -/
theorem pays_reject : Pays cost credit (reject : Reader ν σ α) mid := fun _ => Nat.zero_le _

/-- A note uses up the credit that it costs. -/
theorem pays_note (n : ν) :
    Pays cost (cost n + credit) (note n : Reader ν σ Unit) fun _ => credit := by
  intro xs
  change price cost [n] + (credit + xs.length) ≤ _
  rw [price_cons, price_nil]
  omega

/-- A reader goes on with the credit that the one before it left. -/
theorem Pays.bind_of_returning {Q : α → Prop} (hr : Pays cost credit r mid) (hreturns : Returning Q r)
    (hnext : ∀ a, Q a → Pays cost (mid a) (next a) after) : Pays cost credit (r >>= next) after := by
  intro xs
  have hfirst := hr xs
  rcases hread : r xs with ⟨notes, ⟨a, rest⟩ | torn | _⟩
  · have hsecond := hnext a (hreturns hread) rest
    rw [hread] at hfirst
    rw [bind_of_done hread, Report.after_notes, price_append]
    change price cost notes + (mid a + rest.length) ≤ _ at hfirst
    change _ + (next a rest).outcome.unspent after ≤ _
    omega
  · rw [hread] at hfirst
    rw [bind_of_short hread]
    exact hfirst
  · rw [hread] at hfirst
    rw [bind_of_invalid hread]
    exact hfirst

/-- The second reader pays with the credit that the first one leaves. -/
theorem Pays.bind (hr : Pays cost credit r mid) (hnext : ∀ a, Pays cost (mid a) (next a) after) :
    Pays cost credit (r >>= next) after :=
  hr.bind_of_returning (Q := fun _ => True) (fun _ _ _ _ _ => trivial) fun a _ => hnext a

/-- A demand costs nothing. -/
theorem pays_demand {p : Prop} [Decidable p] {next : Unit → Reader ν σ β}
    (hnext : Pays cost credit (next ()) after) :
    Pays cost credit (demand p >>= next) after := by
  by_cases hp : p
  · rw [demand_of_pos hp, pure_bind]
    exact hnext
  · rw [demand_of_neg hp, reject_bind]
    exact pays_reject

/-- More credit than is needed. -/
theorem Pays.mono {credit' : ℕ} (hr : Pays cost credit r mid) (h : credit ≤ credit') :
    Pays cost credit' r mid :=
  fun xs => Nat.le_trans (hr xs) (Nat.add_le_add_right h _)

end Pays

end Reader

/-- If no step needs credit, the notes of a reading to the end cost no more than its symbols. -/
theorem exhaust_pays {cost : ν → ℕ} {step : α → Reader ν σ α} {hstep : Shrinks step}
    (h : ∀ a, Reader.Pays cost 0 (step a) fun _ => 0) (a : α) (xs : List σ) :
    price cost (exhaust step hstep a xs).notes ≤ xs.length := by
  refine exhaust_induction (motive := fun _ xs report => price cost report.notes ≤ xs.length)
    ?_ ?_ ?_ ?_ a xs
  · intro a
    exact Nat.zero_le _
  · intro a xs notes b rest hread ih
    have hfirst := h a xs
    rw [hread, Nat.zero_add] at hfirst
    change price cost notes + (0 + rest.length) ≤ _ at hfirst
    rw [Report.after_notes, price_append]
    omega
  · intro a xs notes torn _ hread
    have hfirst := h a xs
    rwa [hread, Nat.zero_add] at hfirst
  · intro a xs notes _ hread
    have hfirst := h a xs
    rwa [hread, Nat.zero_add] at hfirst

end Reading
