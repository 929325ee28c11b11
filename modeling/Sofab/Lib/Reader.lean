import Mathlib.Data.List.Basic

/-!
# Readers of unfinished input

A reader consumes a prefix of the symbols that have arrived. Its outcome is three-valued:
it is `done` with a value and the unread rest, it ran `short` inside an item whose read part
is torn off, or the input is `invalid` whatever follows. On the way it leaves notes.

A reader is *local* when it never looks past what it consumed, so that more input changes
neither a result nor a rejection. It is *completable* when every short input can be saved
after dropping the torn part. It *reads items* when it consumes a fixed number of them whole.
-/

namespace Reading

variable {ν σ α β : Type}

/-- How a reading ends. -/
inductive Outcome (σ α : Type) where
  | done (value : α) (rest : List σ)
  | short (torn : List σ)
  | invalid
  deriving DecidableEq

/-- The notes left by a reader and its outcome. -/
structure Report (ν σ α : Type) where
  notes : List ν
  outcome : Outcome σ α
  deriving DecidableEq

/-- A report behind earlier notes. -/
def Report.after (report : Report ν σ α) (earlier : List ν) : Report ν σ α :=
  ⟨earlier ++ report.notes, report.outcome⟩

/-- Earlier notes stand in front. -/
@[simp] theorem Report.after_notes (report : Report ν σ α) (earlier : List ν) :
    (report.after earlier).notes = earlier ++ report.notes := rfl

/-- With no earlier notes a report is what it is. -/
@[simp] theorem Report.after_nil (report : Report ν σ α) : report.after [] = report := rfl

/-- Notes put in front twice are put in front at once. -/
@[simp] theorem Report.after_after (report : Report ν σ α) (first second : List ν) :
    (report.after second).after first = report.after (first ++ second) := by
  simp [Report.after]

/-- A reader reports on the symbols available to it. -/
def Reader (ν σ α : Type) := List σ → Report ν σ α

namespace Reader

/-- Consume nothing. -/
protected def pure (a : α) : Reader ν σ α := fun xs => ⟨[], .done a xs⟩

/-- Read, then continue on the rest with what was read. -/
protected def bind (r : Reader ν σ α) (next : α → Reader ν σ β) : Reader ν σ β := fun xs =>
  match r xs with
  | ⟨notes, .done a rest⟩ => (next a rest).after notes
  | ⟨notes, .short torn⟩ => ⟨notes, .short torn⟩
  | ⟨notes, .invalid⟩ => ⟨notes, .invalid⟩

instance : Monad (Reader ν σ) where
  pure := Reader.pure
  bind := Reader.bind

/-- Leave a note. -/
def note (n : ν) : Reader ν σ Unit := fun xs => ⟨[n], .done () xs⟩

/-- Reject the input. -/
def reject : Reader ν σ α := fun _ => ⟨[], .invalid⟩

/-- Reject the input unless a condition holds. -/
def demand (p : Prop) [Decidable p] : Reader ν σ Unit := if p then pure () else reject

/-- Reading nothing is done at once, with all the input left. -/
@[simp] theorem pure_apply (a : α) (xs : List σ) : (pure a : Reader ν σ α) xs = ⟨[], .done a xs⟩ :=
  rfl

/-- Leaving a note is done at once, with all the input left. -/
@[simp] theorem note_apply (n : ν) (xs : List σ) :
    (note n : Reader ν σ Unit) xs = ⟨[n], .done () xs⟩ := rfl

/-- A rejection is invalid on every input. -/
@[simp] theorem reject_apply (xs : List σ) : (reject : Reader ν σ α) xs = ⟨[], .invalid⟩ := rfl

/-- A demand that is met asks nothing. -/
@[simp] theorem demand_of_pos {p : Prop} [Decidable p] (hp : p) :
    (demand p : Reader ν σ Unit) = pure () := if_pos hp

/-- A demand that is not met rejects. -/
@[simp] theorem demand_of_neg {p : Prop} [Decidable p] (hp : ¬p) :
    (demand p : Reader ν σ Unit) = reject := if_neg hp

/-- Continuing after a finished reader. -/
theorem bind_of_done {r : Reader ν σ α} {xs rest : List σ} {notes : List ν} {a : α}
    (h : r xs = ⟨notes, .done a rest⟩) (next : α → Reader ν σ β) :
    (r >>= next) xs = (next a rest).after notes := by
  change Reader.bind r next xs = _
  rw [Reader.bind, h]

/-- A short reader ends the whole reading short. -/
theorem bind_of_short {r : Reader ν σ α} {xs torn : List σ} {notes : List ν}
    (h : r xs = ⟨notes, .short torn⟩) (next : α → Reader ν σ β) :
    (r >>= next) xs = ⟨notes, .short torn⟩ := by
  change Reader.bind r next xs = _
  rw [Reader.bind, h]

/-- A rejection rejects the whole reading. -/
theorem bind_of_invalid {r : Reader ν σ α} {xs : List σ} {notes : List ν}
    (h : r xs = ⟨notes, .invalid⟩) (next : α → Reader ν σ β) :
    (r >>= next) xs = ⟨notes, .invalid⟩ := by
  change Reader.bind r next xs = _
  rw [Reader.bind, h]

/-- Continuing from a value at hand. -/
@[simp] theorem pure_bind (a : α) (next : α → Reader ν σ β) : (pure a >>= next) = next a := by
  funext xs
  rw [bind_of_done (pure_apply a xs), Report.after_nil]

/-- Nothing follows a rejection. -/
@[simp] theorem reject_bind (next : α → Reader ν σ β) : (reject >>= next) = reject := by
  funext xs
  rw [bind_of_invalid (reject_apply xs), reject_apply]

/-- A note stands in front of what follows. -/
@[simp] theorem note_bind_apply (n : ν) (next : Unit → Reader ν σ β) (xs : List σ) :
    (note n >>= next) xs = (next () xs).after [n] :=
  bind_of_done (note_apply n xs) next

/-- A sequence ends in its second reader, or in its first if that one does not finish. -/
theorem bind_cases {r : Reader ν σ α} {next : α → Reader ν σ β} {xs : List σ} {notes : List ν}
    {outcome : Outcome σ β} (h : (r >>= next) xs = ⟨notes, outcome⟩) :
    (∃ first a mid second, r xs = ⟨first, .done a mid⟩ ∧ next a mid = ⟨second, outcome⟩ ∧
      notes = first ++ second) ∨
    (∃ torn, r xs = ⟨notes, .short torn⟩ ∧ outcome = .short torn) ∨
    (r xs = ⟨notes, .invalid⟩ ∧ outcome = .invalid) := by
  rcases hr : r xs with ⟨first, ⟨a, mid⟩ | torn | _⟩
  · rw [bind_of_done hr] at h
    rcases hn : next a mid with ⟨second, outcome'⟩
    rw [hn] at h
    cases h
    exact .inl ⟨first, a, mid, second, rfl, hn, rfl⟩
  · rw [bind_of_short hr] at h
    cases h
    exact .inr (.inl ⟨torn, rfl, rfl⟩)
  · rw [bind_of_invalid hr] at h
    cases h
    exact .inr (.inr ⟨rfl, rfl⟩)

/-- A finished sequence finished both readers. -/
theorem bind_eq_done {r : Reader ν σ α} {next : α → Reader ν σ β} {xs rest : List σ}
    {notes : List ν} {b : β} (h : (r >>= next) xs = ⟨notes, .done b rest⟩) :
    ∃ first a mid second, r xs = ⟨first, .done a mid⟩ ∧ next a mid = ⟨second, .done b rest⟩ ∧
      notes = first ++ second := by
  rcases bind_cases h with hdone | ⟨torn, -, houtcome⟩ | ⟨-, houtcome⟩
  · exact hdone
  · cases houtcome
  · cases houtcome

/-- A short sequence is short in one of the readers. -/
theorem bind_eq_short {r : Reader ν σ α} {next : α → Reader ν σ β} {xs torn : List σ}
    {notes : List ν} (h : (r >>= next) xs = ⟨notes, .short torn⟩) :
    r xs = ⟨notes, .short torn⟩ ∨
      ∃ first a mid second, r xs = ⟨first, .done a mid⟩ ∧ next a mid = ⟨second, .short torn⟩ ∧
        notes = first ++ second := by
  rcases bind_cases h with hdone | ⟨torn', hshort, houtcome⟩ | ⟨-, houtcome⟩
  · exact .inr hdone
  · cases houtcome
    exact .inl hshort
  · cases houtcome

/-- A rejected sequence is rejected by one of the readers. -/
theorem bind_eq_invalid {r : Reader ν σ α} {next : α → Reader ν σ β} {xs : List σ}
    {notes : List ν} (h : (r >>= next) xs = ⟨notes, .invalid⟩) :
    r xs = ⟨notes, .invalid⟩ ∨
      ∃ first a mid second, r xs = ⟨first, .done a mid⟩ ∧ next a mid = ⟨second, .invalid⟩ ∧
        notes = first ++ second := by
  rcases bind_cases h with hdone | ⟨torn, -, houtcome⟩ | ⟨hinvalid, -⟩
  · exact .inr hdone
  · cases houtcome
  · exact .inl hinvalid

/-- A reader that never looks past what it consumed. -/
structure Local (r : Reader ν σ α) : Prop where
  done {xs rest : List σ} {notes : List ν} {a : α} : r xs = ⟨notes, .done a rest⟩ →
    ∃ used, xs = used ++ rest ∧ ∀ ys, r (used ++ ys) = ⟨notes, .done a ys⟩
  invalid {xs : List σ} {notes : List ν} : r xs = ⟨notes, .invalid⟩ →
    ∀ ys, r (xs ++ ys) = ⟨notes, .invalid⟩
  short {xs torn : List σ} {notes : List ν} : r xs = ⟨notes, .short torn⟩ →
    ∃ used, xs = used ++ torn

/-- More input leaves a finished local reading as it is. -/
theorem Local.append {r : Reader ν σ α} (hr : Local r) {xs rest : List σ} {notes : List ν} {a : α}
    (h : r xs = ⟨notes, .done a rest⟩) (ys : List σ) :
    r (xs ++ ys) = ⟨notes, .done a (rest ++ ys)⟩ := by
  obtain ⟨used, rfl, hused⟩ := hr.done h
  rw [List.append_assoc, hused]

/-- A short input is completed only by symbols past it. -/
theorem Local.rest_lt {r : Reader ν σ α} (hr : Local r) {xs torn rest : List σ} (ys : List σ)
    {before notes : List ν} {a : α} (hshort : r xs = ⟨before, .short torn⟩)
    (hdone : r (xs ++ ys) = ⟨notes, .done a rest⟩) : rest.length < ys.length := by
  by_contra hle
  obtain ⟨used, heq, hused⟩ := hr.done hdone
  have hsplit : ∃ z, xs = used ++ z := by
    rcases List.append_eq_append_iff.mp heq with ⟨z, hz, hrest⟩ | ⟨z, hz, hys⟩
    · refine ⟨[], ?_⟩
      have hlen : z.length = 0 := by
        rw [hrest, List.length_append] at hle
        omega
      rw [hz, List.length_eq_zero_iff.mp hlen, List.append_nil, List.append_nil]
    · exact ⟨z, hz⟩
  obtain ⟨z, rfl⟩ := hsplit
  rw [hused] at hshort
  cases hshort

/-- Reading nothing looks at no symbol. -/
theorem local_pure (a : α) : Local (pure a : Reader ν σ α) where
  done h := by
    injection h with hnotes houtcome
    injection houtcome with ha hrest
    subst hnotes ha hrest
    exact ⟨[], rfl, fun _ => rfl⟩
  invalid h := by cases h
  short h := by cases h

/-- Leaving a note looks at no symbol. -/
theorem local_note (n : ν) : Local (note n : Reader ν σ Unit) where
  done h := by
    injection h with hnotes houtcome
    injection houtcome with _ hrest
    subst hnotes hrest
    exact ⟨[], rfl, fun _ => rfl⟩
  invalid h := by cases h
  short h := by cases h

/-- A rejection looks at no symbol. -/
theorem local_reject : Local (reject : Reader ν σ α) where
  done h := by cases h
  invalid h _ := h
  short h := by cases h

/-- A demand looks at no symbol. -/
theorem local_demand (p : Prop) [Decidable p] : Local (demand p : Reader ν σ Unit) := by
  rw [demand]
  split
  · exact local_pure ()
  · exact local_reject

/-- Local readers compose. -/
theorem Local.bind {r : Reader ν σ α} {next : α → Reader ν σ β} (hr : Local r)
    (hnext : ∀ a, Local (next a)) : Local (r >>= next) where
  done h := by
    obtain ⟨first, a, mid, second, h1, h2, rfl⟩ := bind_eq_done h
    obtain ⟨used, rfl, hused⟩ := hr.done h1
    obtain ⟨used', rfl, hused'⟩ := (hnext a).done h2
    refine ⟨used ++ used', (List.append_assoc _ _ _).symm, fun ys => ?_⟩
    rw [List.append_assoc, bind_of_done (hused _), hused']
    rfl
  invalid h ys := by
    rcases bind_eq_invalid h with h1 | ⟨first, a, mid, second, h1, h2, rfl⟩
    · exact bind_of_invalid (hr.invalid h1 ys) next
    · rw [bind_of_done (hr.append h1 ys), (hnext a).invalid h2]
      rfl
  short h := by
    rcases bind_eq_short h with h1 | ⟨first, a, mid, second, h1, h2, rfl⟩
    · exact hr.short h1
    · obtain ⟨used, rfl, -⟩ := hr.done h1
      obtain ⟨used', rfl⟩ := (hnext a).short h2
      exact ⟨used ++ used', (List.append_assoc _ _ _).symm⟩

/-- A reader that is never short. -/
def NeverShort (r : Reader ν σ α) : Prop := ∀ xs notes torn, r xs ≠ ⟨notes, .short torn⟩

/-- Reading nothing needs no symbol. -/
theorem neverShort_pure (a : α) : NeverShort (pure a : Reader ν σ α) := by
  intro xs notes torn h
  cases h

/-- Leaving a note needs no symbol. -/
theorem neverShort_note (n : ν) : NeverShort (note n : Reader ν σ Unit) := by
  intro xs notes torn h
  cases h

/-- A rejection needs no symbol. -/
theorem neverShort_reject : NeverShort (reject : Reader ν σ α) := by
  intro xs notes torn h
  cases h

/-- A demand needs no symbol. -/
theorem neverShort_demand (p : Prop) [Decidable p] : NeverShort (demand p : Reader ν σ Unit) := by
  rw [demand]
  split
  · exact neverShort_pure ()
  · exact neverShort_reject

/-- Only a short reader makes a sequence short. -/
theorem NeverShort.bind {r : Reader ν σ α} {next : α → Reader ν σ β} (hr : NeverShort r)
    (hnext : ∀ a, NeverShort (next a)) : NeverShort (r >>= next) := by
  intro xs notes torn h
  rcases bind_eq_short h with h1 | ⟨_, a, mid, _, -, h2, -⟩
  · exact hr xs notes torn h1
  · exact hnext a mid _ torn h2

/-- Every short input is saved by some continuation once its torn part, which is as `tears`
says, is dropped; the value is then in `good`. -/
def Completable (tears : List σ → Prop) (r : Reader ν σ α) (good : α → Prop) : Prop :=
  ∀ ⦃xs torn notes⦄, r xs = ⟨notes, .short torn⟩ → tears torn ∧
    ∃ used more notes' a, xs = used ++ torn ∧ r (used ++ more) = ⟨notes', .done a []⟩ ∧ good a

/-- A reader that is never short is completable. -/
theorem NeverShort.completable {tears : List σ → Prop} {r : Reader ν σ α} {good : α → Prop}
    (h : NeverShort r) : Completable tears r good :=
  fun xs torn notes hshort => absurd hshort (h xs notes torn)

/-- What a completable reader can still do with no input at all: finish well or be saved. -/
def Open (r : Reader ν σ α) (good : α → Prop) : Prop :=
  (∃ notes a, r [] = ⟨notes, .done a []⟩ ∧ good a) ∨ ∃ notes torn, r [] = ⟨notes, .short torn⟩

/-- An open completable reader reads some input whole. -/
theorem Open.exists_done {tears : List σ → Prop} {r : Reader ν σ α} {good : α → Prop}
    (hopen : Open r good) (hr : Completable tears r good) :
    ∃ more notes a, r more = ⟨notes, .done a []⟩ ∧ good a := by
  rcases hopen with ⟨notes, a, h, hgood⟩ | ⟨notes, torn, h⟩
  · exact ⟨[], notes, a, h, hgood⟩
  · obtain ⟨-, used, more, notes', a, -, hdone, hgood⟩ := hr h
    exact ⟨used ++ more, notes', a, hdone, hgood⟩

/-- Completable readers compose when each good value leaves an open reader behind. -/
theorem Completable.bind {tears : List σ → Prop} {r : Reader ν σ α} {next : α → Reader ν σ β}
    (good : α → Prop) {good' : β → Prop} (hlocal : Local r) (hr : Completable tears r good)
    (hnext : ∀ a, Completable tears (next a) good')
    (hopen : ∀ a, good a → Open (next a) good') : Completable tears (r >>= next) good' := by
  intro xs torn notes h
  rcases bind_eq_short h with h1 | ⟨first, a, mid, second, h1, h2, rfl⟩
  · obtain ⟨htears, used, more, notes', a, rfl, hdone, hgood⟩ := hr h1
    obtain ⟨more', notes'', b, hdone', hgood'⟩ := (hopen a hgood).exists_done (hnext a)
    refine ⟨htears, used, more ++ more', notes' ++ notes'', b, rfl, ?_, hgood'⟩
    rw [← List.append_assoc, bind_of_done (hlocal.append hdone more'), List.nil_append, hdone']
    rfl
  · obtain ⟨used, rfl, hused⟩ := hlocal.done h1
    obtain ⟨htears, used', more, notes', b, rfl, hdone, hgood⟩ := hnext a h2
    refine ⟨htears, used ++ used', more, first ++ notes', b, (List.append_assoc _ _ _).symm, ?_, hgood⟩
    rw [List.append_assoc, bind_of_done (hused _), hdone]
    rfl

/-- A reader whose notes all satisfy `P`. -/
def Noting (P : ν → Prop) (r : Reader ν σ α) : Prop := ∀ xs, ∀ n ∈ (r xs).notes, P n

/-- Reading nothing leaves no notes. -/
theorem noting_pure {P : ν → Prop} (a : α) : Noting P (pure a : Reader ν σ α) :=
  fun _ _ hn => absurd hn List.not_mem_nil

/-- A rejection leaves no notes. -/
theorem noting_reject {P : ν → Prop} : Noting P (reject : Reader ν σ α) :=
  fun _ _ hn => absurd hn List.not_mem_nil

/-- A note is the only one left. -/
theorem noting_note {P : ν → Prop} {n : ν} (hn : P n) : Noting P (note n : Reader ν σ Unit) :=
  fun _ _ hm => List.mem_singleton.mp hm ▸ hn

/-- A demand leaves no notes. -/
theorem noting_demand {P : ν → Prop} (p : Prop) [Decidable p] :
    Noting P (demand p : Reader ν σ Unit) := by
  rw [demand]
  split
  · exact noting_pure ()
  · exact noting_reject

/-- A reader whose results all satisfy `Q`. -/
def Returning (Q : α → Prop) (r : Reader ν σ α) : Prop :=
  ∀ ⦃xs notes a rest⦄, r xs = ⟨notes, .done a rest⟩ → Q a

/-- A value at hand is the only result. -/
theorem returning_pure {Q : α → Prop} {a : α} (ha : Q a) :
    Returning Q (pure a : Reader ν σ α) := by
  intro xs notes b rest h
  cases h
  exact ha

/-- A rejection has no result. -/
theorem returning_reject {Q : α → Prop} : Returning Q (reject : Reader ν σ α) := by
  intro xs notes b rest h
  cases h

/-- The result of a sequence is that of its last reader. -/
theorem Returning.bind {Q : β → Prop} (r : Reader ν σ α) {next : α → Reader ν σ β}
    (hnext : ∀ a, Returning Q (next a)) : Returning Q (r >>= next) := by
  intro xs notes b rest h
  obtain ⟨_, a, _, _, -, hdone, -⟩ := bind_eq_done h
  exact hnext a hdone

/-- The notes of a sequence are those of its readers, the second run on possible results. -/
theorem Noting.bind_of_returning {P : ν → Prop} {Q : α → Prop} {r : Reader ν σ α}
    {next : α → Reader ν σ β} (hr : Noting P r) (hvalue : Returning Q r)
    (hnext : ∀ a, Q a → Noting P (next a)) : Noting P (r >>= next) := by
  intro xs n hn
  have hfirst := hr xs
  rcases h : r xs with ⟨notes, ⟨a, rest⟩ | torn | _⟩
  · rw [h] at hfirst
    rw [bind_of_done h, Report.after_notes, List.mem_append] at hn
    exact hn.elim (hfirst n) (hnext a (hvalue h) rest n)
  · rw [h] at hfirst
    rw [bind_of_short h] at hn
    exact hfirst n hn
  · rw [h] at hfirst
    rw [bind_of_invalid h] at hn
    exact hfirst n hn

/-- The notes of a sequence are those of its readers. -/
theorem Noting.bind {P : ν → Prop} {r : Reader ν σ α} {next : α → Reader ν σ β} (hr : Noting P r)
    (hnext : ∀ a, Noting P (next a)) : Noting P (r >>= next) :=
  hr.bind_of_returning (Q := fun _ => True) (fun _ _ _ _ _ => trivial) fun a _ => hnext a

/-- A reader that is short only on inputs of at most `n` symbols. -/
def ShortWithin (n : ℕ) (r : Reader ν σ α) : Prop :=
  ∀ ⦃xs notes torn⦄, r xs = ⟨notes, .short torn⟩ → xs.length ≤ n

/-- A reader that consumes at most `n` symbols. -/
def DoneWithin (n : ℕ) (r : Reader ν σ α) : Prop :=
  ∀ ⦃xs notes a rest⦄, r xs = ⟨notes, .done a rest⟩ → xs.length ≤ n + rest.length

/-! ## Counting items -/

/-- A reader of `n` items: having finished it read `n` whole ones, and short of input it read
fewer and stands in front of a torn one. -/
structure ReadsItems (whole torn : List σ → Prop) (n : ℕ) (r : Reader ν σ α) : Prop where
  done {xs rest : List σ} {notes : List ν} {a : α} : r xs = ⟨notes, .done a rest⟩ →
    ∃ items : List (List σ), items.length = n ∧ (∀ item ∈ items, whole item) ∧
      xs = items.flatten ++ rest
  short {xs torn' : List σ} {notes : List ν} : r xs = ⟨notes, .short torn'⟩ →
    ∃ (items : List (List σ)) (last : List σ), items.length < n ∧ (∀ item ∈ items, whole item) ∧
      torn last ∧ xs = items.flatten ++ last

section Items

variable {whole torn : List σ → Prop}

/-- Reading nothing reads no items. -/
theorem readsItems_pure (a : α) : ReadsItems whole torn 0 (pure a : Reader ν σ α) where
  done h := by
    cases h
    exact ⟨[], rfl, fun item hitem => absurd hitem List.not_mem_nil, rfl⟩
  short h := by cases h

/-- Leaving a note reads no items. -/
theorem readsItems_note (n : ν) : ReadsItems whole torn 0 (note n : Reader ν σ Unit) where
  done h := by
    cases h
    exact ⟨[], rfl, fun item hitem => absurd hitem List.not_mem_nil, rfl⟩
  short h := by cases h

/-- A rejection counts as any number of items. -/
theorem readsItems_reject (n : ℕ) : ReadsItems whole torn n (reject : Reader ν σ α) where
  done h := by cases h
  short h := by cases h

/-- A demand reads no items. -/
theorem readsItems_demand (p : Prop) [Decidable p] :
    ReadsItems whole torn 0 (demand p : Reader ν σ Unit) := by
  rw [demand]
  split
  · exact readsItems_pure ()
  · exact readsItems_reject 0

/-- The items of a sequence are those of its readers. -/
theorem ReadsItems.bind {m n : ℕ} {r : Reader ν σ α} {next : α → Reader ν σ β}
    (hr : ReadsItems whole torn m r) (hnext : ∀ a, ReadsItems whole torn n (next a)) :
    ReadsItems whole torn (m + n) (r >>= next) where
  done h := by
    obtain ⟨_, a, mid, _, h1, h2, -⟩ := bind_eq_done h
    obtain ⟨items, rfl, hitems, rfl⟩ := hr.done h1
    obtain ⟨more, rfl, hmore, rfl⟩ := (hnext a).done h2
    refine ⟨items ++ more, List.length_append, ?_, ?_⟩
    · intro item hitem
      exact (List.mem_append.mp hitem).elim (hitems item) (hmore item)
    · rw [List.flatten_append, List.append_assoc]
  short h := by
    rcases bind_eq_short h with h1 | ⟨_, a, mid, _, h1, h2, -⟩
    · obtain ⟨items, last, hlen, hrest⟩ := hr.short h1
      exact ⟨items, last, Nat.lt_add_right n hlen, hrest⟩
    · obtain ⟨items, rfl, hitems, rfl⟩ := hr.done h1
      obtain ⟨more, last, hlen, hmore, hlast, rfl⟩ := (hnext a).short h2
      refine ⟨items ++ more, last, ?_, ?_, hlast, ?_⟩
      · rw [List.length_append]
        exact Nat.add_lt_add_left hlen _
      · intro item hitem
        exact (List.mem_append.mp hitem).elim (hitems item) (hmore item)
      · rw [List.flatten_append, List.append_assoc]

/-- A first reader of no item does not count. -/
theorem ReadsItems.bind_of_zero {n : ℕ} {r : Reader ν σ α} {next : α → Reader ν σ β}
    (hr : ReadsItems whole torn 0 r) (hnext : ∀ a, ReadsItems whole torn n (next a)) :
    ReadsItems whole torn n (r >>= next) :=
  Nat.zero_add n ▸ hr.bind hnext

/-- Fewer than `n` whole items and a torn one that can be finished are a proper prefix of `n`
whole ones, where there is a whole item at all. -/
theorem exists_whole_of_short {n : ℕ} {items : List (List σ)} {last filler : List σ}
    (hlen : items.length < n) (hitems : ∀ item ∈ items, whole item) (hfiller : whole filler)
    {missing : List σ} (hne : missing ≠ []) (hlast : whole (last ++ missing)) :
    ∃ all : List (List σ), all.length = n ∧ (∀ item ∈ all, whole item) ∧
      items.flatten ++ last <+: all.flatten ∧ items.flatten ++ last ≠ all.flatten := by
  refine ⟨items ++ (last ++ missing) :: List.replicate (n - (items.length + 1)) filler,
    ?_, ?_, ?_, ?_⟩
  · rw [List.length_append, List.length_cons, List.length_replicate]
    omega
  · intro item hitem
    rcases List.mem_append.mp hitem with hitem | hitem
    · exact hitems item hitem
    · rcases List.mem_cons.mp hitem with rfl | hitem
      · exact hlast
      · rw [List.eq_of_mem_replicate hitem]
        exact hfiller
  · rw [List.flatten_append, List.flatten_cons, List.append_assoc, ← List.append_assoc]
    exact List.prefix_append _ _
  · rw [List.flatten_append, List.flatten_cons, List.append_assoc, ← List.append_assoc]
    intro heq
    have hmissing := List.self_eq_append_right.mp heq
    exact hne (List.append_eq_nil_iff.mp hmissing).1

end Items

end Reader

/-! ## Reading to the end -/

/-- A step that consumes at least one symbol whenever it finishes. -/
def Shrinks (step : α → Reader ν σ α) : Prop :=
  ∀ ⦃a xs notes b rest⦄, step a xs = ⟨notes, .done b rest⟩ → rest.length < xs.length

/-- Repeat a step until the input is used up. -/
def exhaust (step : α → Reader ν σ α) (hstep : Shrinks step) (a : α) (xs : List σ) :
    Report ν σ α :=
  match xs with
  | [] => ⟨[], .done a []⟩
  | x :: xs =>
    match _h : step a (x :: xs) with
    | ⟨notes, .done b rest⟩ => (exhaust step hstep b rest).after notes
    | ⟨notes, .short torn⟩ => ⟨notes, .short torn⟩
    | ⟨notes, .invalid⟩ => ⟨notes, .invalid⟩
termination_by xs.length
decreasing_by exact hstep _h

section Exhaust

variable {step : α → Reader ν σ α} {hstep : Shrinks step}

/-- With no input left there is no step to take. -/
@[simp] theorem exhaust_nil (a : α) : exhaust step hstep a [] = ⟨[], .done a []⟩ := by
  rw [exhaust]

/-- A finished step is followed by reading the rest. -/
theorem exhaust_of_done {a b : α} {xs rest : List σ} {notes : List ν}
    (h : step a xs = ⟨notes, .done b rest⟩) :
    exhaust step hstep a xs = (exhaust step hstep b rest).after notes := by
  cases xs with
  | nil => exact absurd (hstep h) (Nat.not_lt_zero _)
  | cons x xs =>
    rw [exhaust]
    split <;> simp_all

/-- A short step on some input ends the reading short. -/
theorem exhaust_of_short {a : α} {xs torn : List σ} {notes : List ν} (hne : xs ≠ [])
    (h : step a xs = ⟨notes, .short torn⟩) :
    exhaust step hstep a xs = ⟨notes, .short torn⟩ := by
  cases xs with
  | nil => exact absurd rfl hne
  | cons x xs =>
    rw [exhaust]
    split <;> simp_all

/-- A rejected step on some input rejects the reading. -/
theorem exhaust_of_invalid {a : α} {xs : List σ} {notes : List ν} (hne : xs ≠ [])
    (h : step a xs = ⟨notes, .invalid⟩) :
    exhaust step hstep a xs = ⟨notes, .invalid⟩ := by
  cases xs with
  | nil => exact absurd rfl hne
  | cons x xs =>
    rw [exhaust]
    split <;> simp_all

/-- Induction along the steps of a reading to the end. -/
theorem exhaust_induction {motive : α → List σ → Report ν σ α → Prop}
    (nil : ∀ a, motive a [] ⟨[], .done a []⟩)
    (done : ∀ a xs notes b rest, step a xs = ⟨notes, .done b rest⟩ →
      motive b rest (exhaust step hstep b rest) →
      motive a xs ((exhaust step hstep b rest).after notes))
    (short : ∀ a xs notes torn, xs ≠ [] → step a xs = ⟨notes, .short torn⟩ →
      motive a xs ⟨notes, .short torn⟩)
    (invalid : ∀ a xs notes, xs ≠ [] → step a xs = ⟨notes, .invalid⟩ →
      motive a xs ⟨notes, .invalid⟩)
    (a : α) (xs : List σ) : motive a xs (exhaust step hstep a xs) := by
  induction hn : xs.length using Nat.strongRecOn generalizing a xs with
  | _ n ih =>
    subst hn
    by_cases hne : xs = []
    · subst hne
      rw [exhaust_nil]
      exact nil a
    · rcases hs : step a xs with ⟨notes, ⟨b, rest⟩ | torn | _⟩
      · rw [exhaust_of_done hs]
        exact done a xs notes b rest hs (ih rest.length (hstep hs) b rest rfl)
      · rw [exhaust_of_short hne hs]
        exact short a xs notes torn hne hs
      · rw [exhaust_of_invalid hne hs]
        exact invalid a xs notes hne hs

/-- The notes of a reading to the end are those of its steps. -/
theorem exhaust_noting {P : ν → Prop} (hnoting : ∀ a, Reader.Noting P (step a)) (a : α)
    (xs : List σ) : ∀ n ∈ (exhaust step hstep a xs).notes, P n := by
  refine exhaust_induction (motive := fun _ _ report => ∀ n ∈ report.notes, P n) ?_ ?_ ?_ ?_ a xs
  · intro a n hn
    exact absurd hn List.not_mem_nil
  · intro a xs notes b rest hs ih n hn
    rw [Report.after_notes, List.mem_append] at hn
    have hfirst := hnoting a xs
    rw [hs] at hfirst
    exact hn.elim (hfirst n) (ih n)
  · intro a xs notes torn _ hs n hn
    have hfirst := hnoting a xs
    rw [hs] at hfirst
    exact hfirst n hn
  · intro a xs notes _ hs n hn
    have hfirst := hnoting a xs
    rw [hs] at hfirst
    exact hfirst n hn

/-- Reading to the end leaves nothing. -/
theorem exhaust_rest {a b : α} {xs rest : List σ}
    (h : (exhaust step hstep a xs).outcome = .done b rest) : rest = [] := by
  revert h
  refine exhaust_induction (motive := fun _ _ report => report.outcome = .done b rest → rest = [])
    ?_ ?_ ?_ ?_ a xs
  · intro a h
    injection h with _ hrest
    exact hrest.symm
  · intro a xs notes c mid _ ih h
    exact ih h
  · intro a xs notes torn _ _ h
    cases h
  · intro a xs notes _ _ h
    cases h

/-- The symbols are those of whole steps, one behind the other, that lead from `a` to `b`. -/
inductive Chain (step : α → Reader ν σ α) : α → List σ → α → Prop
  | nil (a : α) : Chain step a [] a
  | cons {a b c : α} {used xs : List σ} {notes : List ν} (read : step a used = ⟨notes, .done b []⟩)
      (more : Chain step b xs c) : Chain step a (used ++ xs) c

/-- Reading comes to the end exactly through whole steps. -/
theorem chain_iff_exhaust (hlocal : ∀ a, Reader.Local (step a)) (a b : α) (xs : List σ) :
    Chain step a xs b ↔ (exhaust step hstep a xs).outcome = .done b [] := by
  constructor
  · intro h
    induction h with
    | nil a => rw [exhaust_nil]
    | cons read more ih =>
      rw [exhaust_of_done ((hlocal _).append read _), List.nil_append]
      exact ih
  · refine exhaust_induction (motive := fun a xs report => report.outcome = .done b [] →
      Chain step a xs b) ?_ ?_ ?_ ?_ a xs
    · intro a h
      injection h with ha _
      rw [← ha]
      exact .nil a
    · intro a xs notes c rest hs ih h
      obtain ⟨used, rfl, hused⟩ := (hlocal a).done hs
      have hread := hused []
      rw [List.append_nil] at hread
      exact .cons hread (ih h)
    · intro a xs notes torn _ _ h
      cases h
    · intro a xs notes _ _ h
      cases h

/-- What is read to the end goes on with more input. -/
theorem exhaust_append (hlocal : ∀ a, Reader.Local (step a)) {a b : α} {xs rest : List σ}
    (h : (exhaust step hstep a xs).outcome = .done b rest) (ys : List σ) :
    exhaust step hstep a (xs ++ ys) =
      (exhaust step hstep b ys).after (exhaust step hstep a xs).notes := by
  revert h
  refine exhaust_induction (motive := fun a xs report => report.outcome = .done b rest →
    exhaust step hstep a (xs ++ ys) = (exhaust step hstep b ys).after report.notes) ?_ ?_ ?_ ?_ a xs
  · intro a h
    injection h with ha _
    rw [ha, List.nil_append, Report.after_nil]
  · intro a xs notes c mid hs ih h
    rw [exhaust_of_done ((hlocal a).append hs ys), ih h, Report.after_after]
    rfl
  · intro a xs notes torn _ _ h
    cases h
  · intro a xs notes _ _ h
    cases h

/-- A rejection stands whatever follows. -/
theorem exhaust_invalid_append (hlocal : ∀ a, Reader.Local (step a)) {a : α} {xs : List σ}
    (h : (exhaust step hstep a xs).outcome = .invalid) (ys : List σ) :
    exhaust step hstep a (xs ++ ys) = exhaust step hstep a xs := by
  revert h
  refine exhaust_induction (motive := fun a xs report => report.outcome = .invalid →
    exhaust step hstep a (xs ++ ys) = report) ?_ ?_ ?_ ?_ a xs
  · intro a h
    cases h
  · intro a xs notes c mid hs ih h
    rw [exhaust_of_done ((hlocal a).append hs ys), ih h]
  · intro a xs notes torn _ _ h
    cases h
  · intro a xs notes hne hs _
    exact exhaust_of_invalid (List.append_ne_nil_of_left_ne_nil hne ys) ((hlocal a).invalid hs ys)

/-- A short input is saved by some continuation once its torn part is dropped. -/
theorem exhaust_saved (hlocal : ∀ a, Reader.Local (step a)) {tears : List σ → Prop}
    {good : α → Prop} (hcomplete : ∀ a, Reader.Completable tears (step a) good) {a : α}
    {xs torn : List σ} (h : (exhaust step hstep a xs).outcome = .short torn) :
    tears torn ∧ ∃ used more b, xs = used ++ torn ∧
      (exhaust step hstep a (used ++ more)).outcome = .done b [] := by
  revert h
  refine exhaust_induction (motive := fun a xs report => report.outcome = .short torn →
    tears torn ∧ ∃ used more b, xs = used ++ torn ∧
      (exhaust step hstep a (used ++ more)).outcome = .done b []) ?_ ?_ ?_ ?_ a xs
  · intro a h
    cases h
  · intro a xs notes c mid hs ih h
    obtain ⟨htears, used', more, b, rfl, hdone⟩ := ih h
    obtain ⟨used, rfl, hused⟩ := (hlocal a).done hs
    refine ⟨htears, used ++ used', more, b, (List.append_assoc _ _ _).symm, ?_⟩
    rw [List.append_assoc, exhaust_of_done (hused _)]
    exact hdone
  · intro a xs notes torn' _ hs h
    injection h with htorn
    subst htorn
    obtain ⟨htears, used, more, notes', b, rfl, hdone, -⟩ := hcomplete a hs
    refine ⟨htears, used, more, b, rfl, ?_⟩
    rw [exhaust_of_done hdone, exhaust_nil]
    rfl
  · intro a xs notes _ _ h
    cases h

end Exhaust

end Reading
