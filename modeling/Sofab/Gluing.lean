import Sofab.WireGrammar

/-!
# Gluing the pieces of a payload

A payload that straddles chunks reaches the visitor in pieces. `glue` joins a piece with the
next callback when both are pieces of one payload: the same kind, id and total, the second
at the offset where the first ends. An empty piece is never joined.
-/

namespace Sofab

open Reading

/-- Put a callback in front of glued ones, joined to the first where it continues it. -/
def joinPiece (c : Callback) (rest : List Callback) : List Callback :=
  match c, rest with
  | .string id total offset chunk, .string id' total' offset' chunk' :: rest' =>
    if id = id' ∧ total = total' ∧ offset' = offset + chunk.length ∧ chunk ≠ [] then
      .string id total offset (chunk ++ chunk') :: rest'
    else
      c :: rest
  | .blob id total offset chunk, .blob id' total' offset' chunk' :: rest' =>
    if id = id' ∧ total = total' ∧ offset' = offset + chunk.length ∧ chunk ≠ [] then
      .blob id total offset (chunk ++ chunk') :: rest'
    else
      c :: rest
  | _, _ => c :: rest

/-- Glue the adjacent pieces of each payload together. -/
def glue (run : List Callback) : List Callback := run.foldr joinPiece []

/-- A payload callback is empty only when the whole payload is. -/
def Proper : Callback → Prop
  | .string _ total _ chunk => chunk = [] → total = 0
  | .blob _ total _ chunk => chunk = [] → total = 0
  | _ => True

/-- A payload callback starts at offset 0. -/
def FromStart : Callback → Prop
  | .string _ _ offset _ => offset = 0
  | .blob _ _ offset _ => offset = 0
  | _ => True

instance : DecidablePred Proper := fun c => by
  cases c <;> unfold Proper <;> infer_instance

instance : DecidablePred FromStart := fun c => by
  cases c <;> unfold FromStart <;> infer_instance

/-- Properness is about payloads, of either kind. -/
theorem proper_payload {isBlob : Bool} {id : Id} {total offset : ℕ} {chunk : List UInt8} :
    Proper (.payload isBlob id total offset chunk) ↔ (chunk = [] → total = 0) := by
  cases isBlob <;> rfl

/-- Where a payload starts is about payloads, of either kind. -/
theorem fromStart_payload {isBlob : Bool} {id : Id} {total offset : ℕ} {chunk : List UInt8} :
    FromStart (.payload isBlob id total offset chunk) ↔ offset = 0 := by
  cases isBlob <;> rfl

/-- An integer is no payload, hence proper. -/
theorem proper_integer (signed : Bool) (id : Id) (value : Unsigned) :
    Proper (.integer signed id value) := by
  cases signed <;> trivial

/-- A float is no payload, hence proper. -/
theorem proper_float (fp64 : Bool) (id : Id) (bytes : List UInt8) :
    Proper (.float fp64 id bytes) := by
  cases fp64 <;> trivial

/-- An integer is no payload, hence from the start. -/
theorem fromStart_integer (signed : Bool) (id : Id) (value : Unsigned) :
    FromStart (.integer signed id value) := by
  cases signed <;> trivial

/-- A float is no payload, hence from the start. -/
theorem fromStart_float (fp64 : Bool) (id : Id) (bytes : List UInt8) :
    FromStart (.float fp64 id bytes) := by
  cases fp64 <;> trivial

/-- `run` is `whole` with its payloads cut into nonempty pieces. -/
inductive Joined : List Callback → List Callback → Prop
  | nil : Joined [] []
  | call {c : Callback} {run whole : List Callback} (proper : Proper c) (joined : Joined run whole) :
      Joined (c :: run) (c :: whole)
  | piece {isBlob : Bool} {id : Id} {total offset : ℕ} {chunk chunk' : List UInt8}
      {run whole : List Callback} (nonempty : chunk ≠ [])
      (joined : Joined run (.payload isBlob id total (offset + chunk.length) chunk' :: whole)) :
      Joined (.payload isBlob id total offset chunk :: run)
        (.payload isBlob id total offset (chunk ++ chunk') :: whole)

/-- Properly sized callbacks stand for themselves. -/
theorem Joined.of_proper {cs run whole : List Callback} (hcs : ∀ c ∈ cs, Proper c)
    (h : Joined run whole) : Joined (cs ++ run) (cs ++ whole) := by
  induction cs with
  | nil => exact h
  | cons c cs ih =>
    exact .call (hcs c List.mem_cons_self) (ih fun c hc => hcs c (List.mem_cons_of_mem _ hc))

/-- Every piece is properly sized. -/
theorem Joined.proper {run whole : List Callback} (h : Joined run whole) :
    ∀ c ∈ run, Proper c := by
  induction h with
  | nil => simp
  | call hc _ ih => exact List.forall_mem_cons.mpr ⟨hc, ih⟩
  | piece hne _ ih =>
    exact List.forall_mem_cons.mpr ⟨proper_payload.mpr fun hnil => absurd hnil hne, ih⟩

/-- A piece is glued to the piece it ends at. -/
theorem joinPiece_payload {isBlob : Bool} {id : Id} {total offset : ℕ} {chunk : List UInt8}
    (chunk' : List UInt8) (rest : List Callback) (hne : chunk ≠ []) :
    joinPiece (.payload isBlob id total offset chunk)
        (.payload isBlob id total (offset + chunk.length) chunk' :: rest) =
      .payload isBlob id total offset (chunk ++ chunk') :: rest := by
  cases isBlob <;> simp [Callback.payload, joinPiece, hne]

/-- Nothing is glued to a callback that starts a payload. -/
theorem joinPiece_fromStart {c : Callback} {rest : List Callback}
    (hrest : ∀ d ∈ rest, FromStart d) : joinPiece c rest = c :: rest := by
  have hpos {chunk : List UInt8} {offset offset' : ℕ} (h0 : offset' = 0)
      (heq : offset' = offset + chunk.length) : chunk = [] :=
    List.length_eq_zero_iff.mp (by omega)
  unfold joinPiece
  split
  · next id total offset chunk id' total' offset' chunk' rest' =>
    have h0 : offset' = 0 := hrest _ List.mem_cons_self
    rw [if_neg]
    rintro ⟨-, -, heq, hne⟩
    exact hne (hpos h0 heq)
  · next id total offset chunk id' total' offset' chunk' rest' =>
    have h0 : offset' = 0 := hrest _ List.mem_cons_self
    rw [if_neg]
    rintro ⟨-, -, heq, hne⟩
    exact hne (hpos h0 heq)
  · rfl

/-- Gluing the pieces gives the whole callbacks back when these start their payloads; the
first may continue one. -/
theorem Joined.glue {run whole : List Callback} (h : Joined run whole)
    (hwhole : ∀ d ∈ whole.tail, FromStart d) : glue run = whole := by
  induction h with
  | nil => rfl
  | @call c run whole hc _ ih =>
    have hrun : Sofab.glue run = whole := ih fun d hd => hwhole d (List.mem_of_mem_tail hd)
    change joinPiece c (Sofab.glue run) = _
    rw [hrun]
    exact joinPiece_fromStart hwhole
  | @piece isBlob id total offset chunk chunk' run whole hne _ ih =>
    change joinPiece _ (Sofab.glue run) = _
    rw [ih hwhole, joinPiece_payload _ _ hne]

variable {α β : Type}

/-- Reading `whole` makes the callbacks `made` first and then goes on like `rest`, up to
gluing. -/
structure Extends (made : List Callback) (whole rest : Report Note UInt8 α) : Prop where
  outcome : whole.outcome = rest.outcome
  joined {run more : List Callback} : Joined run (calls rest.notes ++ more) →
    Joined (made ++ run) (calls whole.notes ++ more)

/-- With nothing read a report extends itself. -/
theorem Extends.refl (report : Report Note UInt8 α) : Extends [] report report :=
  ⟨rfl, fun h => h⟩

/-- Later callbacks go behind earlier ones. -/
theorem Extends.trans {made made' : List Callback} {a b c : Report Note UInt8 α}
    (h : Extends made a b) (h' : Extends made' b c) : Extends (made ++ made') a c where
  outcome := h.outcome.trans h'.outcome
  joined hrun := by
    rw [List.append_assoc]
    exact h.joined (h'.joined hrun)

/-- Notes in front of both are callbacks already made. -/
theorem Extends.after {made : List Callback} {whole rest : Report Note UInt8 α} {notes : List Note}
    (hnotes : ∀ c ∈ calls notes, Proper c) (h : Extends made whole rest) :
    Extends (calls notes ++ made) (whole.after notes) rest where
  outcome := h.outcome
  joined hrun := by
    rw [Report.after_notes, calls_append, List.append_assoc, List.append_assoc]
    exact (h.joined hrun).of_proper hnotes

/-- What follows a reading follows it after the suspension too. -/
theorem Extends.bind {made : List Callback} {r r' : WireReader α} {xs xs' : List UInt8}
    (h : Extends made (r xs) (r' xs')) (next : α → WireReader β) :
    Extends made ((r >>= next) xs) ((r' >>= next) xs') := by
  rcases hw : r xs with ⟨notes, outcome⟩
  rcases hr : r' xs' with ⟨notes', outcome'⟩
  rw [hw, hr] at h
  obtain ⟨houtcome, hjoined⟩ := h
  have heq : outcome = outcome' := houtcome
  subst heq
  cases outcome with
  | done a rest =>
    rw [Reader.bind_of_done hw, Reader.bind_of_done hr]
    refine ⟨rfl, fun hrun => ?_⟩
    rw [Report.after_notes, calls_append, List.append_assoc] at hrun ⊢
    exact hjoined hrun
  | short torn =>
    rw [Reader.bind_of_short hw, Reader.bind_of_short hr]
    exact ⟨rfl, hjoined⟩
  | invalid =>
    rw [Reader.bind_of_invalid hw, Reader.bind_of_invalid hr]
    exact ⟨rfl, hjoined⟩

end Sofab
