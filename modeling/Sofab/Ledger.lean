import Sofab.Bookkeeping

/-!
# The sequences of a run

What can be seen of the sequences in a run is entered in a ledger: from the reports which ones
are open, and from the output which of their start headers are complete and how many end
markers there are. The ledger never looks inside the stream. The depth and the run of
held-back ids of the stream agree with it at every point.
-/

namespace Sofab

open Steps Step OStream

/-- The open sequences, outermost first, each with whether its start header is complete in the
output, and the numbers of start headers and of end markers in the output. -/
structure Ledger where
  opened : List (Id × Bool)
  starts : ℕ
  ends : ℕ
  deriving DecidableEq, Repr

namespace Ledger

/-- A ledger without entries. -/
def new : Ledger := ⟨[], 0, 0⟩

/-- The open sequences whose start header is not complete in the output. -/
def unwritten (l : Ledger) : List Id := (l.opened.filter fun sequence => !sequence.2).map Prod.fst

/-- Enter that the headers of the outermost `k` sequences without one are complete. -/
def mark : ℕ → List (Id × Bool) → List (Id × Bool)
  | _, [] => []
  | k, (id, true) :: opened => (id, true) :: mark k opened
  | 0, opened => opened
  | k + 1, (id, false) :: opened => (id, true) :: mark k opened

end Ledger

/-- The sequences that are open past a call that ended so. -/
def Call.reopen (opened : List (Id × Bool)) : Call → Exit Error Unit → List (Id × Bool)
  | .sequenceBeginLazy id, .ok _ => opened ++ [(id, false)]
  | .sequenceEnd, .ok _ => opened.dropLast
  | .sequenceEndKeep, .ok _ => opened.dropLast
  | _, _ => opened

/-- The end markers in what a call wrote. -/
def Call.markers (held : List Id) (bytes : List UInt8) : Call → ℕ
  | .sequenceEnd => if bytes = startHeaders held ++ endMarker then 1 else 0
  | .sequenceEndKeep => if bytes = startHeaders held ++ endMarker then 1 else 0
  | _ => 0

namespace Ledger

/-- Enter a call by its report and the bytes that it added to the output. -/
def enter (l : Ledger) (call : Call) (exit : Exit Error Unit) (bytes : List UInt8) : Ledger where
  opened := call.reopen (mark (completed l.unwritten bytes) l.opened) exit
  starts := l.starts + completed l.unwritten bytes
  ends := l.ends + call.markers l.unwritten bytes

/-- Enter an operation by its report and the messages before and after it. -/
def enterOp (l : Ledger) (op : Op) (exit : Exit Error Unit) (before after : List UInt8) : Ledger :=
  match op with
  | .call call => l.enter call exit (after.drop before.length)
  | _ => l

end Ledger

/-- The ledger of a run before its `i`th operation. -/
def ledgerAt (host : Endian) (ops : List Op) (os : OStream) : ℕ → Ledger
  | 0 => .new
  | i + 1 =>
    match ops[i]? with
    | none => ledgerAt host ops os i
    | some op =>
      let result := op.run host (stateAt host ops os i)
      (ledgerAt host ops os i).enterOp op result.2 (stateAt host ops os i).message
        result.1.message

/-- The framing state of a stream agrees with the ledger: the run of held-back ids is that of
the innermost open sequences without a complete header, in slots that were all written. -/
structure Booked (os : OStream) (l : Ledger) : Prop where
  depth_le : os.depth ≤ maxDepth
  depth_eq : os.depth = l.opened.length
  pending_le : os.pending.len ≤ os.depth
  pending : os.pending.Holds l.unwritten
  innermost : ∃ written : List Id,
    l.opened = written.map (fun id => (id, true)) ++ l.unwritten.map fun id => (id, false)
  initialised : os.pending.ids.length = maxDepth ∧
    ∀ i < os.pending.len, ∃ id, os.pending.ids[i]? = some (some id)
  balance : l.starts = l.ends + (os.depth - os.pending.len)

/-- How an operation that ended so moves the depth. -/
def Op.depthAfter (depth : ℕ) : Op → Exit Error Unit → ℕ
  | .call (.sequenceBeginLazy _), .ok _ => depth + 1
  | .call .sequenceEnd, .ok _ => depth - 1
  | .call .sequenceEndKeep, .ok _ => depth - 1
  | _, _ => depth

namespace Ledger

/-- Open sequences of which the outer ones are written. -/
def opening (written held : List Id) : List (Id × Bool) :=
  written.map (fun id => (id, true)) ++ held.map fun id => (id, false)

/-- All open sequences are those with a header in the output and those without. -/
theorem length_opening (written held : List Id) :
    (opening written held).length = written.length + held.length := by
  rw [opening, List.length_append, List.length_map, List.length_map]

/-- A sequence that is opened has no header in the output yet. -/
theorem opening_concat (written held : List Id) (id : Id) :
    opening written held ++ [(id, false)] = opening written (held ++ [id]) := by
  rw [opening, opening, List.map_append, List.append_assoc]
  rfl

/-- The sequences without a header in the output are the held-back ones. -/
theorem unwritten_opening (written held : List Id) (starts ends : ℕ) :
    (⟨opening written held, starts, ends⟩ : Ledger).unwritten = held := by
  simp [unwritten, opening, List.filter_map, Function.comp_def]

/-- Completed headers move the outermost held-back ids to the written ones. -/
theorem mark_opening (written : List Id) {held : List Id} {k : ℕ} (hk : k ≤ held.length) :
    mark k (opening written held) = opening (written ++ held.take k) (held.drop k) := by
  induction written with
  | nil =>
    induction held generalizing k with
    | nil =>
      obtain rfl : k = 0 := Nat.le_zero.mp hk
      rfl
    | cons id held ih =>
      cases k with
      | zero => rfl
      | succ k => exact congrArg ((id, true) :: ·) (ih (Nat.le_of_succ_le_succ hk))
  | cons id written ih => exact congrArg ((id, true) :: ·) ih

/-- The ledger has the sequences of a framing, and `written` are those that are not held
back. -/
structure Shows (l : Ledger) (φ : Framing) (written : List Id) : Prop where
  opened : l.opened = opening written φ.held
  depth : φ.depth = written.length + φ.held.length
  starts : l.starts = l.ends + written.length

variable {l : Ledger} {φ φ' : Framing} {written : List Id} {bytes : List UInt8} {call : Call}

/-- A new ledger shows the framing of a new stream. -/
theorem shows_new : new.Shows .new [] := ⟨rfl, rfl, rfl⟩

/-- A ledger shows the held-back ids as its unwritten sequences. -/
theorem Shows.unwritten (h : l.Shows φ written) : l.unwritten = φ.held := by
  obtain ⟨opened, starts, ends⟩ := l
  obtain rfl : opened = _ := h.opened
  exact unwritten_opening written φ.held starts ends

/-- The headers complete in what a call wrote are entered before the call itself. -/
theorem Shows.enter_eq (h : l.Shows φ written) (call : Call) (exit : Exit Error Unit)
    (bytes : List UInt8) : l.enter call exit bytes =
      ⟨call.reopen (opening (written ++ φ.held.take (completed φ.held bytes))
          (φ.held.drop (completed φ.held bytes))) exit,
        l.starts + completed φ.held bytes, l.ends + call.markers φ.held bytes⟩ := by
  rw [enter, h.unwritten, h.opened, mark_opening written (completed_le φ.held bytes)]

/-- A call that failed opens and closes nothing. -/
theorem reopen_err (call : Call) (opened : List (Id × Bool)) (e : Error) :
    call.reopen opened (.err e) = opened := by
  cases call <;> rfl

/-- A call that wrote nothing and failed leaves the ledger. -/
theorem Shows.enter_nothing (h : l.Shows φ written) (call : Call) (e : Error) :
    l.enter call (.err e) [] = l := by
  have hmarkers : call.markers φ.held [] = 0 := by
    cases call with
    | sequenceEnd => exact if_neg (by simp [endMarker])
    | sequenceEndKeep => exact if_neg (by simp [endMarker])
    | _ => rfl
  rw [h.enter_eq, completed_nil, hmarkers, reopen_err, List.take_zero, List.append_nil,
    List.drop_zero, ← h.opened]
  rfl

/-- A call that stopped short. -/
theorem Shows.enter_torn (h : l.Shows φ written) (hemit : call.emit φ = .ok (φ', bytes)) {k : ℕ}
    (hshort : k < bytes.length) (e : Error) :
    (l.enter call (.err e) (bytes.take k)).Shows
      ⟨φ.depth, φ.held.drop (completed φ.held (bytes.take k))⟩
      (written ++ φ.held.take (completed φ.held (bytes.take k))) := by
  have hle := completed_le φ.held (bytes.take k)
  -- a marker is the last byte of its call
  have hmarkers : call.markers φ.held (bytes.take k) = 0 := by
    have htake : bytes.take k ≠ bytes := fun heq => by
      have hlen := congrArg List.length heq
      rw [List.length_take] at hlen
      omega
    cases Call.emitted hemit with
    | field => rfl
    | opened => rfl
    | closed _ hnil =>
      refine if_neg ?_
      rw [hnil]
      exact htake
    | vanished => exact absurd hshort (Nat.not_lt_zero k)
    | kept => exact if_neg htake
  rw [h.enter_eq, hmarkers, reopen_err]
  refine ⟨rfl, ?_, ?_⟩
  · rw [List.length_append, List.length_take, List.length_drop, h.depth]
    omega
  · rw [List.length_append, List.length_take, h.starts]
    dsimp only
    omega

/-- A written sequence is closed by its marker. -/
theorem shows_closed {written : List Id} (hne : written ≠ []) {starts ends depth : ℕ}
    (hdepth : depth = written.length) (hstarts : starts = ends + written.length) :
    (⟨(opening written []).dropLast, starts, ends + 1⟩ : Ledger).Shows ⟨depth - 1, []⟩
      written.dropLast := by
  have hpos := List.length_pos_iff.mpr hne
  refine ⟨?_, ?_, ?_⟩
  · rw [opening, opening, List.map_nil, List.append_nil, List.append_nil, List.map_dropLast]
  · rw [List.length_dropLast, hdepth]
    rfl
  · rw [List.length_dropLast, hstarts]
    dsimp only
    omega

/-- A call that went through. -/
theorem Shows.enter_emitted (h : l.Shows φ written) (hemit : call.emit φ = .ok (φ', bytes)) :
    ∃ written', (l.enter call (.ok ()) bytes).Shows φ' written' := by
  have hdepth := h.depth
  have hstarts := h.starts
  rw [h.enter_eq]
  cases Call.emitted hemit with
  | field =>
    rw [completed_append, List.take_length, List.drop_length]
    refine ⟨written ++ φ.held, rfl, ?_, ?_⟩
    · rw [List.length_append, List.length_nil]
      exact hdepth
    · rw [List.length_append]
      exact (congrArg (· + φ.held.length) hstarts).trans (Nat.add_assoc _ _ _)
  | @opened id =>
    rw [completed_nil, List.take_zero, List.append_nil, List.drop_zero]
    refine ⟨written, opening_concat written φ.held id, ?_, hstarts⟩
    rw [List.length_append, List.length_singleton]
    exact congrArg (· + 1) hdepth
  | closed hopen hnil =>
    rw [hnil] at hdepth ⊢
    have hne : written ≠ [] := by
      rintro rfl
      exact hopen hdepth
    refine ⟨written.dropLast, ?_⟩
    have hmarkers : Call.sequenceEnd.markers [] endMarker = 1 := rfl
    rw [List.take_nil, List.append_nil, hmarkers]
    exact shows_closed hne hdepth hstarts
  | vanished _ hne =>
    rw [completed_nil, List.take_zero, List.append_nil, List.drop_zero]
    have hpos := List.length_pos_iff.mpr hne
    have hmarkers : Call.sequenceEnd.markers φ.held [] = 0 := if_neg (by simp [endMarker])
    rw [hmarkers]
    refine ⟨written, ?_, ?_, hstarts⟩
    · change (opening written φ.held).dropLast = opening written φ.held.dropLast
      rw [opening, opening, List.dropLast_append_of_ne_nil (by simpa using hne),
        List.map_dropLast]
    · rw [List.length_dropLast, hdepth]
      dsimp only
      omega
  | kept hopen =>
    rw [completed_append, List.take_length, List.drop_length]
    have hlen : (written ++ φ.held).length = φ.depth := by rw [List.length_append, hdepth]
    have hne : written ++ φ.held ≠ [] := fun hnil => hopen (by rw [← hlen, hnil]; rfl)
    refine ⟨(written ++ φ.held).dropLast, ?_⟩
    have hmarkers : Call.sequenceEndKeep.markers φ.held (startHeaders φ.held ++ endMarker) = 1 :=
      if_pos rfl
    rw [hmarkers]
    refine shows_closed hne hlen.symm ?_
    rw [hstarts, hlen, hdepth]
    omega

end Ledger

/-! ## Along a run -/

section Runs

variable {os os' : OStream} {l : Ledger} {φ : Framing} {written : List Id}

/-- A stream that stands for the framing that the ledger shows agrees with the ledger. -/
theorem Framed.booked (hframed : Framed os φ) (hshows : l.Shows φ written) : Booked os l := by
  have hlen : os.pending.len = φ.held.length := hframed.pending.len
  have hdepth : os.depth = written.length + φ.held.length := hframed.depth.trans hshows.depth
  refine
    { depth_le := hframed.depth ▸ hframed.lawful.depth
      depth_eq := ?_
      pending_le := ?_
      pending := hshows.unwritten ▸ hframed.pending
      innermost := ⟨written, hshows.unwritten ▸ hshows.opened⟩
      initialised := ⟨hframed.pending.size, fun i hi => ?_⟩
      balance := ?_ }
  · rw [hshows.opened, Ledger.length_opening, hdepth]
  · rw [hlen, hdepth]
    exact Nat.le_add_left _ _
  · rw [hlen] at hi
    have hslot : (os.pending.ids.take os.pending.n)[i]? = (φ.held.map some)[i]? := by
      rw [hframed.pending.filled]
    rw [List.getElem?_take_of_lt (hframed.pending.len ▸ hi), List.getElem?_map,
      List.getElem?_eq_getElem hi] at hslot
    exact ⟨_, hslot⟩
  · rw [hshows.starts, hlen, hdepth, Nat.add_sub_cancel]

/-- The state of a stream and of its ledger while a sink returns from its handovers. -/
structure Ledgered (os : OStream) (l : Ledger) : Prop where
  sound : Sound os
  shows_ : ∃ φ written, Framed os φ ∧ l.Shows φ written

/-- A stream with a ledger is booked in it. -/
theorem Ledgered.booked (h : Ledgered os l) : Booked os l := by
  obtain ⟨φ, written, hframed, hshows⟩ := h.shows_
  exact hframed.booked hshows

/-- What an operation does to the depth of the stream. -/
structure Moved (os : OStream) (op : Op) (result : OStream × Exit Error Unit) : Prop where
  depth : result.1.depth = op.depthAfter os.depth result.2
  opening_ : (∃ id, op = .call (.sequenceBeginLazy id)) → result.2 = .ok () →
    os.pending.len < maxDepth
  closing : op = .call .sequenceEnd ∨ op = .call .sequenceEndKeep → result.2 = .ok () →
    0 < os.depth

/-- The depth past a call that went through. -/
theorem Call.emit_depth {φ' : Framing} {call : Call} {bytes : List UInt8}
    (h : call.emit φ = .ok (φ', bytes)) :
    φ'.depth = (Op.call call).depthAfter φ.depth (.ok ()) := by
  cases Call.emitted h <;> rfl

/-- A failed operation leaves the depth. -/
theorem depthAfter_err (op : Op) (depth : ℕ) (e : Error) : op.depthAfter depth (.err e) = depth := by
  cases op with
  | call call => cases call <;> rfl
  | _ => rfl

/-- A failed call that leaves the depth moves as it should. -/
theorem moved_err {op : Op} {e : Error} (hdepth : os'.depth = os.depth) :
    Moved os op (os', .err e) :=
  ⟨hdepth.trans (depthAfter_err op os.depth e).symm, fun _ hok => (by cases hok),
    fun _ hok => (by cases hok)⟩

/-- A call that goes through moves the depth as its framing has it. -/
theorem moved_ok {φ' : Framing} {call : Call} {bytes : List UInt8} (hframed : Framed os φ)
    (hemit : call.emit φ = .ok (φ', bytes)) (hframed' : Framed os' φ') :
    Moved os (.call call) (os', .ok ()) := by
  refine ⟨?_, ?_, ?_⟩
  · rw [hframed'.depth, Call.emit_depth hemit, hframed.depth]
  · rintro ⟨id, ⟨⟩⟩ -
    cases Call.emitted hemit with
    | opened hroom =>
      have hlen : os.pending.len = φ.held.length := hframed.pending.len
      rw [hlen]
      exact hframed.lawful.held.trans_lt hroom
  · intro hcloser _
    rw [hframed.depth]
    refine Nat.pos_of_ne_zero ?_
    rcases hcloser with ⟨⟨⟩⟩ | ⟨⟨⟩⟩
    · cases Call.emitted hemit <;> assumption
    · cases Call.emitted hemit
      assumption

/-- One operation and its entry. -/
theorem Ledgered.step (h : Ledgered os l) (host : Endian) (op : Op) :
    Ledgered (op.run host os).1
        (l.enterOp op (op.run host os).2 os.message (op.run host os).1.message) ∧
      Moved os op (op.run host os) ∨ Broken os (op.run host os).1 := by
  obtain ⟨hsound, φ, written, hframed, hshows⟩ := h
  have hbuffers (hop : ∀ c, op ≠ .call c) (hmoved : ∀ exit, op.depthAfter os.depth exit = os.depth)
      (henter : ∀ exit before after, l.enterOp op exit before after = l) :
      Ledgered (op.run host os).1
          (l.enterOp op (op.run host os).2 os.message (op.run host os).1.message) ∧
        Moved os op (op.run host os) ∨ Broken os (op.run host os).1 := by
    refine (buffers_step hsound host hop).imp_left fun ⟨hsound', same⟩ => ⟨?_, ?_⟩
    · rw [henter]
      exact ⟨hsound', φ, written, same.framed hframed, hshows⟩
    · refine ⟨same.depth.trans (hmoved _).symm, ?_, ?_⟩
      · rintro ⟨id, rfl⟩
        exact absurd rfl (hop _)
      · rintro (rfl | rfl)
        · exact absurd rfl (hop _)
        · exact absurd rfl (hop _)
  cases op with
  | flush => exact hbuffers (by simp) (fun _ => rfl) fun _ _ _ => rfl
  | bufferSet buffer offset => exact hbuffers (by simp) (fun _ => rfl) fun _ _ _ => rfl
  | call call =>
    rw [Op.run]
    rcases hemit : call.emit φ with e | ⟨φ', bytes⟩
    · rw [Call.write_refused host hframed hemit, Ledger.enterOp, List.drop_length,
        hshows.enter_nothing]
      exact .inl ⟨⟨hsound, φ, written, hframed, hshows⟩, moved_err rfl⟩
    · have hemits := call.write_emits host hsound hframed hemit
      generalize call.write host os = result at hemits
      cases hemits with
      | ok reached dead framed =>
        obtain ⟨written', hshows'⟩ := hshows.enter_emitted hemit
        rw [Ledger.enterOp, reached.message, List.drop_left]
        exact .inl ⟨⟨reached.sound, φ', written', framed, hshows'⟩,
          moved_ok hframed hemit framed⟩
      | @stopped os' k reached short spent torn =>
        obtain ⟨more, hmore, hframed'⟩ := torn
        obtain rfl : bytes.take k = more :=
          List.append_cancel_left (reached.message.symm.trans hmore)
        rw [Ledger.enterOp, reached.message, List.drop_left]
        exact .inl ⟨⟨reached.sound, _, _, hframed', hshows.enter_torn hemit short _⟩,
          moved_err (hframed'.depth.trans hframed.depth.symm)⟩
      | unwound broken => exact .inr broken

/-- The ledger past one more operation. -/
theorem ledgerAt_succ (host : Endian) {ops : List Op} (os : OStream) {i : ℕ} (hi : i < ops.length) :
    ledgerAt host ops os (i + 1) = (ledgerAt host ops os i).enterOp ops[i]
      (ops[i].run host (stateAt host ops os i)).2 (stateAt host ops os i).message
      (ops[i].run host (stateAt host ops os i)).1.message := by
  rw [ledgerAt, List.getElem?_eq_getElem hi]

/-- A stream as it is opened has an empty ledger. -/
theorem Opened.ledgered (h : Opened os) : Ledgered os .new :=
  ⟨h.written.sound, .new, [], h.written.framed, Ledger.shows_new⟩

/-- The ledger of a run is kept for as long as the sink returns from its handovers. -/
theorem Ledgered.run (h : Ledgered os .new) (host : Endian) (ops : List Op)
    (hanswered : ∀ i ≤ ops.length, (stateAt host ops os i).Answered) :
    ∀ i ≤ ops.length, Ledgered (stateAt host ops os i) (ledgerAt host ops os i) := by
  refine drive_take_induction (Op.run host)
    (I := fun i os' => Ledgered os' (ledgerAt host ops os i)) h fun i hi hbefore => ?_
  have hafter := hanswered (i + 1) hi
  rw [stateAt_succ host os hi] at hafter
  rw [ledgerAt_succ host os hi]
  rcases hbefore.step host ops[i] with ⟨hledgered, -⟩ | hbroken
  · exact hledgered
  · exact absurd hafter hbroken.not_answered

/-- At every point of a run the framing state agrees with the ledger, and only the sequence
writers that succeed move the depth. -/
theorem framing_follows_ledger (host : Endian) (hopen : Opened os) (ops : List Op)
    (hanswered : ∀ i ≤ ops.length, (stateAt host ops os i).Answered) :
    (∀ i ≤ ops.length, Booked (stateAt host ops os i) (ledgerAt host ops os i)) ∧
      ∀ i (hi : i < ops.length),
        Moved (stateAt host ops os i) ops[i] (ops[i].run host (stateAt host ops os i)) := by
  have hrun := hopen.ledgered.run host ops hanswered
  refine ⟨fun i hi => (hrun i hi).booked, fun i hi => ?_⟩
  have hafter := hanswered (i + 1) hi
  rw [stateAt_succ host os hi] at hafter
  rcases (hrun i hi.le).step host ops[i] with ⟨-, hmoved⟩ | hbroken
  · exact hmoved
  · exact absurd hafter hbroken.not_answered

end Runs

/-- Two sequences and a field in a buffer that ends inside the second start header. -/
theorem framing_follows_ledger_torn :
    Booked (stateAt .little [.call (.sequenceBeginLazy 1), .call (.sequenceBeginLazy 16),
        .call (.field (.unsigned 0 5))] (.new [0, 0]) 3) ⟨[(1, true), (16, false)], 1, 0⟩ := by
  have hnone : ∀ i < 4, (stateAt .little [.call (.sequenceBeginLazy 1),
      .call (.sequenceBeginLazy 16), .call (.field (.unsigned 0 5))] (.new [0, 0]) i).flush_.isNone
        = true := by decide +kernel
  have hbooked := (framing_follows_ledger .little (.new [0, 0]) [.call (.sequenceBeginLazy 1),
    .call (.sequenceBeginLazy 16), .call (.field (.unsigned 0 5))] fun i hi sink hsink => by
      have hflush := hnone i (Nat.lt_succ_of_le hi)
      rw [hsink] at hflush
      cases hflush).1 3 (Nat.le_refl 3)
  have hledger : ledgerAt .little [.call (.sequenceBeginLazy 1), .call (.sequenceBeginLazy 16),
      .call (.field (.unsigned 0 5))] (.new [0, 0]) 3 = ⟨[(1, true), (16, false)], 1, 0⟩ := by
    decide +kernel
  rwa [hledger] at hbooked

end Sofab
