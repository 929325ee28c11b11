import Sofab.Bookkeeping
import Sofab.Refusals

/-!
# Units without a byte of the message

A full buffer has room past its start offset, so it is handed over with bytes of the message in
it. A flush, and the handover on the way to another buffer, look at the cursor alone: where the
active buffer was installed with header room and nothing has been written since, they hand over
a unit that holds the header room and nothing else.
-/

namespace Sofab

open Steps Step OStream

/-- The cursor is past the start offset of the unit. -/
def Handover.Advanced (h : Handover) : Prop := h.installed.offset < h.used

/-- At least one byte was written to the unit since it was installed, and the unit holds it. -/
def Handover.Laden (h : Handover) : Prop := h.Advanced ∧ h.used ≤ h.buffer.length

instance : DecidablePred Handover.Advanced := fun _ => inferInstanceAs (Decidable (_ < _))

instance : DecidablePred Handover.Laden := fun _ => inferInstanceAs (Decidable (_ ∧ _))

/-- A stream with a sink. While it is live the cursor is not before the start offset, and there
is room past that. -/
structure Attached (os : OStream) : Prop where
  sink : ∃ sink, os.flush_ = some sink
  room : os.dead = false → os.installed.offset < os.end_
  start : os.dead = false → os.installed.offset ≤ os.offset

/-- Units were handed over in between, each of them with the cursor past its start offset. -/
def AdvancedBetween (os os' : OStream) : Prop :=
  ∃ more, os'.handed = os.handed ++ more ∧ ∀ h ∈ more, h.Advanced

/-- A stream with a sink is one still, and in what it handed over in between the cursor had moved. -/
def Ships (os os' : OStream) : Prop := Attached os → Attached os' ∧ AdvancedBetween os os'

instance : Std.Refl Ships :=
  ⟨fun _ hos => ⟨hos, [], (List.append_nil _).symm, fun _ hh => absurd hh List.not_mem_nil⟩⟩

instance : IsTrans OStream Ships := by
  refine ⟨fun os os₁ os' h h' hos => ?_⟩
  obtain ⟨hos₁, more, hmore, hadvanced⟩ := h hos
  obtain ⟨hos', more', hmore', hadvanced'⟩ := h' hos₁
  refine ⟨hos', more ++ more', by rw [hmore', hmore, List.append_assoc], fun unit hunit => ?_⟩
  exact (List.mem_append.mp hunit).elim (hadvanced unit) (hadvanced' unit)

/-- Storing bytes moves the cursor on. -/
theorem ships_advance (os : OStream) (buffer : List UInt8) {offset : ℕ}
    (h : os.offset ≤ offset) : Ships os { os with buffer := buffer, offset := offset } := fun hos =>
  ⟨⟨hos.sink, hos.room, fun hlive => (hos.start hlive).trans h⟩, [], (List.append_nil _).symm,
    fun _ hh => absurd hh List.not_mem_nil⟩

/-- The framing is no part of it. -/
theorem ships_reframed (os : OStream) (depth : ℕ) (pending : PendingRun) :
    Ships os { os with depth, pending } := fun hos =>
  ⟨⟨hos.sink, hos.room, hos.start⟩, [], (List.append_nil _).symm,
    fun _ hh => absurd hh List.not_mem_nil⟩

variable {os : OStream} {sink : Sink}

/-! ## Handing over -/

/-- A replacement with room keeps the stream attached. -/
theorem attached_adopting (os : OStream) (sink : Sink) {buffer : List UInt8} {offset : ℕ}
    (hroom : offset < buffer.length) : Attached (adopting os sink buffer offset) :=
  ⟨⟨_, rfl⟩, fun _ => hroom, fun _ => Nat.le_refl _⟩

/-- Whatever the sink does, the active buffer is the next unit. -/
theorem Attached.handOver (h : Attached os) :
    Attached (handOver os).1 ∧ (OStream.handOver os).1.handed = os.handed ++ [unit os] := by
  obtain ⟨sink, hsink⟩ := h.sink
  have hhanded : os.handed = sink.handed := handed_of_flush_some hsink
  rcases hanswer : sink.answer (sink.handed ++ [unit os]) with _ | ⟨buffer, offset⟩
  · rw [handOver_unwound hsink hanswer, hhanded]
    exact ⟨⟨⟨_, rfl⟩, h.room, h.start⟩, rfl⟩
  by_cases hroom : offset < buffer.length
  · rw [handOver_adopted hsink hanswer hroom, hhanded]
    exact ⟨attached_adopting os sink hroom, rfl⟩
  · rw [handOver_refused hsink hanswer hroom, hhanded]
    refine ⟨⟨⟨_, rfl⟩, fun hlive => ?_, fun hlive => ?_⟩, rfl⟩ <;> cases hlive

/-- The cursor of a full buffer has moved. -/
theorem makeRoom_ships : Leads Ships makeRoom := by
  intro os
  rw [makeRoom]
  split
  · next hfull =>
    rw [drainFull, self_bind]
    split
    · exact leads_fail _ os
    · next hlive =>
      rw [self_bind]
      split
      · exact leads_fail _ os
      · intro hos
        obtain ⟨hos', hhanded⟩ := hos.handOver
        refine ⟨hos', [unit os], hhanded, fun h hh => ?_⟩
        rw [List.mem_singleton.mp hh]
        exact (hos.room (Bool.eq_false_of_not_eq_true hlive)).trans_le hfull
  · exact Std.Refl.refl os

/-! ## Writing -/

/-- Bytes put at the cursor move it on. -/
theorem ships_put (os : OStream) (bytes : List UInt8) : Ships os (os.put bytes) :=
  ships_advance os _ (Nat.le_add_right _ _)

/-- Pushing a byte hands over a full buffer at most. -/
theorem pushByte_ships (b : UInt8) : Leads Ships (pushByte b) :=
  makeRoom_ships.bind fun _ => leads_update fun os => ships_put os [b]

/-- A payload that is split hands over the buffers it has filled. -/
theorem pushRawSplit_ships (data : List UInt8) : Leads Ships (pushRawSplit data) := by
  induction hlen : data.length using Nat.strongRecOn generalizing data with
  | _ len ih =>
    subst hlen
    by_cases hnil : data = []
    · intro os
      rw [pushRawSplit, if_pos hnil]
      exact Std.Refl.refl os
    · rw [pushRawSplit_of_ne hnil]
      intro os
      rcases hroom : makeRoom os with ⟨os₁, u | e | _⟩
      · rw [bind_ok hroom, pushRun]
        have hships : Ships os os₁ := by
          have h := makeRoom_ships os
          rwa [hroom] at h
        refine IsTrans.trans _ _ _ hships ?_
        split
        · refine IsTrans.trans _ _ _ (ships_put os₁ _) (ih _ ?_ _ rfl _)
          have hpos : 0 < data.length := List.length_pos_iff.mpr hnil
          have hgap := makeRoom_room hroom
          rw [List.length_drop]
          omega
        · exact Std.Refl.refl os₁
      · rw [bind_err hroom, ← congrArg Prod.fst hroom]
        exact makeRoom_ships os
      · rw [bind_unwound hroom, ← congrArg Prod.fst hroom]
        exact makeRoom_ships os

/-- A payload hands over the buffers it has filled, and none where it fits. -/
theorem pushRaw_ships (data : List UInt8) : Leads Ships (pushRaw data) := by
  intro os
  rw [pushRaw]
  split
  · exact ships_put os data
  · exact pushRawSplit_ships data os

/-- A varint pushed byte by byte hands over the buffers it has filled. -/
theorem writeVarintSplit_ships (value : Unsigned) : Leads Ships (writeVarintSplit value) := by
  induction hv : value.toNat using Nat.strongRecOn generalizing value with
  | _ v ih =>
    subst hv
    rw [writeVarintSplit]
    split
    · next hmore =>
      have hshift := shiftRight_seven value
      have hne : (value >>> 7).toNat ≠ 0 := fun hzero => hmore (UInt64.toNat_inj.mp hzero)
      exact (pushByte_ships _).bind fun _ => ih _ (by omega) _ rfl
    · exact pushByte_ships _

/-- A varint hands over the buffers it has filled, and none where the kernel stores it. -/
theorem writeVarint_ships (value : Unsigned) : Leads Ships (writeVarint value) := by
  intro os
  rw [writeVarint]
  split
  · exact ships_advance os _ (Nat.le_add_right _ _)
  · exact writeVarintSplit_ships value os

/-- The loop over the held-back ids ships like the varints it writes. -/
theorem commitLoop_ships (i left : ℕ) : Leads Ships (commitLoop i left) := by
  induction left generalizing i with
  | zero => exact leads_pure _
  | succ left ih =>
    refine leads_self_bind fun os => ?_
    refine (writeVarint_ships _).attempt.bind fun result => ?_
    rcases result with e | _
    · exact leads_pure _
    · exact ih (i + 1)

/-- Committing the held-back headers ships like that loop. -/
theorem commitHeld_ships : Leads Ships commitHeld := by
  intro os
  rw [commitHeld]
  split
  · exact Std.Refl.refl os
  · refine leads_self_bind (fun os => ?_) os
    refine (commitLoop_ships 0 os.pending.len).bind fun result => ?_
    exact (leads_update fun os => ships_reframed os _ _).bind fun _ => leads_ofExcept _

/-- A header and its value ship like the varints they are. -/
theorem writeHeaderValue_ships (header value : Unsigned) :
    Leads Ships (writeHeaderValue header value) := by
  intro os
  rw [writeHeaderValue]
  split
  · exact ships_advance os _ (by omega)
  · exact ((writeVarintSplit_ships header).bind fun _ => writeVarintSplit_ships value) os

/-- A scalar field ships like its header and value, behind what is committed. -/
theorem writeFieldVarint_ships (id : Id) (wireType : UInt8) (value : Unsigned) :
    Leads Ships (writeFieldVarint id wireType value) := by
  rw [writeFieldVarint]
  split
  · exact leads_fail _
  · exact commitHeld_ships.bind fun _ => writeHeaderValue_ships _ _

/-- A header and its word ship like the varints they are. -/
theorem writeHeaderWord_ships (header word : Unsigned) :
    Leads Ships (writeHeaderWord header word) := by
  intro os
  rw [writeHeaderWord]
  split
  · exact ships_advance os _ (by omega)
  · exact ((writeVarintSplit_ships header).bind fun _ => writeVarintSplit_ships word) os

/-- A header, its word and a payload ship one after the other. -/
theorem writeHeaderWordData_ships (header word : Unsigned) (data : List UInt8) :
    Leads Ships (writeHeaderWordData header word data) := by
  intro os
  rw [writeHeaderWordData]
  split
  · exact ships_advance os _ (by omega)
  · exact ((writeHeaderWord_ships header word).bind fun _ => pushRaw_ships data) os

/-- A fixlen field ships like these, behind what is committed. -/
theorem writeFixlenUnchecked_ships (id : Id) (data : List UInt8) (subtype : FixlenType) :
    Leads Ships (writeFixlenUnchecked id data subtype) := by
  rw [writeFixlenUnchecked]
  split
  · exact leads_fail _
  · split
    · exact leads_fail _
    · exact commitHeld_ships.bind fun _ => writeHeaderWordData_ships _ _ _

/-- The checks of a public fixlen write hand nothing over. -/
theorem writeFixlen_ships (id : Id) (data : List UInt8) (subtype : FixlenType) :
    Leads Ships (writeFixlen id data subtype) := by
  cases subtype <;> rw [writeFixlen]
  case blob => exact writeFixlenUnchecked_ships id data .blob
  all_goals
    split
    · first | exact leads_fail _ | exact writeFixlenUnchecked_ships id data _
    · first | exact leads_fail _ | exact writeFixlenUnchecked_ships id data _

section Runs

variable {α : Type}

/-- A run of varints never moves the cursor back. -/
theorem storeRun_advances (values : List Unsigned) (buffer : List UInt8) (off : ℕ) :
    off ≤ (storeRun buffer off values).2 := by
  induction values generalizing buffer off with
  | nil => exact Nat.le_refl off
  | cons value values ih => exact (Nat.le_add_right _ _).trans (ih _ _)

/-- The chunked path of an integer array ships what it fills. -/
theorem writeVarintRunChunked_ships (toWire : α → Unsigned) (data : List α) :
    Leads Ships (writeVarintRunChunked toWire data) := by
  induction hlen : data.length using Nat.strongRecOn generalizing data with
  | _ len ih =>
    subst hlen
    intro os
    cases data with
    | nil =>
      rw [writeVarintRunChunked]
      exact Std.Refl.refl os
    | cons e rest =>
      rw [writeVarintRunChunked]
      simp only
      split
      · refine ((writeVarintSplit_ships (toWire e)).bind fun _ => ?_) os
        exact ih rest.length (by simp) rest rfl
      · next hroom =>
        generalize hrun : min ((os.end_ - os.offset) / maxVarintLen) (e :: rest).length = run
        have hpos : 0 < run := by
          rw [← hrun]
          exact lt_min (Nat.pos_of_ne_zero hroom) (Nat.succ_pos _)
        have hon := storeRun_advances (((e :: rest).take run).map toWire) os.buffer os.offset
        refine IsTrans.trans _ _ _ (ships_advance os (Prod.fst _) hon) (ih _ ?_ _ rfl _)
        rw [List.length_drop, List.length_cons]
        omega

/-- The fast path of an integer array hands nothing over. -/
theorem writeVarintRun_ships (data : List α) (toWire : α → Unsigned) :
    Leads Ships (writeVarintRun data toWire) := by
  intro os
  rw [writeVarintRun]
  split
  · exact ships_advance os _ (storeRun_advances _ _ _)
  · exact writeVarintRunChunked_ships toWire data os

/-- Float elements ship like the payloads they are, one by one or in bulk. -/
theorem writeFixlenRun_ships (host : Endian) (data : List α) (toLe : α → List UInt8) :
    Leads Ships (writeFixlenRun host data toLe) := by
  cases host with
  | little => exact pushRaw_ships _
  | big =>
    change Leads Ships (pushEach toLe data)
    induction data with
    | nil => exact leads_pure _
    | cons e rest ih => exact (pushRaw_ships _).bind fun _ => ih

end Runs

/-- A field write. -/
theorem Field.write_ships (host : Endian) (f : Field) : Leads Ships (f.write host) := by
  cases f with
  | unsigned id value => exact writeFieldVarint_ships _ _ _
  | signed id value => exact writeFieldVarint_ships _ _ _
  | boolean id value => exact writeFieldVarint_ships _ _ _
  | fp32 id value => exact writeFixlenUnchecked_ships _ _ _
  | fp64 id value => exact writeFixlenUnchecked_ships _ _ _
  | str id text => exact writeFixlenUnchecked_ships _ _ _
  | blob id data => exact writeFixlenUnchecked_ships _ _ _
  | fixlen id data subtype => exact writeFixlen_ships _ _ _
  | arrayUnsigned id data =>
    rw [Field.write, writeArrayUnsigned]
    split
    · exact leads_fail _
    · exact (writeFieldVarint_ships _ _ _).bind fun _ => writeVarintRun_ships _ _
  | arraySigned id data =>
    rw [Field.write, writeArraySigned]
    split
    · exact leads_fail _
    · exact (writeFieldVarint_ships _ _ _).bind fun _ => writeVarintRun_ships _ _
  | arrayFp32 id data =>
    rw [Field.write, writeArrayFp32]
    split
    · exact leads_fail _
    · refine (writeFieldVarint_ships _ _ _).bind fun _ => ?_
      exact (writeVarint_ships _).bind fun _ => writeFixlenRun_ships _ _ _
  | arrayFp64 id data =>
    rw [Field.write, writeArrayFp64]
    split
    · exact leads_fail _
    · refine (writeFieldVarint_ships _ _ _).bind fun _ => ?_
      exact (writeVarint_ships _).bind fun _ => writeFixlenRun_ships _ _ _

/-- A writer call. -/
theorem Call.write_ships (host : Endian) (call : Call) : Leads Ships (call.write host) := by
  have hmarker : Leads Ships (do
      writeSequenceEndMarker
      update fun os => { os with depth := os.depth - 1 }) :=
    (writeVarint_ships _).bind fun _ => leads_update fun os => ships_reframed os _ os.pending
  cases call with
  | field f => exact f.write_ships host
  | sequenceBeginLazy id =>
    refine leads_self_bind fun os => ?_
    split
    · exact leads_fail _
    · split
      · exact leads_fail _
      · exact leads_update fun os => ships_reframed os _ _
  | sequenceEnd =>
    refine leads_self_bind fun os => ?_
    split
    · exact leads_fail _
    · refine leads_self_bind fun os => ?_
      dsimp only
      split
      · exact leads_update fun os => ships_reframed os _ _
      · exact hmarker
  | sequenceEndKeep =>
    refine leads_self_bind fun os => ?_
    split
    · exact leads_fail _
    · exact commitHeld_ships.bind fun _ => hmarker

/-! ## Flushing and replacing the buffer -/

/-- Nothing was written since the active buffer was installed, and it was installed with header
room. -/
def OStream.Bare (os : OStream) : Prop :=
  os.dead = false ∧ 0 < os.offset ∧ os.offset = os.installed.offset

/-- A flush, or the installation of a buffer with room, that finds a bare buffer. -/
def HandsBare (os : OStream) : Op → Prop
  | .call _ => False
  | .flush => os.Bare
  | .bufferSet buffer offset => offset < buffer.length ∧ os.Bare

instance : DecidablePred OStream.Bare := fun _ => inferInstanceAs (Decidable (_ ∧ _ ∧ _))

instance (os : OStream) : DecidablePred (HandsBare os)
  | .call _ => inferInstanceAs (Decidable False)
  | .flush => inferInstanceAs (Decidable os.Bare)
  | .bufferSet _ _ => inferInstanceAs (Decidable (_ ∧ os.Bare))

/-- A step from a stream with a sink, after which a stream with a sink is left that has handed
over more units; in these the cursor had moved just if `P` holds. -/
def Hands (os os' : OStream) (P : Prop) : Prop :=
  Attached os' ∧ ∃ more, os'.handed = os.handed ++ more ∧ ((∀ h ∈ more, h.Advanced) ↔ P)

/-- In all that a step that ships hands over the cursor had moved. -/
theorem Ships.hands {os' : OStream} (h : Ships os os') (hos : Attached os) {P : Prop} (hP : P) :
    Hands os os' P := by
  obtain ⟨hos', more, hmore, hadvanced⟩ := h hos
  exact ⟨hos', more, hmore, iff_of_true hadvanced hP⟩

/-- In the active buffer as a unit the cursor has moved unless it is bare. -/
theorem Attached.advanced_iff (h : Attached os) (hlive : os.dead = false) (hpending : 0 < os.offset) :
    (unit os).Advanced ↔ ¬os.Bare := by
  have hstart := h.start hlive
  change os.installed.offset < os.offset ↔ ¬(os.dead = false ∧ 0 < os.offset ∧ _)
  simp only [hlive, hpending, true_and]
  omega

/-- A handover of the active buffer. -/
theorem Attached.hands_unit {os' : OStream} (h : Attached os) (hlive : os.dead = false)
    (hpending : 0 < os.offset) (hos' : Attached os') (hhanded : os'.handed = os.handed ++ [unit os])
    {P : Prop} (hP : P ↔ os.Bare) : Hands os os' (¬P) := by
  refine ⟨hos', [unit os], hhanded, ?_⟩
  rw [List.forall_mem_singleton, h.advanced_iff hlive hpending, hP]

/-- Nothing is handed over that is not there. -/
theorem Attached.hands_nothing (h : Attached os) {P : Prop} (hP : ¬P) : Hands os os (¬P) :=
  (Std.Refl.refl (r := Ships) os).hands h hP

/-- A flush hands over a bare buffer just if it finds one. -/
theorem Attached.flush_hands (h : Attached os) : Hands os (OStream.flush os).1 (¬os.Bare) := by
  rw [OStream.flush, self_bind]
  split
  · next hdead => exact h.hands_nothing fun hbare => absurd (hbare.1.symm.trans hdead) (by decide)
  · next hlive =>
    rw [Bool.not_eq_true] at hlive
    split
    · next hpending =>
      obtain ⟨hos', hhanded⟩ := h.handOver
      have hunit := h.hands_unit hlive hpending.1 hos' hhanded Iff.rfl
      rcases hrun : OStream.handOver os with ⟨os', u | e | _⟩ <;> rw [hrun] at hunit
      · rwa [bind_ok hrun]
      · rwa [bind_err hrun]
      · rwa [bind_unwound hrun]
    · next hnone =>
      obtain ⟨sink, hsink⟩ := h.sink
      refine h.hands_nothing fun hbare => hnone ⟨hbare.2.1, ?_⟩
      rw [hsink]
      rfl

/-- The installation of a buffer with room hands over a bare one just if it finds one. -/
theorem Attached.bufferSet_hands (h : Attached os) (buffer : List UInt8) (offset : ℕ) :
    Hands os (bufferSet buffer offset os).1 (¬(offset < buffer.length ∧ os.Bare)) := by
  obtain ⟨sink, hsink⟩ := h.sink
  by_cases hdead : os.dead = true
  · rw [bufferSet_dead hdead]
    exact h.hands_nothing fun hbare => absurd (hbare.2.1.symm.trans hdead) (by decide)
  rw [Bool.not_eq_true] at hdead
  by_cases hroom : offset < buffer.length
  · have hP : (offset < buffer.length ∧ os.Bare) ↔ os.Bare := and_iff_right hroom
    have hhanded : os.handed = sink.handed := handed_of_flush_some hsink
    by_cases hpending : 0 < os.offset
    · rcases hanswer : sink.answer (sink.handed ++ [unit os]) with _ | other
      · rw [bufferSet_unwound hdead hsink hroom hpending hanswer]
        have hleft : Attached { os with buffer := [], flush_ := some (handing os sink) } :=
          ⟨⟨_, rfl⟩, h.room, h.start⟩
        refine h.hands_unit hdead hpending hleft ?_ hP
        rw [hhanded]
        rfl
      · rw [bufferSet_ok hdead hsink hroom (fun _ => by rw [hanswer]; rfl), resuming,
          if_pos hpending]
        refine h.hands_unit hdead hpending (attached_adopting os sink hroom) ?_ hP
        rw [hhanded]
        rfl
    · rw [bufferSet_ok hdead hsink hroom (fun hpos => absurd hpos hpending), resuming,
        if_neg hpending]
      refine ⟨⟨⟨sink, hsink⟩, fun _ => hroom, fun _ => Nat.le_refl _⟩, [], ?_, ?_⟩
      · exact (List.append_nil _).symm
      · exact iff_of_true (by simp) fun hbare => hpending hbare.2.2.1
  · rw [bufferSet_refused hdead hsink hroom]
    exact h.hands_nothing fun hbare => hroom hbare.1

/-- One operation. -/
theorem Attached.hands (h : Attached os) (host : Endian) (op : Op) :
    Hands os (op.run host os).1 (¬HandsBare os op) := by
  cases op with
  | call c => exact (c.write_ships host os).hands h not_false
  | flush =>
    have hflush := h.flush_hands
    rw [Op.run]
    rcases hrun : OStream.flush os with ⟨os', n | e | _⟩ <;> rw [hrun] at hflush
    · rwa [bind_ok hrun]
    · rwa [bind_err hrun]
    · rwa [bind_unwound hrun]
  | bufferSet buffer offset => exact h.bufferSet_hands buffer offset

/-! ## Runs -/

/-- All along a run. -/
theorem Attached.advanced_run (h : Attached os) (host : Endian) (ops : List Op) :
    (∀ h ∈ (runAll host ops os).1.handed, h.Advanced) ↔
      (∀ h ∈ os.handed, h.Advanced) ∧
        ∀ i (hi : i < ops.length), ¬HandsBare (stateAt host ops os i) ops[i] := by
  induction ops generalizing os with
  | nil => exact (and_iff_left fun i hi => absurd hi (Nat.not_lt_zero i)).symm
  | cons op ops ih =>
    obtain ⟨hos', more, hmore, hadvanced⟩ := h.hands host op
    have hrun := ih hos'
    rw [hmore, List.forall_mem_append, hadvanced, and_assoc] at hrun
    refine hrun.trans (and_congr_right fun _ => ?_)
    constructor
    · rintro ⟨hfirst, hlater⟩ i hi
      cases i with
      | zero => exact hfirst
      | succ i => exact hlater i (Nat.lt_of_succ_lt_succ hi)
    · intro hall
      exact ⟨hall 0 (Nat.succ_pos _), fun i hi => hall (i + 1) (Nat.succ_lt_succ hi)⟩

/-- A sink that never unwinds returns from every handover of a run. -/
theorem answered_of_returns {buffer : List UInt8} {offset : ℕ} {sink : Sink}
    (hfresh : sink.handed = []) (hopen : withFlush buffer offset sink = .ok os)
    (hreturns : Answer.Returns sink.answer) (host : Endian) (ops : List Op) (i : ℕ) :
    (stateAt host ops os i).Answered := by
  obtain ⟨rfl, -, hwritten⟩ := written_withFlush hfresh hopen
  have hstart : Streaming sink.answer (.ofBuffer buffer offset (some sink)) .new :=
    ⟨rfl, .inl hwritten⟩
  rcases (hstart.stateAt hreturns host ops i).state with hwritten' | hstopped
  · exact hwritten'.sound.answered
  · exact hstopped.sound.answered

/-- Every unit that a sink is handed in a run that it returns from each time has a byte of the
message in it, just if no flush and no installation of a buffer finds the active buffer bare. -/
theorem laden_iff_none_bare {buffer : List UInt8} {offset : ℕ} {sink : Sink}
    (hfresh : sink.handed = []) (hopen : withFlush buffer offset sink = .ok os) (host : Endian)
    (ops : List Op) (hanswered : ∀ i ≤ ops.length, (stateAt host ops os i).Answered) :
    (∀ h ∈ (runAll host ops os).1.handed, h.Laden) ↔
      ∀ i (hi : i < ops.length), ¬HandsBare (stateAt host ops os i) ops[i] := by
  have hopened : Opened os := .withFlush hfresh hopen
  have htracked := hopened.tracked.run (fun _ _ => Broken.not_answered) host ops hanswered
    ops.length (Nat.le_refl _)
  rw [stateAt, List.take_length] at htracked
  have hkept := htracked.sound.handed
  obtain ⟨rfl, hroom, _⟩ := written_withFlush hfresh hopen
  have hattached : Attached (.ofBuffer buffer offset (some sink)) :=
    ⟨⟨sink, rfl⟩, fun _ => hroom, fun _ => Nat.le_refl _⟩
  have hnone : (OStream.ofBuffer buffer offset (some sink)).handed = [] := hfresh
  have hrun := hattached.advanced_run host ops
  rw [hnone, and_iff_right (by simp)] at hrun
  rw [← hrun]
  exact forall₂_congr fun h hh => and_iff_left (hkept h hh).inside

/-- A flush before the first write hands over the header room and nothing else. -/
theorem flush_hands_header_room :
    ∃ os, withFlush [0xAA, 0xAA, 0, 0] 2 .copying = .ok os ∧
      (runAll .little [.flush] os).1.handed = [⟨⟨[0xAA, 0xAA, 0, 0], 2⟩, [0xAA, 0xAA, 0, 0], 2⟩] ∧
      ¬∀ h ∈ (runAll .little [.flush] os).1.handed, h.Advanced := by
  refine ⟨_, rfl, rfl, fun hall => ?_⟩
  exact absurd (hall _ (List.mem_singleton.mpr rfl)) (by decide)

/-- A sink that leaves header room each time, in a run that always writes before it flushes or
installs another buffer. -/
theorem laden_iff_none_bare_rearmed :
    ∃ handed, (runAll .little [.call (.field (.unsigned 0 1)), .flush,
        .call (.field (.unsigned 1 300)), .bufferSet [0, 0, 0] 1,
        .call (.sequenceBeginLazy 2), .call .sequenceEndKeep, .flush]
      (.ofBuffer [0, 0, 0, 0] 2 (some ⟨fun _ => some ([0, 0, 0, 0], 2), []⟩))).1.handed = handed ∧
      handed.length = 4 ∧ ∀ h ∈ handed, h.Laden := by
  let sink : Sink := ⟨fun _ => some ([0, 0, 0, 0], 2), []⟩
  have hanswered := @answered_of_returns _ [0, 0, 0, 0] 2 sink rfl rfl (fun _ _ _ => rfl) .little
  exact ⟨_, rfl, by decide +kernel, (@laden_iff_none_bare _ [0, 0, 0, 0] 2 sink rfl rfl .little _
    fun i _ => hanswered _ i).mpr (by decide +kernel)⟩

end Sofab
