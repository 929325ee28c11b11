import Sofab.Operations

/-!
# The bookkeeping of the active buffer

Stores trust the cursor and the end of the buffer. Both stay within the active buffer for as
long as the sink returns from its handovers: one that unwinds leaves no buffer behind, and an
end that is still the end of the buffer it was handed.
-/

namespace Sofab

open Steps Step OStream

/-- The cursor is within the end of the buffer, and that within the buffer. -/
def InBounds (os : OStream) : Prop := os.offset ≤ os.end_ ∧ os.end_ ≤ os.buffer.length

instance : DecidablePred InBounds := fun _ => inferInstanceAs (Decidable (_ ∧ _))

/-- The sink has returned from every handover. -/
def OStream.Answered (os : OStream) : Prop := ∀ sink, os.flush_ = some sink → sink.Answered

/-- A stream as a caller gets it, with a sink that nothing was handed to yet. -/
inductive Opened : OStream → Prop
  | new (buffer : List UInt8) : Opened (.new buffer)
  | withOffset {buffer : List UInt8} {offset : ℕ} {os : OStream}
      (hopen : withOffset buffer offset = .ok os) : Opened os
  | withFlush {buffer : List UInt8} {offset : ℕ} {sink : Sink} {os : OStream}
      (hfresh : sink.handed = []) (hopen : withFlush buffer offset sink = .ok os) : Opened os

/-- A stream whose bookkeeping can be trusted. -/
structure Tracked (os : OStream) : Prop where
  sound : Sound os
  framed : SomeFraming os

variable {os os' : OStream}

/-- A sound stream is within its bounds. -/
theorem Sound.inBounds (h : Sound os) : InBounds os := ⟨h.offset_le, h.end_eq.le⟩

/-- A stream whose sink unwound is out of bounds. -/
theorem Broken.not_inBounds (h : Broken os os') : ¬InBounds os' := by
  rintro ⟨_, hend⟩
  rw [h.buffer] at hend
  exact Nat.not_lt.mpr hend h.end_pos

/-- A stream that its sink unwound from has a handover without an answer. -/
theorem Broken.not_answered (h : Broken os os') : ¬os'.Answered := by
  intro hanswered
  obtain ⟨sink, hsink, handed, unit, hhanded, _, hnone⟩ := h.unanswered
  have hlast := hanswered sink hsink handed.length (by rw [hhanded]; simp)
  rw [List.take_of_length_le (by rw [hhanded]; simp), hnone] at hlast
  cases hlast

/-- Only a sink can leave a stream dead. -/
theorem Sound.live_of_none (h : Sound os) (hnone : os.flush_ = none) : os.dead = false := by
  refine Bool.eq_false_of_not_eq_true fun hdead => ?_
  have hsome := h.isSome_of_dead hdead
  rw [hnone] at hsome
  cases hsome

/-- Without a sink any buffer may take the place of the active one. -/
theorem sound_install (h : Sound os) (hnone : os.flush_ = none) {buffer : List UInt8} {offset : ℕ}
    (hoffset : offset ≤ buffer.length) : Sound (os.install buffer offset) where
  end_eq := rfl
  kept := ⟨rfl, Nat.le_refl _, hoffset, rfl⟩
  handed := h.handed
  capacity _ hsome := by
    change os.flush_.isSome = true at hsome
    rw [hnone] at hsome
    cases hsome
  dead hdead := absurd ((h.live_of_none hnone).symm.trans hdead) Bool.false_ne_true
  answered := h.answered

/-- Without a sink a buffer is installed if it has a position to start at. -/
theorem bufferSet_sinkless (hsound : Sound os) (hnone : os.flush_ = none) (buffer : List UInt8)
    (offset : ℕ) :
    bufferSet buffer offset os =
      if offset ≤ buffer.length then (os.install buffer offset, .ok ())
      else (os, .err .argument) := by
  rw [bufferSet, self_bind, hsound.live_of_none hnone, if_neg Bool.false_ne_true, checkOffsetInRange]
  split
  · rw [ofExcept_bind_ok, self_bind, hnone]
    rfl
  · rw [ofExcept_bind_error]

/-- An operation on the buffers leaves the framing alone, or its sink unwinds. -/
theorem buffers_step (hsound : Sound os) (host : Endian) {op : Op} (hop : ∀ c, op ≠ .call c) :
    Sound (op.run host os).1 ∧ SameFraming os (op.run host os).1 ∨ Broken os (op.run host os).1 := by
  have hkept : Sound os ∧ SameFraming os os := ⟨hsound, .refl os⟩
  cases op with
  | call c => exact absurd rfl (hop c)
  | flush =>
    have hflushed := flush_flushed hsound
    rw [Op.run]
    generalize hflush : OStream.flush os = result at hflushed
    cases hflushed with
    | ok reached live same drained =>
      rw [bind_ok hflush]
      exact .inl ⟨reached.sound, same⟩
    | refused reached dead same =>
      rw [bind_err hflush]
      exact .inl ⟨reached.sound, same⟩
    | unwound broken =>
      rw [bind_unwound hflush]
      exact .inr broken
  | bufferSet buffer offset =>
    rw [Op.run]
    by_cases hdead : os.dead = true
    · rw [bufferSet_dead hdead]
      exact .inl hkept
    have hlive := Bool.eq_false_of_not_eq_true hdead
    rcases hsink : os.flush_ with _ | sink
    · rw [bufferSet_sinkless hsound hsink]
      split
      · next hoffset => exact .inl ⟨sound_install hsound hsink hoffset, rfl, rfl⟩
      · exact .inl hkept
    · have hresumed := @bufferSet_resumed os sink hlive hsink buffer offset hsound
      generalize bufferSet buffer offset os = result at hresumed
      cases hresumed with
      | refused hroom => exact .inl hkept
      | resumed hroom answered =>
        exact .inl ⟨sound_resuming hlive hsink hsound hroom answered, resuming_framing ..⟩
      | unwound broken => exact .inr broken

/-- Every operation keeps the bookkeeping, or its sink unwinds. -/
theorem Tracked.step (h : Tracked os) (host : Endian) (op : Op) :
    Tracked (op.run host os).1 ∨ Broken os (op.run host os).1 := by
  obtain ⟨hsound, φ, hframed⟩ := h
  have hbuffers (hop : ∀ c, op ≠ .call c) :
      Tracked (op.run host os).1 ∨ Broken os (op.run host os).1 :=
    (buffers_step hsound host hop).imp_left fun ⟨hsound', same⟩ => ⟨hsound', φ, same.framed hframed⟩
  cases op with
  | call c =>
    have hwrote := c.write_wrote host hsound hframed
    rw [Op.run]
    generalize c.write host os = result at hwrote
    cases hwrote with
    | emitted emit emits =>
      cases emits with
      | ok reached dead framed => exact .inl ⟨reached.sound, _, framed⟩
      | stopped k reached short spent framed => exact .inl ⟨reached.sound, framed⟩
      | unwound broken => exact .inr broken
    | refused emit => exact .inl ⟨hsound, φ, hframed⟩
  | flush => exact hbuffers (by simp)
  | bufferSet buffer offset => exact hbuffers (by simp)

/-- What no broken stream has, had in every state of a run, tracks the run. -/
theorem Tracked.run {P : OStream → Prop} (hP : ∀ os os', Broken os os' → ¬P os') (host : Endian)
    (h : Tracked os) (ops : List Op) (hall : ∀ i ≤ ops.length, P (stateAt host ops os i)) :
    ∀ i ≤ ops.length, Tracked (stateAt host ops os i) := by
  refine drive_take_induction (Op.run host) (I := fun _ => Tracked) h fun i hi hbefore => ?_
  have hafter := hall (i + 1) hi
  rw [stateAt_succ host os hi] at hafter
  exact (hbefore.step host ops[i]).resolve_right fun broken => hP _ _ broken hafter

/-- An opened stream has written nothing. -/
theorem Opened.written (h : Opened os) : Written os .new := by
  cases h with
  | new buffer => exact written_over (sound_over (Nat.zero_le _) (by simp) (by simp)) (by simp)
  | withOffset hopen =>
    obtain ⟨hoffset, rfl⟩ := withOffset_eq hopen
    exact written_over (sound_over hoffset (by simp) (by simp)) (by simp)
  | withFlush hfresh hopen =>
    obtain ⟨_, _, hwritten⟩ := written_withFlush hfresh hopen
    exact hwritten

/-- A stream as it is opened is tracked. -/
theorem Opened.tracked (h : Opened os) : Tracked os := ⟨h.written.sound, _, h.written.framed⟩

/-- A stream that a run reaches in which the sink returned from every handover. -/
def Reachable (host : Endian) (os : OStream) : Prop :=
  ∃ start ops, Opened start ∧ (∀ i ≤ ops.length, (stateAt host ops start i).Answered) ∧
    os = stateAt host ops start ops.length

/-- A stream reached without an unwinding is tracked. -/
theorem Reachable.tracked {host : Endian} (h : Reachable host os) : Tracked os := by
  obtain ⟨start, ops, hopen, hanswered, rfl⟩ := h
  exact hopen.tracked.run (fun _ _ => Broken.not_answered) host ops hanswered ops.length
    (Nat.le_refl _)

/-- Through a run of operations the cursor and the end stay within the active buffer exactly as
long as the sink returns from every handover. -/
theorem inBounds_iff_answered (host : Endian) (hopen : Opened os) (ops : List Op) :
    (∀ i ≤ ops.length, InBounds (stateAt host ops os i)) ↔
      ∀ i ≤ ops.length, (stateAt host ops os i).Answered := by
  constructor
  · intro hall i hi
    have htracked := hopen.tracked.run (fun _ _ => Broken.not_inBounds) host ops hall i hi
    exact htracked.sound.answered
  · intro hall i hi
    have htracked := hopen.tracked.run (fun _ _ => Broken.not_answered) host ops hall i hi
    exact htracked.sound.inBounds

/-- A sink that unwinds at a flush has not returned from every handover. -/
theorem inBounds_iff_answered_unwinding :
    ¬∀ i ≤ 2, (stateAt .little [.call (.field (.unsigned 0 1)), .flush]
      (.ofBuffer [0, 0, 0, 0] 0 (some ⟨fun _ => none, []⟩)) i).Answered := by
  intro hall
  have hbounds := (@inBounds_iff_answered _ .little
    (@Opened.withFlush [0, 0, 0, 0] 0 ⟨fun _ => none, []⟩ _ rfl rfl)
    [.call (.field (.unsigned 0 1)), .flush]).mpr hall 2 (Nat.le_refl 2)
  revert hbounds
  decide +kernel

/-- A flush whose sink unwinds leaves an end behind that is not within the buffer. -/
theorem unwinding_flush_out_of_bounds :
    ∃ os, withFlush [0, 0, 0, 0] 0 ⟨fun _ => none, []⟩ = .ok os ∧
      ¬∀ i ≤ 2, InBounds (stateAt .little [.call (.field (.unsigned 0 1)), .flush] os i) := by
  refine ⟨_, rfl, fun hall => ?_⟩
  have hlast := hall 2 (Nat.le_refl 2)
  revert hlast
  decide +kernel

end Sofab
