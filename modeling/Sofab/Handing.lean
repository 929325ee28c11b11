import Sofab.Emission

/-!
# Handing over the active buffer

A handover moves the message part of the active buffer to the units handed over and leaves
the message as it is, whether the sink's replacement is adopted or refused. An unwinding
sink leaves a broken stream.
-/

namespace Sofab

open Steps Step OStream

/-- The ways a step that only makes room can end. -/
inductive Drained (os : OStream) : OStream × Exit Error Unit → Prop
  | ok {os' : OStream} (reached : Reached os os' []) (dead : os'.dead = os.dead)
      (room : os'.offset < os'.end_) (same : SameFraming os os') : Drained os (os', .ok ())
  | stopped {os' : OStream} (reached : Reached os os' []) (spent : os'.Spent)
      (same : SameFraming os os') : Drained os (os', .err os'.stopError)
  | unwound {os' : OStream} (broken : Broken os os') : Drained os (os', .unwound)

/-- One more handover has to be answered as well. -/
theorem answered_concat (answer : List Handover → Option (List UInt8 × ℕ))
    (handed : List Handover) (h : Handover) :
    Sink.Answered ⟨answer, handed ++ [h]⟩ ↔
      Sink.Answered ⟨answer, handed⟩ ∧ (answer (handed ++ [h])).isSome = true := by
  have hlast : (handed ++ [h]).take (handed.length + 1) = handed ++ [h] :=
    List.take_of_length_le (by simp)
  have hearlier {n : ℕ} (hn : n < handed.length) :
      (handed ++ [h]).take (n + 1) = handed.take (n + 1) :=
    List.take_append_of_le_length hn
  simp only [Sink.Answered, List.length_append, List.length_singleton]
  constructor
  · intro hall
    refine ⟨fun n hn => ?_, ?_⟩
    · rw [← hearlier hn]
      exact hall n (Nat.lt_succ_of_lt hn)
    · rw [← hlast]
      exact hall handed.length (Nat.lt_succ_self _)
  · rintro ⟨hall, hsome⟩ n hn
    rcases Nat.lt_succ_iff_lt_or_eq.mp hn with hn | rfl
    · rw [hearlier hn]
      exact hall n hn
    · rw [hlast]
      exact hsome

section Draining

variable {os : OStream} {sink : Sink}

/-- The active buffer as it is handed over. -/
def unit (os : OStream) : Handover := ⟨os.installed, os.buffer, os.offset⟩

/-- The sink past a handover of the active buffer. -/
def handing (os : OStream) (sink : Sink) : Sink := ⟨sink.answer, sink.handed ++ [unit os]⟩

/-- The stream past a handover whose replacement is adopted. -/
def adopting (os : OStream) (sink : Sink) (buffer : List UInt8) (offset : ℕ) : OStream :=
  { os with flush_ := some (handing os sink) }.install buffer offset

/-- The stream past a handover whose replacement is refused. -/
def refusing (os : OStream) (sink : Sink) : OStream :=
  { os with
    buffer := []
    end_ := 0
    offset := 0
    flush_ := some (handing os sink)
    dead := true
    installed := ⟨[], 0⟩ }

/-- With a sink what was handed over is what it has seen. -/
theorem handed_of_flush_some (hsink : os.flush_ = some sink) : os.handed = sink.handed := by
  rw [handed, hsink]
  rfl

/-- The ways a handover goes by the answer of the sink. -/
theorem handOver_adopted (hsink : os.flush_ = some sink) {buffer : List UInt8} {offset : ℕ}
    (hanswer : sink.answer (sink.handed ++ [unit os]) = some (buffer, offset))
    (hroom : offset < buffer.length) :
    handOver os = (adopting os sink buffer offset, .ok ()) := by
  rw [unit] at hanswer
  rw [handOver]
  simp only [hsink, Sink.flushTake, hanswer, checkStreamingCapacity_of_lt hroom]
  rfl

/-- An answer without room past its offset is refused. -/
theorem handOver_refused (hsink : os.flush_ = some sink) {buffer : List UInt8} {offset : ℕ}
    (hanswer : sink.answer (sink.handed ++ [unit os]) = some (buffer, offset))
    (hroom : ¬offset < buffer.length) :
    handOver os = (refusing os sink, .err .argument) := by
  rw [unit] at hanswer
  rw [handOver]
  simp only [hsink, Sink.flushTake, hanswer, checkStreamingCapacity_of_not_lt hroom]
  rfl

/-- An unwinding sink leaves the stream with the empty buffer and the old bounds. -/
theorem handOver_unwound (hsink : os.flush_ = some sink)
    (hanswer : sink.answer (sink.handed ++ [unit os]) = none) :
    handOver os = ({ os with buffer := [], flush_ := some (handing os sink) }, .unwound) := by
  rw [unit] at hanswer
  rw [handOver]
  simp only [hsink, Sink.flushTake, hanswer]
  rfl

/-- The units handed over stay as they were, and the new one is the active buffer. -/
theorem Sound.handing_kept (hsound : Sound os) (hsink : os.flush_ = some sink) :
    ∀ h ∈ (handing os sink).handed, Kept h.installed h.buffer h.used := by
  intro h hh
  rcases List.mem_append.mp hh with hh | hh
  · exact hsound.handed h (handed_of_flush_some hsink ▸ hh)
  · rw [List.mem_singleton.mp hh]
    exact hsound.kept

/-- The handed-over units with the active buffer among them make up the message. -/
theorem handing_message (hsink : os.flush_ = some sink) :
    (handing os sink).handed.flatMap Handover.message = os.message := by
  rw [OStream.message, handed_of_flush_some hsink, handing, List.flatMap_append,
    List.flatMap_singleton]
  rfl

/-- The bytes of a buffer that is handed over stay in the message. -/
theorem message_adopting (hsink : os.flush_ = some sink) (buffer : List UInt8) (offset : ℕ) :
    (adopting os sink buffer offset).message = os.message := by
  change (handing os sink).handed.flatMap Handover.message ++ (buffer.take offset).drop offset = _
  rw [handing_message hsink, List.drop_eq_nil_of_le (by simp), List.append_nil]

/-- A handover that is answered leaves all of them answered. -/
theorem Sound.handing_answered (hsound : Sound os) (hsink : os.flush_ = some sink)
    (hsome : (sink.answer (sink.handed ++ [unit os])).isSome = true) :
    (handing os sink).Answered :=
  (answered_concat sink.answer sink.handed (unit os)).mpr ⟨hsound.answered sink hsink, hsome⟩

/-- What holds of all installations holds of those in the units with the active buffer among
them. -/
theorem installs_handing (hlive : os.dead = false) (hsink : os.flush_ = some sink)
    {P : Installation → Prop} (h : os.Installs P) : ∀ h ∈ (handing os sink).handed, P h.installed := by
  intro unit hunit
  rcases List.mem_append.mp hunit with hunit | hunit
  · exact h.2 unit (handed_of_flush_some hsink ▸ hunit)
  · rw [List.mem_singleton.mp hunit]
    exact h.active hlive

section Sounding

variable (hsound : Sound os) (hlive : os.dead = false) (hsink : os.flush_ = some sink)

include hsound hlive hsink

/-- A live stream with a sink has room in its buffer. -/
theorem Sound.end_pos : 0 < os.end_ :=
  Nat.zero_lt_of_lt (hsound.capacity hlive (Option.isSome_iff_exists.mpr ⟨sink, hsink⟩))

/-- A live stream with a sink hands over no empty buffer. -/
theorem Sound.unit_ne : (unit os).buffer ≠ [] := by
  intro hnil
  have hpos := hsound.end_pos hlive hsink
  have hlen := hsound.end_eq.trans (congrArg List.length hnil)
  exact hpos.ne' hlen

/-- Any buffer with room may follow a handover that was answered. -/
theorem sound_adopting {buffer : List UInt8} {offset : ℕ}
    (hsome : (sink.answer (sink.handed ++ [unit os])).isSome = true)
    (hroom : offset < buffer.length) : Sound (adopting os sink buffer offset) where
  end_eq := rfl
  kept := ⟨rfl, Nat.le_refl _, hroom.le, rfl⟩
  handed := hsound.handing_kept hsink
  capacity _ _ := hroom
  dead hdead := absurd (hlive.symm.trans hdead) Bool.false_ne_true
  answered := by
    rintro _ ⟨⟩
    exact hsound.handing_answered hsink hsome

/-- An adopted replacement takes the message on by nothing. -/
theorem reached_adopting {buffer : List UInt8} {offset : ℕ}
    (hanswer : sink.answer (sink.handed ++ [unit os]) = some (buffer, offset))
    (hroom : offset < buffer.length) : Reached os (adopting os sink buffer offset) [] where
  sound := sound_adopting hsound hlive hsink (by rw [hanswer]; rfl) hroom
  message := by rw [message_adopting hsink, List.append_nil]
  answer := by
    rw [hsink]
    rfl
  sinkless hnone := by cases hsink.symm.trans hnone
  dead hdead := absurd (hlive.symm.trans hdead) Bool.false_ne_true
  adopted := by
    refine ⟨[unit os], by rw [handed_of_flush_some hsink]; rfl, ?_⟩
    intro _ sink' hsink' n hn
    cases hsink.symm.trans hsink'
    obtain rfl : n = 0 := Nat.lt_one_iff.mp hn
    rw [handed_of_flush_some hsink]
    exact ⟨buffer, offset, hanswer, hroom⟩
  installs P hanswers hinstalls :=
    ⟨.inr (hanswers sink hsink _ _ _ hanswer), installs_handing hlive hsink hinstalls⟩

/-- A refused replacement takes the message on by nothing. -/
theorem reached_refusing {buffer : List UInt8} {offset : ℕ}
    (hanswer : sink.answer (sink.handed ++ [unit os]) = some (buffer, offset))
    (hroom : ¬offset < buffer.length) : Reached os (refusing os sink) [] where
  sound :=
    { end_eq := rfl
      kept := ⟨rfl, Nat.le_refl _, Nat.le_refl _, rfl⟩
      handed := hsound.handing_kept hsink
      capacity := fun hlive' => by cases hlive'
      dead := fun _ => ⟨rfl, _, rfl, sink.handed, unit os, rfl, hsound.unit_ne hlive hsink, buffer,
        offset, hanswer, Nat.le_of_not_lt hroom⟩
      answered := by
        rintro _ ⟨⟩
        exact hsound.handing_answered hsink (by rw [hanswer]; rfl) }
  message := by
    change (handing os sink).handed.flatMap Handover.message ++ [] = _
    rw [handing_message hsink]
  answer := by
    rw [hsink]
    rfl
  sinkless hnone := by cases hsink.symm.trans hnone
  dead hdead := absurd (hlive.symm.trans hdead) Bool.false_ne_true
  adopted := ⟨[unit os], by rw [handed_of_flush_some hsink]; rfl, fun hlive' => by cases hlive'⟩
  installs P _ hinstalls := ⟨.inl rfl, installs_handing hlive hsink hinstalls⟩

/-- A sink that unwinds leaves a broken stream. -/
theorem broken_unwinding (hanswer : sink.answer (sink.handed ++ [unit os]) = none) :
    Broken os { os with buffer := [], flush_ := some (handing os sink) } where
  buffer := rfl
  end_pos := hsound.end_pos hlive hsink
  answer := by
    rw [hsink]
    rfl
  unanswered := ⟨_, rfl, sink.handed, unit os, rfl, hsound.unit_ne hlive hsink, hanswer⟩

/-- A handover keeps the message. -/
theorem handOver_drained : Drained os (handOver os) := by
  rcases hanswer : sink.answer (sink.handed ++ [unit os]) with _ | ⟨buffer, offset⟩
  · rw [handOver_unwound hsink hanswer]
    exact .unwound (broken_unwinding hsound hlive hsink hanswer)
  · by_cases hroom : offset < buffer.length
    · rw [handOver_adopted hsink hanswer hroom]
      exact .ok (reached_adopting hsound hlive hsink hanswer hroom) rfl hroom ⟨rfl, rfl⟩
    · rw [handOver_refused hsink hanswer hroom]
      exact .stopped (reached_refusing hsound hlive hsink hanswer hroom) (.inl rfl) ⟨rfl, rfl⟩

end Sounding

/-- A dead stream has a sink. -/
theorem Sound.isSome_of_dead (hsound : Sound os) (hdead : os.dead = true) :
    os.flush_.isSome = true := by
  obtain ⟨_, sink, hsink, _⟩ := hsound.dead hdead
  exact Option.isSome_iff_exists.mpr ⟨sink, hsink⟩

/-- With a sink a write that stops reports `Argument`. -/
theorem stopError_of_some (hsome : os.flush_.isSome = true) : os.stopError = .argument := by
  rw [stopError, ← Option.not_isSome, hsome]
  rfl

/-- Without a sink a write that stops reports `BufferFull`. -/
theorem stopError_of_none (hnone : os.flush_ = none) : os.stopError = .bufferFull := by
  rw [stopError, hnone]
  rfl

/-- Making room keeps the message. -/
theorem makeRoom_drained (hsound : Sound os) : Drained os (makeRoom os) := by
  rw [makeRoom]
  split
  · next hfull =>
    rw [drainFull, self_bind]
    by_cases hdead : os.dead = true
    · rw [if_pos hdead]
      have hstop : os.stopError = .argument := stopError_of_some (hsound.isSome_of_dead hdead)
      have hstopped : Drained os (os, .err os.stopError) :=
        .stopped (.refl hsound) (.inl hdead) (.refl os)
      rwa [hstop] at hstopped
    · rw [if_neg hdead, self_bind]
      rcases hsink : os.flush_ with _ | sink
      · have hstopped : Drained os (os, .err os.stopError) :=
          .stopped (.refl hsound) (.inr ⟨hsink, Nat.le_antisymm hsound.offset_le hfull⟩) (.refl os)
        rwa [stopError_of_none hsink] at hstopped
      · exact handOver_drained hsound (Bool.eq_false_of_not_eq_true hdead) hsink
  · next hroom => exact .ok (.refl hsound) rfl (Nat.lt_of_not_le hroom) (.refl os)

end Draining

end Sofab
