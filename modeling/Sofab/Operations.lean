import Sofab.Runs

/-!
# Flushing and replacing the buffer

The two operations on buffers leave the message as it is. A flush hands over what is in the
active buffer. Another buffer takes the place of the active one whether the sink's own
replacement at that handover is one to go on in or not.
-/

namespace Sofab

open Steps Step OStream

/-- The stream in which the `i`th operation of a run is made. -/
def stateAt (host : Endian) (ops : List Op) (os : OStream) (i : ℕ) : OStream :=
  (runAll host (ops.take i) os).1

/-- The next operation is made in the stream that the one before it leaves. -/
theorem stateAt_succ (host : Endian) {ops : List Op} (os : OStream) {i : ℕ} (hi : i < ops.length) :
    stateAt host ops os (i + 1) = (ops[i].run host (stateAt host ops os i)).1 :=
  drive_take_succ (Op.run host) ops os hi

/-- The report at an index is that of the operation there, in its stream. -/
theorem report_eq (host : Endian) {ops : List Op} (os : OStream) {i : ℕ} (hi : i < ops.length) :
    (runAll host ops os).2[i]? = some (ops[i].run host (stateAt host ops os i)).2 :=
  drive_report (Op.run host) ops os hi

variable {os os' : OStream} {sink : Sink}

/-- The ways a flush can end. -/
inductive Flushed (os : OStream) : OStream × Exit Error ℕ → Prop
  | ok {os' : OStream} (reached : Reached os os' []) (live : os'.dead = false)
      (same : SameFraming os os') (drained : os'.flush_.isSome = true → os'.active = []) :
      Flushed os (os', .ok os.offset)
  | refused {os' : OStream} (reached : Reached os os' []) (dead : os'.dead = true)
      (same : SameFraming os os') : Flushed os (os', .err .argument)
  | unwound {os' : OStream} (broken : Broken os os') : Flushed os (os', .unwound)

/-- A flush keeps the message and leaves none of it in the buffer of a sink. -/
theorem flush_flushed (hsound : Sound os) : Flushed os (OStream.flush os) := by
  rw [OStream.flush, self_bind]
  by_cases hdead : os.dead = true
  · rw [if_pos hdead]
    exact .refused (.refl hsound) hdead (.refl os)
  have hlive := Bool.eq_false_of_not_eq_true hdead
  rw [if_neg hdead]
  by_cases hpending : 0 < os.offset ∧ os.flush_.isSome = true
  · rw [if_pos hpending]
    obtain ⟨sink, hsink⟩ := Option.isSome_iff_exists.mp hpending.2
    rcases hanswer : sink.answer (sink.handed ++ [unit os]) with _ | ⟨buffer, offset⟩
    · rw [bind_unwound (handOver_unwound hsink hanswer)]
      exact .unwound (broken_unwinding hsound hlive hsink hanswer)
    by_cases hroom : offset < buffer.length
    · rw [bind_ok (handOver_adopted hsink hanswer hroom)]
      exact .ok (reached_adopting hsound hlive hsink hanswer hroom) hlive ⟨rfl, rfl⟩
        fun _ => List.drop_eq_nil_of_le (by simp [adopting, install])
    · rw [bind_err (handOver_refused hsink hanswer hroom)]
      exact .refused (reached_refusing hsound hlive hsink hanswer hroom) rfl ⟨rfl, rfl⟩
  · rw [if_neg hpending]
    refine .ok (.refl hsound) hlive (.refl os) fun hsome => ?_
    have hzero : os.offset = 0 := Nat.eq_zero_of_not_pos fun hpos => hpending ⟨hpos, hsome⟩
    rw [active, hzero, List.take_zero, List.drop_nil]

/-! ## Another buffer -/

/-- The stream with another buffer in the place of the active one, which is handed over if
anything is in it. -/
def resuming (os : OStream) (sink : Sink) (buffer : List UInt8) (offset : ℕ) : OStream :=
  if 0 < os.offset then adopting os sink buffer offset else os.install buffer offset

/-- The ways another buffer can be installed in a stream with a sink. -/
inductive Resumed (os : OStream) (sink : Sink) (buffer : List UInt8) (offset : ℕ) :
    OStream × Exit Error Unit → Prop
  | refused (hroom : ¬offset < buffer.length) :
      Resumed os sink buffer offset (os, .err .argument)
  | resumed (hroom : offset < buffer.length)
      (answered : 0 < os.offset → (sink.answer (sink.handed ++ [unit os])).isSome = true) :
      Resumed os sink buffer offset (resuming os sink buffer offset, .ok ())
  | unwound {os' : OStream} (broken : Broken os os') :
      Resumed os sink buffer offset (os', .unwound)

section Resuming

variable (hlive : os.dead = false) (hsink : os.flush_ = some sink) {buffer : List UInt8}
  {offset : ℕ}

include hlive hsink

/-- A handover on the way to another buffer takes the place of what the sink answers. -/
theorem drainForSet_ok (hpending : 0 < os.offset)
    (hsome : (sink.answer (sink.handed ++ [unit os])).isSome = true) :
    ∃ os₁, drainForSet os = (os₁, .ok ()) ∧
      os₁.install buffer offset = adopting os sink buffer offset := by
  obtain ⟨⟨other, start⟩, hanswer⟩ := Option.isSome_iff_exists.mp hsome
  rw [drainForSet, self_bind, if_pos hpending]
  by_cases hroom : start < other.length
  · rw [bind_ok (attempt_ok (handOver_adopted hsink hanswer hroom))]
    refine ⟨_, rfl, ?_⟩
    rw [adopting, adopting, install, install, install, hlive]
  · rw [bind_ok (attempt_err (handOver_refused hsink hanswer hroom))]
    refine ⟨_, rfl, ?_⟩
    rw [refusing, adopting, install, install, hlive]

/-- A stream with a sink drains before it installs a buffer with room. -/
theorem bufferSet_drains (hroom : offset < buffer.length) :
    bufferSet buffer offset os =
      (drainForSet >>= fun _ => update fun os => os.install buffer offset) os := by
  have hsome : os.flush_.isSome = true := by rw [hsink]; rfl
  rw [bufferSet, self_bind, if_neg (by rw [hlive]; exact Bool.false_ne_true), checkOffsetInRange,
    if_pos hroom.le, ofExcept_bind_ok, self_bind, if_pos hsome, checkStreamingCapacity_of_lt hroom,
    ofExcept_bind_ok]

/-- Whatever a sink answers, a buffer with room takes the place of the active one. -/
theorem bufferSet_ok (hroom : offset < buffer.length)
    (hanswered : 0 < os.offset → (sink.answer (sink.handed ++ [unit os])).isSome = true) :
    bufferSet buffer offset os = (resuming os sink buffer offset, .ok ()) := by
  rw [bufferSet_drains hlive hsink hroom, resuming]
  by_cases hpending : 0 < os.offset
  · obtain ⟨os₁, hdrain, hinstall⟩ := @drainForSet_ok os sink hlive hsink buffer offset hpending
      (hanswered hpending)
    rw [bind_ok hdrain, if_pos hpending, ← hinstall]
    rfl
  · have hdrain : drainForSet os = (os, .ok ()) := by
      rw [drainForSet, self_bind, if_neg hpending]
      rfl
    rw [bind_ok hdrain, if_neg hpending]
    rfl

/-- A stream with a sink refuses a buffer without room before it drains anything. -/
theorem bufferSet_refused (hroom : ¬offset < buffer.length) :
    bufferSet buffer offset os = (os, .err .argument) := by
  have hsome : os.flush_.isSome = true := by rw [hsink]; rfl
  rw [bufferSet, self_bind, if_neg (by rw [hlive]; exact Bool.false_ne_true), checkOffsetInRange]
  by_cases hinside : offset ≤ buffer.length
  · rw [if_pos hinside, ofExcept_bind_ok, self_bind, if_pos hsome,
      checkStreamingCapacity_of_not_lt hroom, ofExcept_bind_error]
  · rw [if_neg hinside, ofExcept_bind_error]

/-- A sink that unwinds is all that keeps a buffer with room from being installed. -/
theorem bufferSet_unwound (hroom : offset < buffer.length) (hpending : 0 < os.offset)
    (hanswer : sink.answer (sink.handed ++ [unit os]) = none) :
    bufferSet buffer offset os =
      ({ os with buffer := [], flush_ := some (handing os sink) }, .unwound) := by
  have hdrain : drainForSet os =
      ({ os with buffer := [], flush_ := some (handing os sink) }, .unwound) := by
    rw [drainForSet, self_bind, if_pos hpending,
      bind_unwound (attempt_unwound (handOver_unwound hsink hanswer))]
  rw [bufferSet_drains hlive hsink hroom, bind_unwound hdrain]

/-- Installing another buffer goes one of the ways it can. -/
theorem bufferSet_resumed (hsound : Sound os) :
    Resumed os sink buffer offset (bufferSet buffer offset os) := by
  by_cases hroom : offset < buffer.length
  · by_cases hanswered : 0 < os.offset → (sink.answer (sink.handed ++ [unit os])).isSome = true
    · rw [bufferSet_ok hlive hsink hroom hanswered]
      exact .resumed hroom hanswered
    · obtain ⟨hpending, hnone⟩ := Classical.not_imp.mp hanswered
      have hanswer := Option.not_isSome_iff_eq_none.mp hnone
      rw [bufferSet_unwound hlive hsink hroom hpending hanswer]
      exact .unwound (broken_unwinding hsound hlive hsink hanswer)
  · rw [bufferSet_refused hlive hsink hroom]
    exact .refused hroom

/-- The installed buffer is a sound one. -/
theorem sound_resuming (hsound : Sound os) (hroom : offset < buffer.length)
    (hanswered : 0 < os.offset → (sink.answer (sink.handed ++ [unit os])).isSome = true) :
    Sound (resuming os sink buffer offset) := by
  rw [resuming]
  split
  · next hpending => exact sound_adopting hsound hlive hsink (hanswered hpending) hroom
  · exact
      { end_eq := rfl
        kept := ⟨rfl, Nat.le_refl _, hroom.le, rfl⟩
        handed := hsound.handed
        capacity := fun _ _ => hroom
        dead := fun hdead => absurd (hlive.symm.trans hdead) Bool.false_ne_true
        answered := hsound.answered }

end Resuming

/-- Another buffer takes over between the bytes of the message. -/
theorem message_resuming (hsink : os.flush_ = some sink) (buffer : List UInt8) (offset : ℕ) :
    (resuming os sink buffer offset).message = os.message := by
  rw [resuming]
  split
  · exact message_adopting hsink buffer offset
  · next hpending =>
    have hzero : os.offset = 0 := Nat.eq_zero_of_not_pos hpending
    have hactive : (os.install buffer offset).active = os.active := by
      rw [active, active, hzero, List.take_zero, List.drop_nil]
      exact List.drop_eq_nil_of_le (by simp [install])
    rw [OStream.message, OStream.message, hactive]
    rfl

/-- What is not the buffer stays as it is when another one is installed. -/
theorem resuming_framing (os : OStream) (sink : Sink) (buffer : List UInt8) (offset : ℕ) :
    SameFraming os (resuming os sink buffer offset) := by
  rw [resuming]
  split <;> exact ⟨rfl, rfl⟩

/-- Another buffer does not bring a stream back to life. -/
theorem resuming_dead (os : OStream) (sink : Sink) (buffer : List UInt8) (offset : ℕ) :
    (resuming os sink buffer offset).dead = os.dead := by
  rw [resuming]
  split <;> rfl

/-- Another buffer is what is installed. -/
theorem resuming_installed (os : OStream) (sink : Sink) (buffer : List UInt8) (offset : ℕ) :
    (resuming os sink buffer offset).installed = ⟨buffer, offset⟩ := by
  rw [resuming]
  split <;> rfl

/-- Another buffer leaves the sink's answers as they are. -/
theorem resuming_answer (hsink : os.flush_ = some sink) (buffer : List UInt8) (offset : ℕ) :
    (resuming os sink buffer offset).flush_.map Sink.answer = os.flush_.map Sink.answer := by
  rw [resuming, hsink]
  split
  · rfl
  · exact congrArg _ hsink

/-- A dead stream refuses another buffer. -/
theorem bufferSet_dead (hdead : os.dead = true) (buffer : List UInt8) (offset : ℕ) :
    bufferSet buffer offset os = (os, .err .argument) := by
  rw [bufferSet, self_bind, if_pos hdead]
  rfl

end Sofab
