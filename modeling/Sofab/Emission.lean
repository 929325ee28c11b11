import Sofab.OStream

/-!
# What a writer emits

The message of a stream is the message part of every unit handed over, in order, and then of
the active buffer. `Reached` says that a stream was taken on by some bytes of the message,
and `Emits` that a step either emits all of its bytes, or stops short of them because no byte
can be written any more, or unwinds. Emission composes along the bytes, so that the layers
above never see a buffer.
-/

namespace Sofab

open Steps Step OStream

/-- What stays of a buffer since it was installed: its size and the bytes below the start
offset. -/
structure Kept (installed : Installation) (buffer : List UInt8) (used : ℕ) : Prop where
  size : buffer.length = installed.buffer.length
  start : installed.offset ≤ used
  inside : used ≤ buffer.length
  below : buffer.take installed.offset = installed.buffer.take installed.offset

/-- The message part of a handed-over unit. -/
def Handover.message (h : Handover) : List UInt8 := (h.buffer.take h.used).drop h.installed.offset

/-- Every handover was answered. -/
def Sink.Answered (sink : Sink) : Prop :=
  ∀ n < sink.handed.length, (sink.answer (sink.handed.take (n + 1))).isSome = true

/-- An answer that is adopted. -/
def Adopted (answer : Option (List UInt8 × ℕ)) : Prop :=
  ∃ buffer offset, answer = some (buffer, offset) ∧ offset < buffer.length

/-- An answer that is refused. -/
def Refused (answer : Option (List UInt8 × ℕ)) : Prop :=
  ∃ buffer offset, answer = some (buffer, offset) ∧ buffer.length ≤ offset

/-- The last handover, of a buffer that is not empty, was answered in this way. -/
def Sink.LastAnswer (sink : Sink) (P : Option (List UInt8 × ℕ) → Prop) : Prop :=
  ∃ handed h, sink.handed = handed ++ [h] ∧ h.buffer ≠ [] ∧ P (sink.answer sink.handed)

namespace OStream

/-- The units handed over. -/
def handed (os : OStream) : List Handover := (os.flush_.map Sink.handed).getD []

/-- The message part of the active buffer. -/
def active (os : OStream) : List UInt8 := (os.buffer.take os.offset).drop os.installed.offset

/-- The message bytes written so far. -/
def message (os : OStream) : List UInt8 := os.handed.flatMap Handover.message ++ os.active

/-- No byte can be written any more. -/
def Spent (os : OStream) : Prop := os.dead = true ∨ os.flush_ = none ∧ os.offset = os.end_

/-- A property of all installations, the active one included. -/
def Installs (os : OStream) (P : Installation → Prop) : Prop :=
  (os.dead = true ∨ P os.installed) ∧ ∀ h ∈ os.handed, P h.installed

/-- What holds of all installations holds of the active one while the stream is live. -/
theorem Installs.active {os : OStream} {P : Installation → Prop} (h : os.Installs P)
    (hlive : os.dead = false) : P os.installed :=
  h.1.resolve_left fun hdead => Bool.false_ne_true (hlive.symm.trans hdead)

/-- The error of a write that no byte can be written for. -/
def stopError (os : OStream) : Error := if os.flush_.isNone then .bufferFull else .argument

end OStream

/-- The invariant of a stream: the bookkeeping of the active buffer and of the units handed
over, and what a sink requires of the buffer. -/
structure Sound (os : OStream) : Prop where
  end_eq : os.end_ = os.buffer.length
  kept : Kept os.installed os.buffer os.offset
  handed : ∀ h ∈ os.handed, Kept h.installed h.buffer h.used
  capacity : os.dead = false → os.flush_.isSome = true → os.installed.offset < os.end_
  dead : os.dead = true → os.buffer = [] ∧ ∃ sink, os.flush_ = some sink ∧ sink.LastAnswer Refused
  answered : ∀ sink, os.flush_ = some sink → sink.Answered

/-- The sink of `os` unwound and left `os'` behind. -/
structure Broken (os os' : OStream) : Prop where
  buffer : os'.buffer = []
  end_pos : 0 < os'.end_
  answer : os'.flush_.map Sink.answer = os.flush_.map Sink.answer
  unanswered : ∃ sink, os'.flush_ = some sink ∧ sink.LastAnswer (· = none)

/-- Another part of the stream is as it was. -/
structure SameFraming (os os' : OStream) : Prop where
  depth : os'.depth = os.depth
  pending : os'.pending = os.pending

/-- `os'` is `os` taken on by `bytes` of the message. -/
structure Reached (os os' : OStream) (bytes : List UInt8) : Prop where
  sound : Sound os'
  message : os'.message = os.message ++ bytes
  answer : os'.flush_.map Sink.answer = os.flush_.map Sink.answer
  sinkless : os.flush_ = none → os'.installed = os.installed
  dead : os.dead = true → os'.dead = true ∧ os'.flush_ = os.flush_
  adopted : ∃ more, os'.handed = os.handed ++ more ∧ (os'.dead = false → ∀ sink,
    os.flush_ = some sink → ∀ n < more.length,
      Adopted (sink.answer (os.handed ++ more.take (n + 1))))
  installs (P : Installation → Prop) : (∀ sink, os.flush_ = some sink →
    ∀ handed buffer offset, sink.answer handed = some (buffer, offset) → P ⟨buffer, offset⟩) →
      os.Installs P → os'.Installs P

/-- A step emits `bytes`: all of them, ending as `done` says, or it stops short of them for
good, ending as `stop` says, or it unwinds. -/
inductive Emits (os : OStream) (bytes : List UInt8) (done stop : OStream → Prop) :
    OStream × Exit Error Unit → Prop
  | ok {os' : OStream} (reached : Reached os os' bytes) (dead : os'.dead = os.dead)
      (ending : done os') : Emits os bytes done stop (os', .ok ())
  | stopped {os' : OStream} (k : ℕ) (reached : Reached os os' (bytes.take k))
      (short : k < bytes.length) (spent : os'.Spent) (ending : stop os') :
      Emits os bytes done stop (os', .err os'.stopError)
  | unwound {os' : OStream} (broken : Broken os os') : Emits os bytes done stop (os', .unwound)

/-- A step emits `bytes` and leaves the framing alone. -/
abbrev Pushes (bytes : List UInt8) (m : EncodeM Unit) : Prop :=
  ∀ os, Sound os → Emits os bytes (SameFraming os) (SameFraming os) (m os)

section Reaching

variable {os os₁ os' : OStream} {bytes more : List UInt8}

/-- A stream has the framing that it has. -/
theorem SameFraming.refl (os : OStream) : SameFraming os os := ⟨rfl, rfl⟩

/-- A framing that is kept twice is kept. -/
theorem SameFraming.trans (h : SameFraming os os₁) (h' : SameFraming os₁ os') :
    SameFraming os os' :=
  ⟨h'.depth.trans h.depth, h'.pending.trans h.pending⟩

/-- A stream is reached from itself with no bytes. -/
theorem Reached.refl (h : Sound os) : Reached os os [] where
  sound := h
  message := (List.append_nil _).symm
  answer := rfl
  sinkless _ := rfl
  dead hdead := ⟨hdead, rfl⟩
  adopted := ⟨[], (List.append_nil _).symm, fun _ _ _ n hn => absurd hn (Nat.not_lt_zero n)⟩
  installs _ _ h := h

/-- No sink appears on the way. -/
theorem Reached.flush_none (h : Reached os os' bytes) (hnone : os.flush_ = none) :
    os'.flush_ = none := by
  have hanswer := h.answer
  rw [hnone] at hanswer
  exact Option.map_eq_none_iff.mp hanswer

/-- A sink keeps answering by the same function. -/
theorem Reached.flush_some (h : Reached os os' bytes) {sink : Sink} (hsome : os.flush_ = some sink) :
    ∃ sink', os'.flush_ = some sink' ∧ sink'.answer = sink.answer := by
  have hanswer := h.answer
  rw [hsome] at hanswer
  exact Option.map_eq_some_iff.mp hanswer

/-- A dead stream does not come back to life on the way. -/
theorem Reached.live (h : Reached os os' bytes) (hlive : os'.dead = false) : os.dead = false := by
  refine Bool.eq_false_of_not_eq_true fun hdead => ?_
  exact absurd (hlive.symm.trans (h.dead hdead).1) Bool.false_ne_true

/-- Bytes follow one another in the message. -/
theorem Reached.trans (h : Reached os os₁ bytes) (h' : Reached os₁ os' more) :
    Reached os os' (bytes ++ more) where
  sound := h'.sound
  message := by rw [h'.message, h.message, List.append_assoc]
  answer := h'.answer.trans h.answer
  sinkless hnone := (h'.sinkless (h.flush_none hnone)).trans (h.sinkless hnone)
  dead hdead := by
    obtain ⟨hdead₁, hflush₁⟩ := h.dead hdead
    obtain ⟨hdead', hflush'⟩ := h'.dead hdead₁
    exact ⟨hdead', hflush'.trans hflush₁⟩
  adopted := by
    obtain ⟨first, hfirst, hadopted⟩ := h.adopted
    obtain ⟨second, hsecond, hadopted'⟩ := h'.adopted
    refine ⟨first ++ second, by rw [hsecond, hfirst, List.append_assoc], ?_⟩
    intro hlive sink hsink n hn
    obtain ⟨sink', hsink', hanswer⟩ := h.flush_some hsink
    by_cases hbefore : n < first.length
    · rw [List.take_append_of_le_length hbefore]
      exact hadopted (h'.live hlive) sink hsink n hbefore
    · obtain ⟨k, rfl⟩ := Nat.exists_eq_add_of_le (Nat.le_of_not_lt hbefore)
      have hk : k < second.length := by
        rw [List.length_append] at hn
        omega
      have hlater := hadopted' hlive sink' hsink' k hk
      rw [hfirst, hanswer, List.append_assoc] at hlater
      rw [Nat.add_assoc, List.take_length_add_append]
      exact hlater
  installs P hanswers hinstalls := by
    refine h'.installs P (fun sink' hsink' => ?_) (h.installs P hanswers hinstalls)
    have hmap : os.flush_.map Sink.answer = some sink'.answer := by
      rw [← h.answer, hsink']
      rfl
    obtain ⟨sink, hsink, hanswer⟩ := Option.map_eq_some_iff.mp hmap
    rw [← hanswer]
    exact hanswers sink hsink

/-- Without a sink nothing is handed over. -/
theorem handed_of_flush_none (hnone : os.flush_ = none) : os.handed = [] := by
  rw [handed, hnone]
  rfl

/-- Without a sink the message is all in the active buffer. -/
theorem message_of_flush_none (hnone : os.flush_ = none) : os.message = os.active := by
  rw [message, handed_of_flush_none hnone]
  rfl

/-- The message part of the active buffer lies between the start offset and the cursor. -/
theorem Sound.active_length (h : Sound os) : os.active.length = os.offset - os.installed.offset := by
  rw [active, List.length_drop, List.length_take, Nat.min_eq_left h.kept.inside]

/-- The cursor is not past the end. -/
theorem Sound.offset_le (h : Sound os) : os.offset ≤ os.end_ := h.end_eq ▸ h.kept.inside

/-- A dead stream holds no message bytes. -/
theorem Sound.active_of_dead (h : Sound os) (hdead : os.dead = true) : os.active = [] := by
  rw [active, (h.dead hdead).1, List.take_nil, List.drop_nil]

/-- A dead stream writes nothing. -/
theorem Reached.nil_of_dead (hsound : Sound os) (h : Reached os os' bytes)
    (hdead : os.dead = true) : bytes = [] := by
  obtain ⟨hdead', hflush⟩ := h.dead hdead
  have hmessage := h.message
  have hhanded : os'.handed = os.handed := congrArg (fun f => (Option.map Sink.handed f).getD []) hflush
  rw [OStream.message, OStream.message, hhanded, h.sound.active_of_dead hdead', hsound.active_of_dead hdead,
    List.append_nil] at hmessage
  exact List.self_eq_append_right.mp hmessage

/-- Without a sink the cursor moves by the bytes written, in the same room. -/
theorem Reached.room_eq (hsound : Sound os) (h : Reached os os' bytes)
    (hnone : os.flush_ = none) :
    os'.end_ = os.end_ ∧ os'.offset = os.offset + bytes.length := by
  have hinstalled := h.sinkless hnone
  have hmessage := congrArg List.length h.message
  have hstart := hsound.kept.start
  have hstart' := h.sound.kept.start
  rw [message_of_flush_none hnone, message_of_flush_none (h.flush_none hnone), List.length_append,
    hsound.active_length, h.sound.active_length, hinstalled] at hmessage
  rw [hinstalled] at hstart'
  refine ⟨?_, by omega⟩
  rw [h.sound.end_eq, hsound.end_eq, h.sound.kept.size, hsound.kept.size, hinstalled]

/-- A spent stream emits nothing. -/
theorem Reached.nil_of_spent (hsound : Sound os) (h : Reached os os' bytes) (hspent : os.Spent) :
    bytes = [] := by
  rcases hspent with hdead | ⟨hnone, hfull⟩
  · exact h.nil_of_dead hsound hdead
  · obtain ⟨hend, hoffset⟩ := h.room_eq hsound hnone
    have hinside := h.sound.offset_le
    exact List.length_eq_zero_iff.mp (by omega)

/-- An unwinding behind other steps is an unwinding of the whole. -/
theorem Broken.behind (h : Broken os₁ os') (reached : Reached os os₁ bytes) : Broken os os' :=
  ⟨h.buffer, h.end_pos, h.answer.trans reached.answer, h.unanswered⟩

/-- Bytes stored at the cursor are emitted. -/
theorem reached_store (hsound : Sound os) {buffer : List UInt8}
    (hfit : os.offset + bytes.length ≤ os.end_)
    (hstored : Splice.Stored os.buffer os.offset bytes buffer) :
    Reached os { os with buffer := buffer, offset := os.offset + bytes.length } bytes where
  sound :=
    { end_eq := hsound.end_eq.trans hstored.size.symm
      kept :=
        { size := hstored.size.trans hsound.kept.size
          start := hsound.kept.start.trans (Nat.le_add_right _ _)
          inside := by
            rw [hstored.size, ← hsound.end_eq]
            exact hfit
          below := (hstored.take_of_le hsound.kept.start hsound.kept.inside).trans
            hsound.kept.below }
      handed := hsound.handed
      capacity := hsound.capacity
      dead := fun hdead => by
        have hnil : buffer = [] := List.length_eq_zero_iff.mp <| by
          rw [hstored.size, (hsound.dead hdead).1, List.length_nil]
        exact ⟨hnil, (hsound.dead hdead).2⟩
      answered := hsound.answered }
  message := by
    have hlen : (os.buffer.take os.offset).length = os.offset := by
      rw [List.length_take, Nat.min_eq_left hsound.kept.inside]
    change _ ++ (List.take (os.offset + bytes.length) buffer).drop os.installed.offset = _
    have hstart : os.installed.offset ≤ (os.buffer.take os.offset).length := by
      rw [hlen]
      exact hsound.kept.start
    rw [hstored.take, List.drop_append_of_le_length hstart, ← List.append_assoc]
    rfl
  answer := rfl
  sinkless _ := rfl
  dead hdead := ⟨hdead, rfl⟩
  adopted := (Reached.refl hsound).adopted
  installs _ _ h := h

end Reaching

section Emitting

variable {os : OStream} {bytes more : List UInt8} {done stop done' stop' : OStream → Prop}

/-- Emission goes on behind bytes already emitted. -/
theorem Emits.behind {os₁ : OStream} {result : OStream × Exit Error Unit}
    (reached : Reached os os₁ bytes) (dead : os₁.dead = os.dead)
    (h : Emits os₁ more done stop result) : Emits os (bytes ++ more) done stop result := by
  cases h with
  | ok reached' dead' ending => exact .ok (reached.trans reached') (dead'.trans dead) ending
  | @stopped os₂ k reached' short spent ending =>
    refine .stopped (bytes.length + k) ?_ ?_ spent ending
    · rw [List.take_length_add_append]
      exact reached.trans reached'
    · rw [List.length_append]
      exact Nat.add_lt_add_left short _
  | unwound broken => exact .unwound (broken.behind reached)

/-- What follows a step emits behind it. -/
theorem Emits.bind {m : EncodeM Unit} {f : Unit → EncodeM Unit}
    (h : Emits os bytes done stop (m os))
    (hnext : ∀ os₁, Reached os os₁ bytes → done os₁ → Emits os₁ more done' stop' (f () os₁))
    (hstop : ∀ os₁, stop os₁ → stop' os₁) :
    Emits os (bytes ++ more) done' stop' ((m >>= f) os) := by
  generalize hm : m os = result at h
  cases h with
  | @ok os₁ reached dead ending =>
    rw [bind_ok hm]
    exact (hnext os₁ reached ending).behind reached dead
  | @stopped os₁ k reached short spent ending =>
    rw [bind_err hm]
    refine .stopped k ?_ ?_ spent (hstop os₁ ending)
    · rw [List.take_append_of_le_length short.le]
      exact reached
    · rw [List.length_append]
      exact short.trans_le (Nat.le_add_right _ _)
  | unwound broken =>
    rw [bind_unwound hm]
    exact .unwound broken

/-- What a step ends with may be weakened. -/
theorem Emits.imp {result : OStream × Exit Error Unit} (h : Emits os bytes done stop result)
    (hdone : ∀ os₁, done os₁ → done' os₁) (hstop : ∀ os₁, stop os₁ → stop' os₁) :
    Emits os bytes done' stop' result := by
  cases h with
  | ok reached dead hd => exact .ok reached dead (hdone _ hd)
  | stopped k reached short spent hs => exact .stopped k reached short spent (hstop _ hs)
  | unwound broken => exact .unwound broken

/-- Doing nothing emits no bytes. -/
theorem emits_pure (hsound : Sound os) (hdone : done os) : Emits os [] done stop (os, .ok ()) :=
  .ok (.refl hsound) rfl hdone

/-- Pushing goes on behind bytes already emitted. -/
theorem Emits.pushed {os₁ : OStream} {result : OStream × Exit Error Unit}
    (reached : Reached os os₁ bytes) (dead : os₁.dead = os.dead) (same : SameFraming os os₁)
    (h : Emits os₁ more (SameFraming os₁) (SameFraming os₁) result) :
    Emits os (bytes ++ more) (SameFraming os) (SameFraming os) result :=
  (h.behind reached dead).imp (fun _ => same.trans) fun _ => same.trans

end Emitting

end Sofab
