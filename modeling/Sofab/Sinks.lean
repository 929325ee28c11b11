import Sofab.Operations

/-!
# Runs with a sink

A stream with a sink follows the tape of its writer calls through flushes and buffers, for as
long as the sink leaves a buffer to go on in. Once a replacement is refused the stream stays
as it is, and nothing that adds a byte succeeds any more.
-/

namespace Sofab

open Steps Step OStream

/-- How a sink answers. -/
abbrev Answer := List Handover → Option (List UInt8 × ℕ)

/-- A sink that never unwinds. -/
def Answer.Returns (answer : Answer) : Prop :=
  ∀ handed h, h.buffer ≠ [] → (answer (handed ++ [h])).isSome = true

/-- A sink that always leaves a buffer to go on in. -/
def Answer.Consuming (answer : Answer) : Prop :=
  ∀ handed h, h.buffer ≠ [] → Adopted (answer (handed ++ [h]))

/-- A sink that always leaves a buffer to go on in never unwinds. -/
theorem Answer.Consuming.returns {answer : Answer} (h : answer.Consuming) : answer.Returns := by
  intro handed unit hne
  obtain ⟨buffer, offset, hanswer, _⟩ := h handed unit hne
  rw [hanswer]
  rfl

/-- An answer is not both adopted and refused. -/
theorem Adopted.not_refused {answer : Option (List UInt8 × ℕ)} (h : Adopted answer) :
    ¬Refused answer := by
  rintro ⟨other, start, hother, hle⟩
  obtain ⟨buffer, offset, hanswer, hlt⟩ := h
  cases hother.symm.trans hanswer
  exact Nat.not_lt.mpr hle hlt

/-- What an operation records. -/
def Op.record (op : Op) (tape : Tape) : Tape :=
  match op with
  | .call c => (c.record tape).1
  | .flush => tape
  | .bufferSet _ _ => tape

/-- The calls of a run are recorded from its first operation on. -/
theorem drive_callsOf (op : Op) (ops : List Op) (tape : Tape) :
    (drive Call.record (callsOf (op :: ops)) tape).1 =
      (drive Call.record (callsOf ops) (op.record tape)).1 := by
  cases op <;> rfl

/-- Between two states of a stream the sink answered with a buffer that was refused. -/
def RefusedBetween (os os' : OStream) : Prop :=
  ∃ sink, os'.flush_ = some sink ∧ ∃ n, os.handed.length ≤ n ∧ n < os'.handed.length ∧
    Refused (sink.answer (os'.handed.take (n + 1)))

section Sinks

variable {os os' : OStream} {tape : Tape} {bytes : List UInt8} {sink : Sink} {answer : Answer}

/-- A stream that keeps the answers of a sink has a sink. -/
theorem flush_some_of_answer (h : os.flush_.map Sink.answer = some answer) :
    ∃ sink, os.flush_ = some sink ∧ sink.answer = answer :=
  Option.map_eq_some_iff.mp h

/-- While a stream is live every replacement was adopted. -/
theorem Reached.not_refusedBetween (h : Reached os os' bytes) (hsink : os.flush_ = some sink)
    (hlive : os'.dead = false) : ¬RefusedBetween os os' := by
  rintro ⟨sink', hsink', n, hle, hlt, hrefused⟩
  obtain ⟨more, hmore, hadopted⟩ := h.adopted
  obtain ⟨_, hsome, hanswer⟩ := h.flush_some hsink
  cases hsink'.symm.trans hsome
  obtain ⟨k, rfl⟩ := Nat.exists_eq_add_of_le hle
  rw [hmore, List.length_append] at hlt
  rw [hmore, hanswer, Nat.add_assoc, List.take_length_add_append] at hrefused
  exact (hadopted hlive sink hsink k (by omega)).not_refused hrefused

/-- A dead stream calls its sink no more. -/
theorem Reached.handed_of_dead (h : Reached os os' bytes) (hdead : os.dead = true) :
    os'.handed = os.handed := by
  rw [handed, handed, (h.dead hdead).2]

/-- A sink that never unwinds breaks no stream. -/
theorem Broken.not_returns (h : Broken os os') (hanswer : os.flush_.map Sink.answer = some answer) :
    ¬answer.Returns := by
  intro hreturns
  obtain ⟨sink, hsink, handed, unit, hhanded, hne, hnone⟩ := h.unanswered
  have hsame := h.answer
  rw [hanswer, hsink] at hsame
  obtain rfl : sink.answer = answer := Option.some.inj hsame
  have hsome := hreturns handed unit hne
  rw [← hhanded, hnone] at hsome
  cases hsome

/-- A sink that always leaves a buffer kills no stream. -/
theorem Sound.not_dead (h : Sound os) (hanswer : os.flush_.map Sink.answer = some answer)
    (hconsuming : answer.Consuming) : os.dead = false := by
  refine Bool.eq_false_of_not_eq_true fun hdead => ?_
  obtain ⟨_, sink, hsink, handed, unit, hhanded, hne, hrefused⟩ := h.dead hdead
  rw [hsink] at hanswer
  obtain rfl : sink.answer = answer := Option.some.inj hanswer
  rw [hhanded] at hrefused
  exact (hconsuming handed unit hne).not_refused hrefused

/-- With a sink only a dead stream has stopped. -/
theorem Stopped.dead_of_some (h : Stopped os tape) (hsome : os.flush_.isSome = true) :
    os.dead = true :=
  h.spent.resolve_right fun hnone => by
    rw [hnone.1] at hsome
    cases hsome

/-- The stream is where another operation left it. -/
structure Carried (os os' : OStream) (op : Op) : Prop where
  answer : os'.flush_.map Sink.answer = os.flush_.map Sink.answer
  adopted : (∀ buffer offset, op ≠ .bufferSet buffer offset) → ¬RefusedBetween os os'
  installs (P : Installation → Prop) : (∀ sink, os.flush_ = some sink →
    ∀ handed buffer offset, sink.answer handed = some (buffer, offset) → P ⟨buffer, offset⟩) →
      (∀ buffer offset, op = .bufferSet buffer offset → P ⟨buffer, offset⟩) →
        os.Installs P → os'.Installs P

/-- A live stream carries its message on to where it is reached. -/
theorem Reached.carried (h : Reached os os' bytes) (hsink : os.flush_ = some sink)
    (hlive : os'.dead = false) (op : Op) : Carried os os' op where
  answer := h.answer
  adopted _ := h.not_refusedBetween hsink hlive
  installs P hanswers _ hinstalls := h.installs P hanswers hinstalls

/-- What an operation on a stream with a sink does. -/
inductive Operated (os : OStream) (tape : Tape) (op : Op) : OStream × Exit Error Unit → Prop
  | written {os' : OStream} {exit : Exit Error Unit} (before : Written os tape)
      (after : Written os' (op.record tape)) (carried : Carried os os' op)
      (call : ∀ c, op = .call c → exit = (c.record tape).2) (flush : op = .flush → exit = .ok ())
      (bufferSet : ∀ buffer offset, op = .bufferSet buffer offset → offset < buffer.length →
        exit = .ok ()) : Operated os tape op (os', exit)
  | stops {os' : OStream} (before : Written os tape) (after : Stopped os' (op.record tape))
      (answer : os'.flush_.map Sink.answer = os.flush_.map Sink.answer) :
      Operated os tape op (os', .err .argument)
  | mute {os' : OStream} {exit : Exit Error Unit} (before : Stopped os tape)
      (after : Stopped os' (op.record tape)) (reached : Reached os os' [])
      (silent : exit = .ok () → ∃ c, op = .call c ∧ Silent os c) : Operated os tape op (os', exit)
  | unwound {os' : OStream} (broken : Broken os os') : Operated os tape op (os', .unwound)

/-- A stopped stream stays mute under every operation. -/
theorem Stopped.operated (h : Stopped os tape) (hdead : os.dead = true) (host : Endian) (op : Op) :
    Operated os tape op (op.run host os) := by
  have hidle (op : Op) (hop : op.record tape = tape) : Operated os tape op (os, .err .argument) :=
    .mute h (by rw [hop]; exact h) (.refl h.sound) fun hok => by cases hok
  cases op with
  | call c =>
    have hmute := mute_of_spent h.sound h.spent h.framed host c
    have htape : tape.bytes <+: (c.record tape).1.bytes := by
      obtain ⟨more, hmore⟩ := c.record_bytes tape
      exact ⟨more, hmore.symm⟩
    change Operated os tape _ (c.write host os)
    generalize c.write host os = result at hmute
    cases hmute with
    | silent silent reached framed =>
      exact .mute h (h.of_reached reached framed htape) reached fun _ => ⟨c, rfl, silent⟩
    | stopped reached framed =>
      exact .mute h (h.of_reached reached framed htape) reached fun hok => by cases hok
    | refused framed emit =>
      refine .mute h (h.of_reached (.refl h.sound) h.framed htape) (.refl h.sound) ?_
      exact fun hok => by cases hok
    | unwound broken => exact .unwound broken
  | flush =>
    have hflush : OStream.flush os = (os, .err .argument) := by
      rw [OStream.flush, self_bind, if_pos hdead]
      rfl
    rw [Op.run, bind_err hflush]
    exact hidle _ rfl
  | bufferSet buffer offset =>
    rw [Op.run, bufferSet_dead hdead]
    exact hidle _ rfl

/-- Past an operation that writes nothing the stream has written what it had. -/
theorem Written.carry (h : Written os tape) (hsound : Sound os') (hlive : os'.dead = false)
    (same : SameFraming os os') (hmessage : os'.message = os.message) : Written os' tape where
  sound := hsound
  live := hlive
  framed := same.framed h.framed
  message := hmessage.trans h.message

/-- A stream that has written everything follows every operation. -/
theorem Written.operated (h : Written os tape) (hsink : os.flush_ = some sink) (host : Endian)
    (op : Op) : Operated os tape op (op.run host os) := by
  cases op with
  | call c =>
    have hfollowed := h.followed host c
    change Operated os tape _ (c.write host os)
    generalize c.write host os = result at hfollowed
    cases hfollowed with
    | written bytes reached after =>
      refine .written h after (reached.carried hsink after.live _) ?_ (fun hop => by cases hop)
        fun buffer offset hop => by cases hop
      rintro _ ⟨⟩
      rfl
    | @stops os' bytes reached after =>
      have hstop : os'.stopError = .argument := by
        obtain ⟨_, hsome, _⟩ := reached.flush_some hsink
        exact stopError_of_some (by rw [hsome]; rfl)
      rw [hstop]
      exact .stops h after reached.answer
    | unwound broken => exact .unwound broken
  | flush =>
    have hflushed := flush_flushed h.sound
    rw [Op.run]
    generalize hflush : OStream.flush os = result at hflushed
    cases hflushed with
    | ok reached live same drained =>
      rw [bind_ok hflush]
      refine .written h (h.carry reached.sound live same ?_) (reached.carried hsink live _)
        (fun c hop => by cases hop) (fun _ => rfl) fun buffer offset hop => by cases hop
      rw [reached.message, List.append_nil]
    | refused reached dead same =>
      rw [bind_err hflush]
      refine .stops h ⟨reached.sound, .inl dead, ⟨_, same.framed h.framed⟩, [], ?_, fun hnone => ?_⟩
        reached.answer
      · rw [reached.message, List.append_nil, List.append_nil]
        exact h.message.symm
      · obtain ⟨_, hsome, _⟩ := reached.flush_some hsink
        cases hnone.symm.trans hsome
    | unwound broken =>
      rw [bind_unwound hflush]
      exact .unwound broken
  | bufferSet buffer offset =>
    have hresumed := @bufferSet_resumed os sink h.live hsink buffer offset h.sound
    change Operated os tape _ (bufferSet buffer offset os)
    generalize bufferSet buffer offset os = result at hresumed
    cases hresumed with
    | refused hroom =>
      refine .written h h ((Reached.refl h.sound).carried hsink h.live _)
        (fun c hop => by cases hop) (fun hop => by cases hop) ?_
      rintro _ _ ⟨⟩ hlt
      exact absurd hlt hroom
    | resumed hroom answered =>
      have hsound := sound_resuming h.live hsink h.sound hroom answered
      have hmessage := message_resuming hsink buffer offset
      refine .written h (h.carry hsound ((resuming_dead ..).trans h.live)
        (resuming_framing ..) hmessage) ⟨resuming_answer hsink buffer offset, ?_, ?_⟩
        (fun c hop => by cases hop) (fun hop => by cases hop) fun _ _ _ _ => rfl
      · exact fun hop => absurd rfl (hop buffer offset)
      · intro P _ hset hinstalls
        refine ⟨.inr (resuming_installed os sink buffer offset ▸ hset buffer offset rfl), ?_⟩
        intro unit hunit
        rw [resuming] at hunit
        split at hunit
        · exact installs_handing h.live hsink hinstalls unit hunit
        · exact hinstalls.2 unit hunit
    | unwound broken => exact .unwound broken

/-- A stream with a sink in a run. -/
structure Streaming (answer : Answer) (os : OStream) (tape : Tape) : Prop where
  answer_eq : os.flush_.map Sink.answer = some answer
  state : Written os tape ∨ Stopped os tape

/-- Every operation of a run does one of the things it can. -/
theorem Streaming.operated (h : Streaming answer os tape) (host : Endian) (op : Op) :
    Operated os tape op (op.run host os) := by
  obtain ⟨sink, hsink, _⟩ := flush_some_of_answer h.answer_eq
  rcases h.state with hwritten | hstopped
  · exact hwritten.operated hsink host op
  · exact hstopped.operated (hstopped.dead_of_some (by rw [hsink]; rfl)) host op

/-- An operation of a sink that never unwinds goes on with the run. -/
theorem Streaming.step (h : Streaming answer os tape) (hreturns : answer.Returns) (host : Endian)
    (op : Op) : Streaming answer (op.run host os).1 (op.record tape) := by
  have hoperated := h.operated host op
  generalize op.run host os = result at hoperated
  cases hoperated with
  | written before after carried call flush bufferSet =>
    exact ⟨carried.answer.trans h.answer_eq, .inl after⟩
  | stops before after answer => exact ⟨answer.trans h.answer_eq, .inr after⟩
  | mute before after reached silent => exact ⟨reached.answer.trans h.answer_eq, .inr after⟩
  | unwound broken => exact absurd hreturns (broken.not_returns h.answer_eq)

/-- A run of operations of a sink that never unwinds. -/
theorem Streaming.after (h : Streaming answer os tape) (hreturns : answer.Returns) (host : Endian)
    (ops : List Op) :
    Streaming answer (runAll host ops os).1 (drive Call.record (callsOf ops) tape).1 := by
  induction ops generalizing os tape with
  | nil => exact h
  | cons op ops ih =>
    rw [drive_callsOf]
    exact ih (h.step hreturns host op)

end Sinks

end Sofab
