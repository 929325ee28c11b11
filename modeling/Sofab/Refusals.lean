import Sofab.Sinks

/-!
# Refused replacements

A sink may leave a buffer that there is no going on in. In a write or a flush that ends the
stream: the sink is called no more and nothing that adds a byte succeeds. While another buffer
is being installed it is of no consequence. What has been handed over is always a prefix of
the message, and all of it once a flush at the end succeeds.
-/

namespace Sofab

open Steps Step OStream

/-- An operation that adds no byte: a sequence is opened, or one without content is closed. -/
def Byteless (os : OStream) (op : Op) : Prop :=
  (∃ id, op = .call (.sequenceBeginLazy id)) ∨
    op = .call .sequenceEnd ∧ os.pending.isEmpty = false

/-- A refused replacement in the `i`th operation has ended the stream. -/
structure Ended (host : Endian) (ops : List Op) (os : OStream) (i : ℕ) : Prop where
  report : (runAll host ops os).2[i]? = some (.err .argument)
  handed : ∀ j, i < j → j ≤ ops.length →
    (stateAt host ops os j).handed = (stateAt host ops os (i + 1)).handed
  buffer : ∀ j, i < j → j ≤ ops.length → (stateAt host ops os j).buffer = []
  errors : ∀ j (hj : j < ops.length), i < j → (runAll host ops os).2[j]? = some (.ok ()) →
    Byteless (stateAt host ops os j) ops[j]

/-- The buffer that the `i`th operation installs has taken the place of whatever the sink
answered. -/
structure Superseded (host : Endian) (ops : List Op) (os : OStream) (i : ℕ)
    (buffer : List UInt8) (offset : ℕ) : Prop where
  report : (runAll host ops os).2[i]? = some (.ok ())
  live : (stateAt host ops os (i + 1)).dead = false
  installed : (stateAt host ops os (i + 1)).installed = ⟨buffer, offset⟩
  message : (stateAt host ops os (i + 1)).message = (stateAt host ops os i).message
  whatever : ∀ other : Sink, other.handed = (stateAt host ops os i).handed →
    (other.answer (stateAt host ops os (i + 1)).handed).isSome = true →
      bufferSet buffer offset { stateAt host ops os i with flush_ := some other } =
        ({ stateAt host ops os (i + 1) with
          flush_ := some ⟨other.answer, (stateAt host ops os (i + 1)).handed⟩ }, .ok ())

section Refusing

variable {os os' : OStream} {tape : Tape} {sink : Sink} {answer : Answer}

/-- A silent call adds no byte. -/
theorem Silent.byteless {call : Call} (h : Silent os call) : Byteless os (.call call) := by
  obtain ⟨φ, φ', hframed, hemit⟩ := h
  generalize hnone : ([] : List UInt8) = bytes at hemit
  cases Call.emitted hemit with
  | @field f hvalid => exact absurd ⟨φ, _, hframed, hnone ▸ hemit⟩ (not_silent_field hvalid)
  | @opened id => exact .inl ⟨id, rfl⟩
  | closed => cases hnone
  | vanished _ hheld =>
    refine .inr ⟨rfl, Bool.eq_false_of_not_eq_true fun hempty => ?_⟩
    exact hheld (hframed.pending.isEmpty_iff.mp hempty)
  | kept => cases (List.append_eq_nil_iff.mp hnone.symm).2

/-- With nothing handed over in between nothing was refused there. -/
theorem not_refusedBetween_of_handed (h : os'.handed = os.handed) : ¬RefusedBetween os os' := by
  rintro ⟨_, _, n, hle, hlt, _⟩
  rw [h] at hlt
  exact Nat.not_lt.mpr hle hlt

/-- A dead stream has stopped. -/
theorem Streaming.stopped (h : Streaming answer os tape) (hdead : os.dead = true) :
    Stopped os tape :=
  h.state.resolve_left fun hwritten => Bool.false_ne_true (hwritten.live.symm.trans hdead)

/-- An operation on a dead stream. -/
theorem Streaming.muted (h : Streaming answer os tape) (hdead : os.dead = true)
    (hreturns : answer.Returns) (host : Endian) (op : Op) :
    Reached os (op.run host os).1 [] ∧ ((op.run host os).2 = .ok () → Byteless os op) := by
  have hoperated := (h.stopped hdead).operated hdead host op
  generalize op.run host os = result at hoperated
  cases hoperated with
  | written before => exact absurd (before.live.symm.trans hdead) Bool.false_ne_true
  | stops before => exact absurd (before.live.symm.trans hdead) Bool.false_ne_true
  | mute before after reached silent =>
    refine ⟨reached, fun hok => ?_⟩
    obtain ⟨c, rfl, hsilent⟩ := silent hok
    exact hsilent.byteless
  | unwound broken => exact absurd hreturns (broken.not_returns h.answer_eq)

/-- What is handed over is a prefix of what is on the tape. -/
theorem Streaming.handed_prefix (h : Streaming answer os tape) :
    os.handed.flatMap Handover.message <+: tape.bytes := by
  rcases h.state with hwritten | hstopped
  · rw [← hwritten.message]
    exact List.prefix_append _ _
  · obtain ⟨rest, hrest, _⟩ := hstopped.message
    rw [hrest, OStream.message, List.append_assoc]
    exact List.prefix_append _ _

/-- Once a flush succeeds everything is handed over. -/
theorem Streaming.flushed (h : Streaming answer os tape) (host : Endian)
    (hok : (Op.flush.run host os).2 = .ok ()) :
    (Op.flush.run host os).1.handed.flatMap Handover.message = tape.bytes := by
  obtain ⟨sink, hsink, _⟩ := flush_some_of_answer h.answer_eq
  have hsound : Sound os := h.state.elim Written.sound Stopped.sound
  have hflushed := flush_flushed hsound
  rw [Op.run] at hok ⊢
  generalize hflush : OStream.flush os = result at hflushed
  cases hflushed with
  | @ok os' reached live same drained =>
    rw [bind_ok hflush]
    change os'.handed.flatMap Handover.message = _
    obtain ⟨_, hsome, _⟩ := reached.flush_some hsink
    have hwritten : Written os tape := h.state.resolve_right fun hstopped => by
      have hdead := hstopped.dead_of_some (by rw [hsink]; rfl)
      exact absurd ((reached.live live).symm.trans hdead) Bool.false_ne_true
    have hmessage := reached.message
    rw [OStream.message, drained (by rw [hsome]; rfl), List.append_nil, List.append_nil] at hmessage
    rw [hmessage, hwritten.message]
  | refused reached dead same =>
    rw [bind_err hflush] at hok
    cases hok
  | unwound broken =>
    rw [bind_unwound hflush] at hok
    cases hok

/-- A buffer that is installed in spite of a refusal. -/
theorem Streaming.superseded (h : Streaming answer os tape) (hreturns : answer.Returns)
    {buffer : List UInt8} {offset : ℕ}
    (hrefused : RefusedBetween os (bufferSet buffer offset os).1) :
    ∃ sink, os.flush_ = some sink ∧ Written os tape ∧ offset < buffer.length ∧ 0 < os.offset ∧
      bufferSet buffer offset os = (adopting os sink buffer offset, .ok ()) := by
  obtain ⟨sink, hsink, _⟩ := flush_some_of_answer h.answer_eq
  rcases h.state with hwritten | hstopped
  · have hresumed := @bufferSet_resumed os sink hwritten.live hsink buffer offset hwritten.sound
    generalize bufferSet buffer offset os = result at hresumed hrefused ⊢
    cases hresumed with
    | refused hroom => exact absurd hrefused (not_refusedBetween_of_handed rfl)
    | resumed hroom answered =>
      by_cases hpending : 0 < os.offset
      · refine ⟨sink, hsink, hwritten, hroom, hpending, ?_⟩
        rw [resuming, if_pos hpending]
      · rw [resuming, if_neg hpending] at hrefused
        exact absurd hrefused (not_refusedBetween_of_handed rfl)
    | unwound broken => exact absurd hreturns (broken.not_returns h.answer_eq)
  · have hdead := hstopped.dead_of_some (by rw [hsink]; rfl)
    rw [bufferSet_dead hdead] at hrefused
    exact absurd hrefused (not_refusedBetween_of_handed rfl)

/-- A refusal in a write or a flush. -/
theorem Streaming.refused (h : Streaming answer os tape) (hreturns : answer.Returns)
    (host : Endian) {op : Op} (hop : ∀ buffer offset, op ≠ .bufferSet buffer offset)
    (hrefused : RefusedBetween os (op.run host os).1) :
    (op.run host os).2 = .err .argument ∧ (op.run host os).1.dead = true := by
  obtain ⟨sink, hsink, _⟩ := flush_some_of_answer h.answer_eq
  have hoperated := h.operated host op
  generalize op.run host os = result at hoperated hrefused
  cases hoperated with
  | written before after carried => exact absurd hrefused (carried.adopted hop)
  | stops before after answer =>
    have hsome := congrArg Option.isSome answer
    rw [Option.isSome_map, Option.isSome_map, hsink] at hsome
    exact ⟨rfl, after.dead_of_some hsome⟩
  | mute before after reached silent =>
    have hdead := before.dead_of_some (by rw [hsink]; rfl)
    exact absurd hrefused (not_refusedBetween_of_handed (reached.handed_of_dead hdead))
  | unwound broken => exact absurd hreturns (broken.not_returns h.answer_eq)

end Refusing

section Losing

variable {os : OStream} {answer : Answer}

/-- Every state of a run goes on with it. -/
theorem Streaming.stateAt (h : Streaming answer os .new) (hreturns : answer.Returns)
    (host : Endian) (ops : List Op) (i : ℕ) :
    Streaming answer (stateAt host ops os i) (record (callsOf (ops.take i))).1 :=
  h.after hreturns host (ops.take i)

/-- Past a refusal in a write or a flush the stream is at its end. -/
theorem Streaming.ended (h : Streaming answer os .new) (hreturns : answer.Returns)
    (host : Endian) {ops : List Op} {i : ℕ} (hi : i < ops.length)
    (hop : ∀ buffer offset, ops[i] ≠ .bufferSet buffer offset)
    (hrefused : RefusedBetween (Sofab.stateAt host ops os i) (Sofab.stateAt host ops os (i + 1))) :
    Ended host ops os i := by
  rw [stateAt_succ host os hi] at hrefused
  obtain ⟨hreport, hdead⟩ := (h.stateAt hreturns host ops i).refused hreturns host hop hrefused
  rw [← stateAt_succ host os hi] at hdead
  have hlater (j : ℕ) (hij : i < j) : j ≤ ops.length →
      (Sofab.stateAt host ops os j).dead = true ∧
        (Sofab.stateAt host ops os j).handed = (Sofab.stateAt host ops os (i + 1)).handed := by
    induction j, hij using Nat.le_induction with
    | base => exact fun _ => ⟨hdead, rfl⟩
    | succ j hij ih =>
      intro hj
      obtain ⟨hdead, hhanded⟩ := ih (Nat.le_of_succ_le hj)
      have hmuted := ((h.stateAt hreturns host ops j).muted hdead hreturns host ops[j]).1
      rw [stateAt_succ host os hj]
      exact ⟨(hmuted.dead hdead).1, (hmuted.handed_of_dead hdead).trans hhanded⟩
  refine ⟨?_, fun j hij hj => (hlater j hij hj).2, fun j hij hj => ?_, fun j hj hij hok => ?_⟩
  · rw [report_eq host os hi, hreport]
  · have hdead := (hlater j hij hj).1
    exact (((h.stateAt hreturns host ops j).stopped hdead).sound.dead hdead).1
  · have hdead := (hlater j hij hj.le).1
    rw [report_eq host os hj] at hok
    exact ((h.stateAt hreturns host ops j).muted hdead hreturns host ops[j]).2 (Option.some.inj hok)

/-- A refusal while another buffer is installed is of no consequence. -/
theorem Streaming.supersedes (h : Streaming answer os .new) (hreturns : answer.Returns)
    (host : Endian) {ops : List Op} {i : ℕ} (hi : i < ops.length) {buffer : List UInt8}
    {offset : ℕ} (hop : ops[i] = .bufferSet buffer offset)
    (hrefused : RefusedBetween (Sofab.stateAt host ops os i) (Sofab.stateAt host ops os (i + 1))) :
    Superseded host ops os i buffer offset := by
  have hbefore := h.stateAt hreturns host ops i
  have hreport := report_eq host os hi
  have hnext := stateAt_succ host os hi
  rw [hop, Op.run] at hreport hnext
  rw [hnext] at hrefused
  obtain ⟨sink, hsink, hwritten, hroom, hpending, hset⟩ := hbefore.superseded hreturns hrefused
  rw [hset] at hreport hnext
  refine ⟨hreport, ?_, ?_, ?_, ?_⟩
  · rw [hnext]
    exact hwritten.live
  · rw [hnext]
    rfl
  · rw [hnext]
    exact message_adopting hsink buffer offset
  · intro other hother hsome
    have hlast : (Sofab.stateAt host ops os (i + 1)).handed =
        other.handed ++ [unit (Sofab.stateAt host ops os i)] := by
      rw [hnext, hother, handed_of_flush_some hsink]
      rfl
    have hok := @bufferSet_ok { Sofab.stateAt host ops os i with flush_ := some other } other
      hwritten.live rfl buffer offset hroom fun _ => by
        rw [hlast] at hsome
        exact hsome
    rw [hok, resuming, if_pos hpending, hlast, hnext]
    rfl

end Losing

/-- Whatever a sink that does not unwind answers, and whatever a caller ignores: what the sink
has been handed is a prefix of the message; a replacement refused in a write or a flush ends
the stream, one refused while another buffer is installed does not matter; and once a flush at
the end succeeds the sink has the whole message. -/
theorem sink_loses_no_byte (host : Endian) {buffer : List UInt8} {offset : ℕ} {sink : Sink}
    {os : OStream} (hfresh : sink.handed = []) (hopen : withFlush buffer offset sink = .ok os)
    (hsink : Answer.Returns sink.answer) (ops : List Op) :
    (runAll host ops os).1.handed.flatMap Handover.message <+:
        (unlimited host (callsOf ops)).1.message ∧
      (∀ i (hi : i < ops.length), (∀ buffer offset, ops[i] ≠ .bufferSet buffer offset) →
        RefusedBetween (stateAt host ops os i) (stateAt host ops os (i + 1)) →
          Ended host ops os i) ∧
      (∀ i (hi : i < ops.length) buffer offset, ops[i] = .bufferSet buffer offset →
        RefusedBetween (stateAt host ops os i) (stateAt host ops os (i + 1)) →
          Superseded host ops os i buffer offset) ∧
      ((Op.flush.run host (runAll host ops os).1).2 = .ok () →
        (Op.flush.run host (runAll host ops os).1).1.handed.flatMap Handover.message =
          (unlimited host (callsOf ops)).1.message) := by
  obtain ⟨rfl, _, hwritten⟩ := written_withFlush hfresh hopen
  have hstart : Streaming sink.answer _ .new := ⟨rfl, .inl hwritten⟩
  have hlast := hstart.after hsink host ops
  rw [unlimited_message]
  exact ⟨hlast.handed_prefix, fun i hi => hstart.ended hsink host hi,
    fun i hi buffer offset => hstart.supersedes hsink host hi, hlast.flushed host⟩

/-- A field of two bytes, and a sink that refuses to go on after one of them. -/
theorem sink_loses_no_byte_refusing :
    (runAll .little [.call (.field (.unsigned 1 5))]
        (.ofBuffer [0] 0 (some ⟨fun _ => some ([], 1), []⟩))).1.handed.flatMap Handover.message = [8] ∧
      [8] <+: (unlimited .little [.field (.unsigned 1 5)]).1.message := by
  have hlaw := @sink_loses_no_byte .little [0] 0 ⟨fun _ => some ([], 1), []⟩ _ rfl rfl
    (fun _ _ _ => rfl) [.call (.field (.unsigned 1 5))]
  have hhanded : (runAll .little [.call (.field (.unsigned 1 5))]
      (.ofBuffer [0] 0 (some ⟨fun _ => some ([], 1), []⟩))).1.handed.flatMap Handover.message = [8] := by
    decide +kernel
  rw [hhanded] at hlaw
  exact ⟨hhanded, hlaw.1⟩

end Sofab
