import Sofab.Message
import Sofab.Sinks

/-!
# Buffers, sinks and flushes do not show in the bytes

With a sink that always leaves a buffer to go on in, every operation succeeds, and the units
handed over with the active buffer behind them make up the same message as one buffer with
room for everything.
-/

namespace Sofab

open Steps Step OStream

/-- A stream with a sink that always leaves a buffer to go on in, and what holds of all
installations. -/
structure Carrying (answer : Answer) (P : Installation → Prop) (os : OStream) (tape : Tape) :
    Prop where
  answer_eq : os.flush_.map Sink.answer = some answer
  written : Written os tape
  installs : os.Installs P

section Carry

variable {answer : Answer} {P : Installation → Prop} {os : OStream} {tape : Tape}

/-- Every operation that is allowed succeeds and carries the run on. -/
theorem Carrying.step (h : Carrying answer P os tape) (hconsuming : answer.Consuming)
    (hP : ∀ handed buffer offset, answer handed = some (buffer, offset) → P ⟨buffer, offset⟩)
    (host : Endian) {op : Op}
    (hcall : ∀ c, op = .call c → c.Allowed tape.framing.depth)
    (hset : ∀ buffer offset, op = .bufferSet buffer offset →
      offset < buffer.length ∧ P ⟨buffer, offset⟩) :
    (op.run host os).2 = .ok () ∧ Carrying answer P (op.run host os).1 (op.record tape) := by
  obtain ⟨sink, hsink, hanswer⟩ := flush_some_of_answer h.answer_eq
  have hoperated := h.written.operated hsink host op
  generalize op.run host os = result at hoperated
  cases hoperated with
  | @written os' exit before after carried call flush bufferSet =>
    refine ⟨?_, carried.answer.trans h.answer_eq, after, carried.installs P ?_ ?_ h.installs⟩
    · cases op with
      | call c => exact (call c rfl).trans (hcall c rfl).recorded.1
      | flush => exact flush rfl
      | bufferSet buffer offset => exact bufferSet buffer offset rfl (hset buffer offset rfl).1
    · rintro _ hsink'
      cases hsink.symm.trans hsink'
      rw [hanswer]
      exact hP
    · exact fun buffer offset hop => (hset buffer offset hop).2
  | stops before after answer =>
    have hlive := after.sound.not_dead (answer.trans h.answer_eq) hconsuming
    have hsome : Option.isSome _ = true := congrArg Option.isSome (answer.trans h.answer_eq)
    rw [Option.isSome_map] at hsome
    exact absurd (hlive.symm.trans (after.dead_of_some hsome)) Bool.false_ne_true
  | mute before after reached silent =>
    have hdead := before.dead_of_some (by rw [hsink]; rfl)
    exact absurd (h.written.live.symm.trans hdead) Bool.false_ne_true
  | unwound broken => exact absurd hconsuming.returns (broken.not_returns h.answer_eq)

/-- Operations that are allowed all succeed and carry the run on. -/
theorem Carrying.after (h : Carrying answer P os tape) (hconsuming : answer.Consuming)
    (hP : ∀ handed buffer offset, answer handed = some (buffer, offset) → P ⟨buffer, offset⟩)
    (host : Endian) {ops : List Op} (hcalls : Allowed tape.framing.depth (callsOf ops))
    (hsets : ∀ buffer offset, .bufferSet buffer offset ∈ ops →
      offset < buffer.length ∧ P ⟨buffer, offset⟩) :
    (∀ exit ∈ (runAll host ops os).2, exit = .ok ()) ∧
      Carrying answer P (runAll host ops os).1 (drive Call.record (callsOf ops) tape).1 := by
  induction ops generalizing os tape with
  | nil => exact ⟨fun exit hmem => absurd hmem List.not_mem_nil, h⟩
  | cons op ops ih =>
    have hset (buffer : List UInt8) (offset : ℕ) (hop : op = .bufferSet buffer offset) :=
      hsets buffer offset (List.mem_cons.mpr (.inl hop.symm))
    have hcall (c : Call) (hop : op = .call c) : c.Allowed tape.framing.depth := by
      subst hop
      exact hcalls.1
    have hrest : Allowed (op.record tape).framing.depth (callsOf ops) := by
      cases op with
      | call c =>
        rw [Op.record, hcalls.1.recorded.2]
        exact hcalls.2
      | flush => exact hcalls
      | bufferSet buffer offset => exact hcalls
    obtain ⟨hok, hstep⟩ := h.step hconsuming hP host hcall hset
    obtain ⟨hoks, hlast⟩ := ih hstep hrest fun buffer offset hmem =>
      hsets buffer offset (List.mem_cons_of_mem _ hmem)
    rw [drive_callsOf]
    refine ⟨?_, hlast⟩
    intro exit hmem
    rw [runAll, drive_cons] at hmem
    rcases List.mem_cons.mp hmem with rfl | hmem
    · exact hok
    · exact hoks exit hmem

end Carry

/-- A buffer that the caller installed, or one to start at the beginning of. -/
def InstalledBy (ops : List Op) (first installed : Installation) : Prop :=
  installed = first ∨ .bufferSet installed.buffer installed.offset ∈ ops ∨ installed.offset = 0

/-- A copying sink always leaves a buffer to go on in. -/
theorem Sink.copying_consuming : Answer.Consuming Sink.copying.answer := by
  intro handed unit hne
  refine ⟨unit.buffer, 0, ?_, List.length_pos_iff.mpr hne⟩
  change (handed ++ [unit]).getLast?.map _ = _
  rw [List.getLast?_concat]
  rfl

/-- A copying sink leaves buffers to start at the beginning of. -/
theorem Sink.copying_offset {handed : List Handover} {buffer : List UInt8} {offset : ℕ}
    (h : Sink.copying.answer handed = some (buffer, offset)) : offset = 0 := by
  obtain ⟨unit, _, hunit⟩ := Option.map_eq_some_iff.mp h
  exact (congrArg Prod.snd hunit).symm

/-- For every initial buffer, every sink that always leaves a buffer to go on in, and every
placement of flushes and buffers between allowed writer calls, every operation succeeds, the
units handed over with the active buffer behind them make up what one buffer with room for
everything gets, and no byte below the start offset of an installed buffer is touched. A
copying sink is such a sink, and every slice it is given is message from its beginning unless
the caller has just installed the buffer at another offset; where no offset is given the slices
alone make up the message. -/
theorem message_independent_of_buffers (host : Endian) {buffer : List UInt8} {offset : ℕ}
    {sink : Sink} {os : OStream} (hfresh : sink.handed = [])
    (hopen : withFlush buffer offset sink = .ok os) (hsink : Answer.Consuming sink.answer)
    {ops : List Op} (hcalls : Allowed 0 (callsOf ops))
    (hsets : ∀ buffer offset, .bufferSet buffer offset ∈ ops → offset < buffer.length) :
    (∀ exit ∈ (runAll host ops os).2, exit = .ok ()) ∧
      (runAll host ops os).1.handed.flatMap Handover.message ++ (runAll host ops os).1.active =
        (unlimited host (callsOf ops)).1.message ∧
      (∀ unit ∈ (runAll host ops os).1.handed, unit.buffer.take unit.installed.offset =
        unit.installed.buffer.take unit.installed.offset) ∧
      (runAll host ops os).1.buffer.take (runAll host ops os).1.installed.offset =
        (runAll host ops os).1.installed.buffer.take (runAll host ops os).1.installed.offset ∧
      (sink = Sink.copying → ∀ unit ∈ (runAll host ops os).1.handed,
        InstalledBy ops ⟨buffer, offset⟩ unit.installed ∧
          (unit.installed.offset = 0 → unit.message = unit.buffer.take unit.used)) ∧
      (sink = Sink.copying → offset = 0 →
        (∀ buffer offset, .bufferSet buffer offset ∈ ops → offset = 0) →
          (runAll host ops os).1.handed.flatMap (fun unit => unit.buffer.take unit.used) ++
              (runAll host ops os).1.buffer.take (runAll host ops os).1.bytesUsed =
            (unlimited host (callsOf ops)).1.message) := by
  obtain ⟨rfl, _, hwritten⟩ := written_withFlush hfresh hopen
  have hhanded : (OStream.ofBuffer buffer offset (some sink)).handed = [] := hfresh
  have hrun (P : Installation → Prop) (hfirst : P ⟨buffer, offset⟩)
      (hP : ∀ handed buffer offset, sink.answer handed = some (buffer, offset) → P ⟨buffer, offset⟩)
      (hset : ∀ buffer offset, .bufferSet buffer offset ∈ ops → P ⟨buffer, offset⟩) :=
    @Carrying.after sink.answer P _ .new ⟨rfl, hwritten, .inr hfirst, by simp [hhanded]⟩ hsink hP
      host ops hcalls fun buffer offset hmem => ⟨hsets buffer offset hmem, hset buffer offset hmem⟩
  obtain ⟨hoks, hlast⟩ := hrun (fun _ => True) trivial (fun _ _ _ _ => trivial) fun _ _ _ => trivial
  refine ⟨hoks, ?_, fun unit hunit => (hlast.written.sound.handed unit hunit).below,
    hlast.written.sound.kept.below, ?_, ?_⟩
  · rw [unlimited_message]
    exact hlast.written.message
  · rintro rfl unit hunit
    have hcopying := hrun (InstalledBy ops ⟨buffer, offset⟩) (.inl rfl)
      (fun _ _ _ hanswer => .inr (.inr (Sink.copying_offset hanswer)))
      fun _ _ hmem => .inr (.inl hmem)
    refine ⟨hcopying.2.installs.2 unit hunit, fun hzero => ?_⟩
    rw [Handover.message, hzero, List.drop_zero]
  · rintro rfl hoffset hzeros
    have hzero := (hrun (·.offset = 0) hoffset (fun _ _ _ => Sink.copying_offset) hzeros).2
    have hslices : (runAll host ops (.ofBuffer buffer offset (some Sink.copying))).1.handed.flatMap
        (fun unit => unit.buffer.take unit.used) =
          (runAll host ops (.ofBuffer buffer offset (some Sink.copying))).1.handed.flatMap
            Handover.message := by
      refine List.flatMap_congr fun unit hunit => ?_
      rw [Handover.message, hzero.installs.2 unit hunit, List.drop_zero]
    have hactive : (runAll host ops (.ofBuffer buffer offset (some Sink.copying))).1.active =
        (runAll host ops (.ofBuffer buffer offset (some Sink.copying))).1.buffer.take
          (runAll host ops (.ofBuffer buffer offset (some Sink.copying))).1.bytesUsed := by
      rw [active, hzero.installs.active hzero.written.live]
      rfl
    rw [hslices, ← hactive, unlimited_message]
    exact hlast.written.message

/-- A field of two bytes through a copying sink with a buffer of one byte. -/
theorem message_independent_of_buffers_one_byte :
    (runAll .little [.call (.field (.unsigned 1 5)), .flush]
      (.ofBuffer [0] 0 (some Sink.copying))).1.handed.flatMap Handover.message ++
        (runAll .little [.call (.field (.unsigned 1 5)), .flush]
          (.ofBuffer [0] 0 (some Sink.copying))).1.active = [8, 5] :=
  (@message_independent_of_buffers .little [0] 0 Sink.copying _ rfl rfl Sink.copying_consuming
    [.call (.field (.unsigned 1 5)), .flush] ⟨⟨by decide, trivial⟩, trivial⟩
    (by simp)).2.1.trans (by decide +kernel)

end Sofab
