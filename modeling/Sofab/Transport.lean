import Sofab.RoundTrip
import Sofab.Transparency

/-!
# From one side of a transport to the other

The encoder hands its units over wherever its buffers end, and the decoder is fed chunks that end
anywhere. Neither shows: what the visitor is told are the events of the message.
-/

namespace Sofab

open Reading Steps Step OStream IStream

/-- The calls of a message record the canonical bytes of what is left of it when it is pruned. -/
theorem Message.record_bytes {m : Message} (hvalid : m.Valid) (hheight : m.height ≤ maxDepth) :
    (record m.calls).1.bytes = m.prune.encode := by
  have hroom : Tape.new.framing.depth + m.height ≤ maxDepth := by
    change 0 + _ ≤ _
    rwa [Nat.zero_add]
  rw [record, Message.record_calls hvalid hroom]
  exact congrArg Tape.bytes (m.recorded_committed 0 [])

/-- The canonical bytes of allowed calls, in any chunks, tell the visitor their events. -/
theorem Allowed.told {cs : List Call} (h : Allowed 0 cs) {chunk : List UInt8}
    {rest : List (List UInt8)} (hchunks : (chunk :: rest).flatten = cs.flatMap Call.wire) :
    (feedAll IStream.new chunk rest).result =
        .ok (if depthAfter 0 cs = 0 then .complete else .incomplete) ∧
      glue (feedAll IStream.new chunk rest).calls = cs.flatMap Call.events := by
  obtain ⟨houtcome, hcalls⟩ := h.reads
  obtain ⟨hresult, hjoined⟩ := feedAll_new_reads chunk rest
  rw [hchunks] at hresult hjoined
  have hglued := hjoined.glue fun c hc => (readFields_whole 0 _ c (List.mem_of_mem_tail hc)).2
  refine ⟨hresult.trans ?_, hglued.trans hcalls⟩
  rw [verdict, readMessage, houtcome]

/-- However the canonical bytes of a message are cut into chunks, the last feed completes it and
the glued callbacks are its events. -/
theorem Message.fed {m : Message} (hvalid : m.Valid) (hheight : m.height ≤ maxDepth)
    {chunk : List UInt8} {rest : List (List UInt8)} (hchunks : (chunk :: rest).flatten = m.encode) :
    (feedAll IStream.new chunk rest).result = .ok .complete ∧
      glue (feedAll IStream.new chunk rest).calls = m.events := by
  have hbalanced : Balanced m.calls := (balanced_iff m.calls).mpr ⟨m, hvalid, hheight, rfl⟩
  obtain ⟨hresult, hcalls⟩ := hbalanced.allowed.told (hchunks.trans m.encode_eq)
  rw [if_pos hbalanced.closed] at hresult
  exact ⟨hresult, hcalls.trans m.events_eq.symm⟩

/-- A message that is written through any buffers, with flushes and replacements anywhere between
its calls, into a sink that always leaves a buffer to go on in, and whose units then arrive in
any chunks, is decoded completely and tells the visitor its events. -/
theorem transport_exact (host : Endian) {m : Message} (hvalid : m.Valid)
    (hheight : m.height ≤ maxDepth) {buffer : List UInt8} {offset : ℕ} {sink : Sink} {os : OStream}
    (hfresh : sink.handed = []) (hopen : withFlush buffer offset sink = .ok os)
    (hsink : Answer.Consuming sink.answer) {ops : List Op} (hcalls : callsOf ops = m.calls)
    (hsets : ∀ buffer offset, .bufferSet buffer offset ∈ ops → offset < buffer.length)
    {chunk : List UInt8} {rest : List (List UInt8)}
    (hchunks : (chunk :: rest).flatten = (runAll host ops os).1.message) :
    (∀ exit ∈ (runAll host ops os).2, exit = .ok ()) ∧
      (feedAll IStream.new chunk rest).result = .ok .complete ∧
      glue (feedAll IStream.new chunk rest).calls = m.prune.events := by
  obtain ⟨rfl, _, hwritten⟩ := written_withFlush hfresh hopen
  have hallowed : Allowed 0 (callsOf ops) := by
    rw [hcalls]
    exact ((balanced_iff m.calls).mpr ⟨m, hvalid, hheight, rfl⟩).allowed
  have hhanded : (OStream.ofBuffer buffer offset (some sink)).handed = [] := hfresh
  have hcarrying : Carrying sink.answer (fun _ => True) (.ofBuffer buffer offset (some sink)) .new :=
    ⟨rfl, hwritten, .inr trivial, by simp [hhanded]⟩
  obtain ⟨hoks, hlast⟩ := hcarrying.after hsink (fun _ _ _ _ => trivial) host hallowed
    fun buffer offset hmem => ⟨hsets buffer offset hmem, trivial⟩
  have hbytes : (runAll host ops (.ofBuffer buffer offset (some sink))).1.message =
      m.prune.encode := by
    have hmessage := hlast.written.message
    rw [hcalls] at hmessage
    exact hmessage.trans (Message.record_bytes hvalid hheight)
  exact ⟨hoks, Message.fed hvalid.prune (m.height_prune.trans hheight) (hchunks.trans hbytes)⟩

/-- A field of two bytes through a buffer of one byte and in two chunks. -/
theorem transport_exact_torn :
    glue (feedAll IStream.new [8] [[5]]).calls = [.unsigned 1 5] :=
  (@transport_exact .little (.field (.unsigned 1 5) .done) ⟨by decide, trivial⟩ (by decide) [0] 0
    Sink.copying _ rfl rfl Sink.copying_consuming [.call (.field (.unsigned 1 5)), .flush] rfl
    (by simp) [8] [[5]] (by decide +kernel)).2.2

end Sofab
