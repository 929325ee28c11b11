import Sofab.Events

/-!
# Decoding undoes encoding

The canonical bytes of a message decode to a complete message with the events of what is left
of it when it is pruned.
-/

namespace Sofab

open Reading Steps OStream

namespace Message

/-- The events of a message. -/
def events : Message → List Callback
  | done => []
  | field f rest => f.events ++ rest.events
  | frame id body _ rest => .sequenceBegin id :: (body.events ++ .sequenceEnd :: rest.events)

/-- A message is encoded call by call. -/
theorem encode_eq (m : Message) : m.encode = m.calls.flatMap Call.wire := by
  induction m with
  | done => rfl
  | field f rest ih =>
    rw [encode, calls, List.flatMap_cons, ih]
    rfl
  | frame id body keep rest ihBody ihRest =>
    have hclose : (closer keep).wire = endMarker := by cases keep <;> rfl
    rw [encode, calls, List.flatMap_cons, List.flatMap_append, List.flatMap_cons, hclose, ihBody,
      ihRest]
    simp [Call.wire]

/-- The events of a message are those of its calls. -/
theorem events_eq (m : Message) : m.events = m.calls.flatMap Call.events := by
  induction m with
  | done => rfl
  | field f rest ih =>
    rw [events, calls, List.flatMap_cons, ih]
    rfl
  | frame id body keep rest ihBody ihRest =>
    have hclose : (closer keep).events = [.sequenceEnd] := by cases keep <;> rfl
    rw [events, calls, List.flatMap_cons, List.flatMap_append, List.flatMap_cons, hclose, ihBody,
      ihRest]
    rfl

/-- Pruning keeps the arguments valid. -/
theorem Valid.prune {m : Message} (h : m.Valid) : m.prune.Valid := by
  induction m with
  | done => exact h
  | field f rest ih => exact ⟨h.1, ih h.2⟩
  | frame id body keep rest ihBody ihRest =>
    rw [prune_frame]
    split
    · exact ⟨h.1, ihBody h.2.1, ihRest h.2.2⟩
    · exact ihRest h.2.2

/-- Pruning nests no deeper. -/
theorem height_prune (m : Message) : m.prune.height ≤ m.height := by
  induction m with
  | done => exact Nat.le_refl 0
  | field f rest ih => exact ih
  | frame id body keep rest ihBody ihRest =>
    rw [prune_frame]
    split
    · exact max_le_max (Nat.succ_le_succ ihBody) ihRest
    · exact ihRest.trans (Nat.le_max_right _ _)

/-- The canonical bytes of a message decode to it. -/
theorem decode_encode {m : Message} (hvalid : m.Valid) (hheight : m.height ≤ maxDepth) :
    (decode m.encode).calls = m.events ∧ (decode m.encode).result = .ok .complete := by
  rw [encode_eq, events_eq]
  exact ((balanced_iff m.calls).mpr ⟨m, hvalid, hheight, rfl⟩).decodes

end Message

/-- What the calls of a message write is a complete message for the decoder, with the events of
the calls that are left when the message is pruned. -/
theorem decode_undoes_encode (host : Endian) {m : Message} (hvalid : m.Valid)
    (hheight : m.height ≤ maxDepth) {buffer : List UInt8} {offset : ℕ} {os : OStream}
    (hopen : withOffset buffer offset = .ok os)
    (hroom : m.prune.encode.length ≤ buffer.length - offset) :
    let out := (writeAll host m.calls os).1
    let bytes := (out.buffer.take out.bytesUsed).drop offset
    (∀ exit ∈ (writeAll host m.calls os).2, exit = .ok ()) ∧
      (decode bytes).result = .ok .complete ∧ (decode bytes).calls = m.prune.events := by
  intro out bytes
  obtain ⟨hreports, hstored⟩ := Message.written host hvalid hheight hopen hroom
  have hbytes : bytes = m.prune.encode := by
    change (out.buffer.take out.bytesUsed).drop offset = _
    rw [hstored, List.drop_left' (List.length_take_of_le (withOffset_eq hopen).1)]
  obtain ⟨hcalls, hresult⟩ := Message.decode_encode hvalid.prune (m.height_prune.trans hheight)
  rw [hbytes]
  exact ⟨hreports, hresult, hcalls⟩

/-- A frame that vanishes between two fields. -/
theorem decode_undoes_encode_vanished :
    (decode [8, 5, 16, 6]).calls = [.unsigned 1 5, .unsigned 2 6] := by
  have hlaw := @decode_undoes_encode .little
    (.field (.unsigned 1 5) (.frame 3 .done false (.field (.unsigned 2 6) .done)))
    ⟨by decide, by decide, trivial, by decide, trivial⟩ (by decide) [0, 0, 0, 0] 0 _ rfl
    (by decide +kernel)
  have hbytes : (((writeAll .little (Message.field (.unsigned 1 5)
      (.frame 3 .done false (.field (.unsigned 2 6) .done))).calls
        (.ofBuffer [0, 0, 0, 0] 0 none)).1.buffer.take (writeAll .little (Message.field (.unsigned 1 5)
          (.frame 3 .done false (.field (.unsigned 2 6) .done))).calls
            (.ofBuffer [0, 0, 0, 0] 0 none)).1.bytesUsed).drop 0) = [8, 5, 16, 6] := by
    decide +kernel
  have hcalls := hlaw.2.2
  rw [hbytes] at hcalls
  exact hcalls

end Sofab
