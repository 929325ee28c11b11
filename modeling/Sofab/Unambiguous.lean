import Sofab.Replay
import Sofab.Transport

/-!
# One spelling for each content

The bytes of a message decide its events, and the events decide the bytes. A writer with another
name, a frame that vanishes or another integer width is no other content.
-/

namespace Sofab

open OStream

/-- Replaying gives a call with the bytes of the one that the events are of. -/
def Call.Replays (call : Call) : Prop :=
  ∃ call' : Call, (∀ more, replay (call.events ++ more) = call' :: replay more) ∧
    call'.wire = call.wire

/-- Replaying an array gives an array write with its elements. -/
theorem replays_array {f : Field} {id : Id} {kind : ArrayKind} {elements : List Callback} {count : ℕ}
    (hevents : f.events = .arrayBegin id kind count :: elements) (hlen : elements.length = count)
    (hbytes : (arrayField id kind elements).bytes = f.bytes) : (Call.field f).Replays := by
  refine ⟨.field (arrayField id kind elements), fun more => ?_, hbytes⟩
  rw [Call.events, hevents, List.cons_append]
  exact replay_array id kind elements hlen more

/-- Replaying a fixlen field gives a fixlen write with its payload. -/
theorem replays_fixlen {f : Field} {id : Id} {subtype : FixlenType} {total : ℕ} {payload : Callback}
    (hevents : f.events = [.fixlenBegin id subtype total, payload])
    (hbytes : fixlenBytes id (payloadBytes payload) subtype = f.bytes) : (Call.field f).Replays := by
  refine ⟨.field (.fixlen id (payloadBytes payload) subtype), fun more => ?_, hbytes⟩
  rw [Call.events, hevents]
  change replay (.fixlenBegin id subtype total :: payload :: more) = _
  rw [replay]

/-- A valid field is replayed with its bytes. -/
theorem Field.replays {f : Field} (hvalid : f.Valid) : (Call.field f).Replays := by
  cases f with
  | unsigned id value =>
    refine ⟨.field (.unsigned id value), fun more => ?_, rfl⟩
    change replay (.unsigned id value :: more) = _
    rw [replay]
  | signed id value =>
    refine ⟨.field (.signed id value), fun more => ?_, rfl⟩
    change replay (.signed id value :: more) = _
    rw [replay]
  | boolean id value =>
    refine ⟨.field (.unsigned id value.toUInt64), fun more => ?_, ?_⟩
    · change replay (.unsigned id value.toUInt64 :: more) = _
      rw [replay]
    · cases value <;> rfl
  | fp32 id value => exact replays_fixlen rfl rfl
  | fp64 id value => exact replays_fixlen rfl rfl
  | str id text => exact replays_fixlen rfl rfl
  | blob id data => exact replays_fixlen rfl rfl
  | fixlen id data subtype =>
    obtain ⟨_, hagrees, _⟩ := hvalid
    cases subtype with
    | fp32 =>
      have hpayload : payloadBytes (.float false id data) = data := payloadBytes_float id hagrees
      exact replays_fixlen rfl (congrArg (fixlenBytes id · .fp32) hpayload)
    | fp64 =>
      have hpayload : payloadBytes (.float true id data) = data := payloadBytes_float id hagrees
      exact replays_fixlen rfl (congrArg (fixlenBytes id · .fp64) hpayload)
    | str => exact replays_fixlen rfl rfl
    | blob => exact replays_fixlen rfl rfl
  | @arrayUnsigned α _ id data =>
    refine replays_array rfl (List.length_map _) ?_
    have hvalues : (data.map fun e => Callback.unsigned id (UnsignedElem.widen e)).map unsignedValue =
        data.map UnsignedElem.widen := List.map_map
    have hwiden : (data.map UnsignedElem.widen).map UnsignedElem.widen =
        data.map UnsignedElem.widen := List.map_id _
    rw [arrayField, hvalues, bytes, bytes, hwiden]
  | @arraySigned α _ id data =>
    refine replays_array rfl (List.length_map _) ?_
    have hvalues : (data.map fun e => Callback.signed id (SignedElem.widen e)).map signedValue =
        data.map SignedElem.widen := List.map_map
    have hwiden : ((data.map SignedElem.widen).map fun e => zigzagEncode (SignedElem.widen e)) =
        data.map fun e => zigzagEncode (SignedElem.widen e) := List.map_map
    rw [arrayField, hvalues, bytes, bytes, hwiden]
  | arrayFp32 id data =>
    refine replays_array rfl (List.length_map _) ?_
    have hvalues : (data.map (Callback.fp32 id)).map f32Value = data :=
      Function.LeftInverse.list_map (fun _ => rfl) data
    rw [arrayField, hvalues]
  | arrayFp64 id data =>
    refine replays_array rfl (List.length_map _) ?_
    have hvalues : (data.map (Callback.fp64 id)).map f64Value = data :=
      Function.LeftInverse.list_map (fun _ => rfl) data
    rw [arrayField, hvalues]

/-- An allowed call is replayed with its bytes. -/
theorem Call.Allowed.replays {call : Call} {depth : ℕ} (h : call.Allowed depth) : call.Replays := by
  cases call with
  | field f => exact Field.replays h
  | sequenceBeginLazy id =>
    refine ⟨.sequenceBeginLazy id, fun more => ?_, rfl⟩
    change replay (.sequenceBegin id :: more) = _
    rw [replay]
  | _ =>
    refine ⟨.sequenceEndKeep, fun more => ?_, rfl⟩
    change replay (.sequenceEnd :: more) = _
    rw [replay]

/-- The events of allowed calls decide their bytes. -/
theorem Allowed.replayed {cs : List Call} {depth : ℕ} (h : Allowed depth cs) :
    (replay (cs.flatMap Call.events)).flatMap Call.wire = cs.flatMap Call.wire := by
  induction cs generalizing depth with
  | nil =>
    rw [List.flatMap_nil, replay, List.flatMap_nil]
  | cons call cs ih =>
    obtain ⟨call', hreplay, hwire⟩ := h.1.replays
    rw [List.flatMap_cons, hreplay, List.flatMap_cons, List.flatMap_cons, hwire, ih h.2]

/-- The events of a message decide its bytes. -/
theorem Message.encode_eq_replay {m : Message} (hvalid : m.Valid) (hheight : m.height ≤ maxDepth) :
    m.encode = (replay m.events).flatMap Call.wire := by
  have hallowed := ((balanced_iff m.calls).mpr ⟨m, hvalid, hheight, rfl⟩).allowed
  rw [m.events_eq, hallowed.replayed, m.encode_eq]

/-- Two messages, written on hosts of any byte orders, have the same bytes exactly if what is left
of them when they are pruned has the same events. -/
theorem same_bytes_iff_same_events (host host' : Endian) {m m' : Message} (hvalid : m.Valid)
    (hvalid' : m'.Valid) (hheight : m.height ≤ maxDepth) (hheight' : m'.height ≤ maxDepth) :
    (unlimited host m.calls).1.message = (unlimited host' m'.calls).1.message ↔
      m.prune.events = m'.prune.events := by
  have hpruned := m.height_prune.trans hheight
  have hpruned' := m'.height_prune.trans hheight'
  rw [unlimited_message, unlimited_message, Message.record_bytes hvalid hheight,
    Message.record_bytes hvalid' hheight']
  constructor
  · intro hsame
    rw [← (Message.decode_encode hvalid.prune hpruned).1, hsame,
      (Message.decode_encode hvalid'.prune hpruned').1]
  · intro hsame
    rw [Message.encode_eq_replay hvalid.prune hpruned, hsame,
      ← Message.encode_eq_replay hvalid'.prune hpruned']

/-- A boolean in front of a frame that vanishes, and a number. -/
theorem same_bytes_iff_same_events_boolean :
    (unlimited .big (Message.field (.boolean 1 true) (.frame 2 .done false .done)).calls).1.message =
      (unlimited .little (Message.field (.unsigned 1 1) .done).calls).1.message :=
  (@same_bytes_iff_same_events .big .little (.field (.boolean 1 true) (.frame 2 .done false .done))
    (.field (.unsigned 1 1) .done) ⟨by decide, by decide, trivial, trivial⟩ ⟨by decide, trivial⟩
    (by decide) (by decide)).mpr rfl

end Sofab
