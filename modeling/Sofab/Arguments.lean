import Sofab.Operations

/-!
# Refused arguments

Every writer, and the installation of a buffer, judges its arguments before it touches the
stream: the order of its checks never matters, because a refusal leaves the stream as it was.
-/

namespace Sofab

open Steps Step OStream

/-- An operation whose arguments are refused in the state of the stream. -/
inductive RefusedArgument (os : OStream) : Op → Prop
  | fieldId {f : Field} (hid : idMax < f.id.toNat) : RefusedArgument os (.call (.field f))
  | fieldSize {f : Field} (hsize : ¬f.Fits) : RefusedArgument os (.call (.field f))
  | sequenceId {id : Id} (hid : idMax < id.toNat) :
      RefusedArgument os (.call (.sequenceBeginLazy id))
  | sequenceDepth {id : Id} (hdepth : maxDepth ≤ os.depth) :
      RefusedArgument os (.call (.sequenceBeginLazy id))
  | endUnopened (hdepth : os.depth = 0) : RefusedArgument os (.call .sequenceEnd)
  | keepUnopened (hdepth : os.depth = 0) : RefusedArgument os (.call .sequenceEndKeep)
  | bufferOffset {buffer : List UInt8} {offset : ℕ} (hoffset : buffer.length < offset) :
      RefusedArgument os (.bufferSet buffer offset)
  | bufferCapacity {buffer : List UInt8} {offset : ℕ} (hsink : os.flush_.isSome = true)
      (hcapacity : buffer.length < offset + minOutputBuffer) :
      RefusedArgument os (.bufferSet buffer offset)

variable {os : OStream}

/-- Opening a sequence too deep, or under an id out of range, is refused and changes nothing. -/
theorem sequenceBegin_refused {id : Id} (h : maxDepth ≤ os.depth ∨ idMax < id.toNat) :
    writeSequenceBeginLazy id os = (os, .err .argument) := by
  rw [writeSequenceBeginLazy, self_bind]
  split
  · rfl
  · next hdepth =>
    rw [if_pos (h.resolve_left hdepth)]
    rfl

/-- A buffer is judged before anything is drained. -/
theorem bufferSet_unfit {buffer : List UInt8} {offset : ℕ}
    (h : buffer.length < offset ∨
      os.flush_.isSome = true ∧ buffer.length < offset + minOutputBuffer) :
    bufferSet buffer offset os = (os, .err .argument) := by
  rw [bufferSet, self_bind]
  split
  · rfl
  rw [checkOffsetInRange]
  by_cases hinside : offset ≤ buffer.length
  · obtain ⟨hsink, hcapacity⟩ := h.resolve_left (Nat.not_lt.mpr hinside)
    have hroom : ¬offset < buffer.length := by
      have hmin : minOutputBuffer = 1 := rfl
      omega
    rw [if_pos hinside, ofExcept_bind_ok, self_bind, if_pos hsink,
      checkStreamingCapacity_of_not_lt hroom, ofExcept_bind_error]
  · rw [if_neg hinside, ofExcept_bind_error]

/-- A refused argument is reported and changes nothing. -/
theorem RefusedArgument.run {op : Op} (h : RefusedArgument os op) (host : Endian) :
    op.run host os = (os, .err .argument) := by
  have hfield {f : Field} (hinvalid : ¬f.Valid) :
      (Op.call (.field f)).run host os = (os, .err .argument) := by
    rw [Op.run, Call.write, Field.write_refused host hinvalid]
    rfl
  cases h with
  | fieldId hid => exact hfield fun hvalid => Nat.not_lt.mpr hvalid.1 hid
  | fieldSize hsize => exact hfield fun hvalid => hsize hvalid.2
  | sequenceId hid => exact sequenceBegin_refused (.inr hid)
  | sequenceDepth hdepth => exact sequenceBegin_refused (.inl hdepth)
  | endUnopened hdepth =>
    rw [Op.run, Call.write, writeSequenceEnd, self_bind, if_pos hdepth]
    rfl
  | keepUnopened hdepth =>
    rw [Op.run, Call.write, writeSequenceEndKeep, self_bind, if_pos hdepth]
    rfl
  | bufferOffset hoffset => exact bufferSet_unfit (.inl hoffset)
  | bufferCapacity hsink hcapacity => exact bufferSet_unfit (.inr ⟨hsink, hcapacity⟩)

/-- An operation with refused arguments says so and leaves the stream, its sink included, as it
was. Whatever comes after it goes as if it had never been made: the stream is the same at
every later point, and so is every report. -/
theorem refused_argument_leaves_no_trace (host : Endian) {op : Op} (h : RefusedArgument os op)
    (after : List Op) :
    op.run host os = (os, .err .argument) ∧
      (runAll host (op :: after) os).2 = .err .argument :: (runAll host after os).2 ∧
      ∀ i, stateAt host (op :: after) os (i + 1) = stateAt host after os i := by
  have hrun := h.run host
  refine ⟨hrun, ?_, fun i => ?_⟩
  · rw [runAll, drive_cons, hrun]
    rfl
  · rw [stateAt, List.take_succ_cons, runAll, drive_cons, hrun]
    rfl

/-- Two sequences are held back when a field is refused for its id, and a field follows. -/
theorem refused_argument_leaves_no_trace_held :
    let os := stateAt .little [.call (.sequenceBeginLazy 1), .call (.sequenceBeginLazy 2)]
      (.new [0, 0, 0, 0]) 2
    (runAll .little [.call (.field (.unsigned 0xFFFFFFFF 0)), .call (.field (.unsigned 0 5))] os).2 =
      [.err .argument, .ok ()] := by
  intro os
  have htrace := @refused_argument_leaves_no_trace os .little _
    (@RefusedArgument.fieldId os (.unsigned 0xFFFFFFFF 0) (by decide)) [.call (.field (.unsigned 0 5))]
  rw [htrace.2.1]
  decide +kernel

end Sofab
