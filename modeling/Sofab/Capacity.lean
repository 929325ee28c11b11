import Sofab.Runs

/-!
# A stream without a sink

The law of the capacity. In its only buffer a stream keeps exactly the longest prefix of the
message that fits. Calls report what they would report with room for everything up to the
call whose bytes cross the end of the buffer, and none after it stores a byte.
-/

namespace Sofab

open Steps Step OStream

/-- Where in the message the bytes of the `i`th call begin, and those of the call before it
end. -/
def position (host : Endian) (calls : List Call) (i : ℕ) : ℕ :=
  (unlimited host (calls.take i)).1.message.length

/-- The position of a call is the number of bytes recorded before it. -/
theorem position_eq (host : Endian) (calls : List Call) (i : ℕ) :
    position host calls i = (record (calls.take i)).1.bytes.length := by
  rw [position, unlimited_message]

/-! ## What the buffer holds -/

section Storing

variable {os os' : OStream}

/-- The buffer up to the cursor holds what was below the start offset, and the message. -/
theorem Sound.stored (h : Sound os) (hnone : os.flush_ = none) :
    os.buffer.take os.offset = os.installed.buffer.take os.installed.offset ++ os.message := by
  have hbelow : (os.buffer.take os.offset).take os.installed.offset =
      os.installed.buffer.take os.installed.offset := by
    rw [List.take_take, Nat.min_eq_left h.kept.start, h.kept.below]
  rw [message_of_flush_none hnone, active, ← hbelow, List.take_append_drop]

/-- A full buffer is left as it is. -/
theorem Reached.full (hsound : Sound os) (h : Reached os os' []) (hnone : os.flush_ = none)
    (hfull : os.offset = os.end_) : os'.buffer = os.buffer ∧ os'.offset = os.offset := by
  obtain ⟨hend, hoffset⟩ := h.room_eq hsound hnone
  have hstored := hsound.stored hnone
  have hstored' := h.sound.stored (h.flush_none hnone)
  rw [hfull, hsound.end_eq, List.take_length] at hstored
  rw [hoffset, List.length_nil, Nat.add_zero, hfull, ← hend, h.sound.end_eq, List.take_length,
    h.sinkless hnone, h.message, List.append_nil] at hstored'
  exact ⟨hstored'.trans hstored.symm, hoffset⟩

end Storing

/-! ## The law -/

section Law

variable {buffer : List UInt8} {offset : ℕ} {os : OStream}

/-- How the `i`th call of a run goes, by where its bytes lie in the message. -/
structure Placed (host : Endian) (calls : List Call) (os : OStream) (capacity i : ℕ)
    (hi : i < calls.length) : Prop where
  fits : position host calls (i + 1) ≤ capacity →
    (writeAll host calls os).2[i]? = (unlimited host calls).2[i]?
  crosses : position host calls i ≤ capacity → capacity < position host calls (i + 1) →
    (writeAll host calls os).2[i]? = some (.err .bufferFull)
  silent : capacity < position host calls i →
    (writeAll host (calls.take (i + 1)) os).1.buffer = (writeAll host (calls.take i) os).1.buffer ∧
      (writeAll host (calls.take (i + 1)) os).1.bytesUsed =
        (writeAll host (calls.take i) os).1.bytesUsed
  refused : capacity < position host calls i → ∀ f : Field, calls[i] = .field f → f.Valid →
    (writeAll host calls os).2[i]? = some (.err .bufferFull)

/-- Every call of a run is placed by its bytes. -/
theorem Bounded.placed {installed : Installation} (h : Bounded os installed .new) (host : Endian)
    (calls : List Call) {i : ℕ} (hi : i < calls.length) :
    Placed host calls os installed.capacity i hi := by
  have hbefore := h.after host (calls.take i)
  have hcapped := hbefore.capped host calls[i]
  have hstate := drive_take_succ (Call.write host) calls os hi
  have hreport := drive_report (Call.write host) calls os hi
  have htape := drive_take_succ Call.record calls .new hi
  have hwhole : (unlimited host calls).2[i]? =
      some (calls[i].record (record (calls.take i)).1).2 := by
    rw [unlimited_reports]
    exact drive_report Call.record calls .new hi
  have hgrow : (record (calls.take i)).1.bytes.length ≤
      (calls[i].record (record (calls.take i)).1).1.bytes.length := by
    obtain ⟨more, hmore⟩ := calls[i].record_bytes (record (calls.take i)).1
    rw [hmore, List.length_append]
    exact Nat.le_add_right _ _
  change (writeAll host (calls.take (i + 1)) os).1 =
    (calls[i].write host (writeAll host (calls.take i) os).1).1 at hstate
  change (writeAll host calls os).2[i]? =
    some (calls[i].write host (writeAll host (calls.take i) os).1).2 at hreport
  change (record (calls.take (i + 1))).1 = (calls[i].record (record (calls.take i)).1).1 at htape
  change Capped _ _ (record (calls.take i)).1 _ _ at hcapped
  have hstart := position_eq host calls i
  have hstop := position_eq host calls (i + 1)
  rw [htape] at hstop
  generalize calls[i].write host (writeAll host (calls.take i) os).1 = result at *
  cases hcapped with
  | written before bounded after =>
    have hle := before.sound.message_length hbefore.sinkless
    have hle' := after.sound.message_length bounded.sinkless
    rw [before.message, hbefore.installed_eq] at hle
    rw [after.message, bounded.installed_eq] at hle'
    refine ⟨fun _ => hreport.trans hwhole.symm, fun _ hover => ?_, fun hover => ?_, fun hover => ?_⟩
    all_goals omega
  | stops before bounded after =>
    have hle := before.sound.message_length hbefore.sinkless
    have hover := after.capacity_lt bounded.sinkless
    rw [before.message, hbefore.installed_eq] at hle
    rw [bounded.installed_eq] at hover
    refine ⟨fun hfits => ?_, fun _ _ => hreport, fun hlater => ?_, fun hlater => ?_⟩
    all_goals omega
  | mute before bounded reached field =>
    have hover := before.capacity_lt hbefore.sinkless
    rw [hbefore.installed_eq] at hover
    have hfull := (before.spent.resolve_left fun hdead => by
      have hsome := before.sound.isSome_of_dead hdead
      rw [hbefore.sinkless] at hsome
      cases hsome).2
    refine ⟨fun hfits => ?_, fun hfits _ => ?_, fun _ => ?_, fun _ f hf hvalid => ?_⟩
    · omega
    · omega
    · rw [hstate]
      exact reached.full before.sound hbefore.sinkless hfull
    · rw [hreport, field f hf hvalid]

/-- Without a sink the buffer keeps the longest prefix of the message that fits, calls whose
bytes fit report what they do with room for everything, and the call whose bytes cross the end
of the buffer and every field write behind it report that the buffer is full. -/
theorem sinkless_prefix_law (host : Endian) (hopen : withOffset buffer offset = .ok os)
    (calls : List Call) :
    (writeAll host calls os).1.buffer.take (writeAll host calls os).1.bytesUsed =
        buffer.take offset ++ (unlimited host calls).1.message.take (buffer.length - offset) ∧
      ((unlimited host calls).1.message.length ≤ buffer.length - offset →
        (writeAll host calls os).2 = (unlimited host calls).2) ∧
      ∀ i (hi : i < calls.length), Placed host calls os (buffer.length - offset) i hi := by
  have hbounded := bounded_withOffset hopen
  have hlast := hbounded.after host calls
  refine ⟨?_, fun hfits => ?_, fun i hi => hbounded.placed host calls hi⟩
  · have hstored : (writeAll host calls os).1.buffer.take (writeAll host calls os).1.bytesUsed = _ :=
      (hlast.state.elim Written.sound Stopped.sound).stored hlast.sinkless
    rw [hstored, hlast.installed_eq, hlast.message_eq, unlimited_message]
    rfl
  · rw [unlimited_message] at hfits
    rw [hbounded.reports host calls hfits, unlimited_reports]
    rfl

/-- A field of two bytes in a buffer with room for one of them. -/
theorem sinkless_prefix_law_one_byte :
    (writeAll .little [.field (.unsigned 1 5)] (.ofBuffer [9, 0] 1 none)).1.buffer.take 2 = [9, 8] ∧
      (writeAll .little [.field (.unsigned 1 5)] (.ofBuffer [9, 0] 1 none)).2[0]? =
        some (.err .bufferFull) := by
  obtain ⟨hstored, _, hplaced⟩ :=
    @sinkless_prefix_law [9, 0] 1 _ .little rfl [.field (.unsigned 1 5)]
  have hused : (writeAll .little [.field (.unsigned 1 5)] (.ofBuffer [9, 0] 1 none)).1.bytesUsed = 2 := by
    decide +kernel
  have hbytes : ([9, 0] : List UInt8).take 1 ++
      (unlimited .little [.field (.unsigned 1 5)]).1.message.take 1 = [9, 8] := by
    decide +kernel
  rw [hused] at hstored
  exact ⟨hstored.trans hbytes,
    (hplaced 0 Nat.zero_lt_one).crosses (by decide +kernel) (by decide +kernel)⟩

end Law

end Sofab
