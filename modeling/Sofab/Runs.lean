import Sofab.Writers

/-!
# Runs of writer calls

A stream follows the tape that records the same calls: as long as every byte can be written
the message of the stream is what is on the tape, and a stream that is stopped keeps the
prefix it has. A run over a buffer with room for all its calls is never stopped.
-/

namespace Sofab

open Steps Step OStream

/-- The stream has written what is on the tape. -/
structure Written (os : OStream) (tape : Tape) : Prop where
  sound : Sound os
  live : os.dead = false
  framed : Framed os tape.framing
  message : os.message = tape.bytes

/-- The stream can write no byte any more, and has written a prefix of what is on the tape. -/
structure Stopped (os : OStream) (tape : Tape) : Prop where
  sound : Sound os
  spent : os.Spent
  framed : SomeFraming os
  message : ∃ rest, tape.bytes = os.message ++ rest ∧ (os.flush_ = none → rest ≠ [])

/-- In the framing of the stream the call adds no byte. -/
def Silent (os : OStream) (call : Call) : Prop :=
  ∃ φ φ', Framed os φ ∧ call.emit φ = .ok (φ', [])

/-- A call that the tape records: the stream goes on, it stops, it stays stopped, or the sink
unwinds. -/
inductive Followed (os : OStream) (tape : Tape) (call : Call) :
    OStream × Exit Error Unit → Prop
  | written {os' : OStream} (bytes : List UInt8) (reached : Reached os os' bytes)
      (after : Written os' (call.record tape).1) : Followed os tape call (os', (call.record tape).2)
  | stops {os' : OStream} (bytes : List UInt8) (reached : Reached os os' bytes)
      (after : Stopped os' (call.record tape).1) :
      Followed os tape call (os', .err os'.stopError)
  | unwound {os' : OStream} (broken : Broken os os') : Followed os tape call (os', .unwound)

/-- A call on a stopped stream. -/
inductive Mute (os : OStream) (call : Call) : OStream × Exit Error Unit → Prop
  | silent {os' : OStream} (silent : Silent os call) (reached : Reached os os' [])
      (framed : SomeFraming os') : Mute os call (os', .ok ())
  | stopped {os' : OStream} (reached : Reached os os' []) (framed : SomeFraming os') :
      Mute os call (os', .err os'.stopError)
  | refused {φ : Framing} (framed : Framed os φ) (emit : call.emit φ = .error .argument) :
      Mute os call (os, .err .argument)
  | unwound {os' : OStream} (broken : Broken os os') : Mute os call (os', .unwound)

section Following

variable {os os' : OStream} {tape : Tape} {bytes : List UInt8}

/-- A stream that no byte can be written to stays so. -/
theorem Reached.spent (hsound : Sound os) (h : Reached os os' []) (hspent : os.Spent) :
    os'.Spent := by
  rcases hspent with hdead | ⟨hnone, hfull⟩
  · exact .inl (h.dead hdead).1
  · obtain ⟨hend, hoffset⟩ := h.room_eq hsound hnone
    exact .inr ⟨h.flush_none hnone, by rw [hoffset, hend]; exact hfull⟩

/-- A stream that has written everything follows the next call. -/
theorem Written.followed (h : Written os tape) (host : Endian) (call : Call) :
    Followed os tape call (call.write host os) := by
  have hwrote := call.write_wrote host h.sound h.framed
  generalize call.write host os = result at hwrote
  cases hwrote with
  | @emitted φ' bytes result hemit hemits =>
    have hrecord := Call.record_ok hemit
    cases hemits with
    | @ok os' reached dead framed =>
      have hwritten : Written os' (call.record tape).1 := by
        rw [hrecord]
        exact ⟨reached.sound, dead.trans h.live, framed, by rw [reached.message, h.message]⟩
      have hfollowed := Followed.written bytes reached hwritten
      rwa [hrecord] at hfollowed
    | @stopped os' k reached short spent framed =>
      refine .stops _ reached ⟨reached.sound, spent, framed, bytes.drop k, ?_, fun _ hnil => ?_⟩
      · rw [hrecord, reached.message, h.message, List.append_assoc, List.take_append_drop]
      · have hlen := congrArg List.length hnil
        rw [List.length_drop, List.length_nil] at hlen
        omega
    | unwound broken => exact .unwound broken
  | refused hemit =>
    have hrecord := Call.record_error hemit
    have hfollowed := @Followed.written os tape call _ [] (Reached.refl h.sound)
      (by rw [hrecord]; exact h)
    rwa [hrecord] at hfollowed

/-- Calls that all return have written what they record. -/
theorem Written.of_oks (h : Written os tape) (host : Endian) {calls : List Call}
    (hoks : ∀ exit ∈ (writeAll host calls os).2, exit = .ok ()) :
    Written (writeAll host calls os).1 (drive Call.record calls tape).1 ∧
      ∀ exit ∈ (drive Call.record calls tape).2, exit = .ok () := by
  induction calls generalizing os tape with
  | nil => exact ⟨h, hoks⟩
  | cons call calls ih =>
    obtain ⟨hok, hlater⟩ := List.forall_mem_cons.mp hoks
    have hfollowed := h.followed host call
    rw [Sofab.writeAll, drive_cons, drive_cons]
    change (call.write host os).2 = .ok () at hok
    change ∀ exit ∈ (writeAll host calls (call.write host os).1).2, exit = .ok () at hlater
    generalize call.write host os = result at hfollowed hok hlater
    cases hfollowed with
    | written bytes reached after =>
      obtain ⟨hwritten, hrecorded⟩ := ih after hlater
      exact ⟨hwritten, List.forall_mem_cons.mpr ⟨hok, hrecorded⟩⟩
    | stops bytes reached after => cases hok
    | unwound broken => cases hok

/-- A spent stream stays mute. -/
theorem mute_of_spent (hsound : Sound os) (hspent : os.Spent) (hframed : SomeFraming os)
    (host : Endian) (call : Call) : Mute os call (call.write host os) := by
  obtain ⟨φ, hφ⟩ := hframed
  have hwrote := call.write_wrote host hsound hφ
  generalize call.write host os = result at hwrote
  cases hwrote with
  | @emitted φ' bytes result hemit hemits =>
    cases hemits with
    | ok reached dead framed =>
      have hnil := reached.nil_of_spent hsound hspent
      subst hnil
      exact .silent ⟨φ, φ', hφ, hemit⟩ reached ⟨φ', framed⟩
    | stopped k reached short spent framed =>
      have hnil := reached.nil_of_spent hsound hspent
      rw [hnil] at reached
      exact .stopped reached framed
    | unwound broken => exact .unwound broken
  | refused hemit => exact .refused hφ hemit

/-- A stopped stream stays stopped whatever is recorded. -/
theorem Stopped.of_reached (h : Stopped os tape) {tape' : Tape} (hreached : Reached os os' [])
    (hframed : SomeFraming os') (htape : tape.bytes <+: tape'.bytes) : Stopped os' tape' := by
  obtain ⟨rest, hrest, hne⟩ := h.message
  obtain ⟨more, hmore⟩ := htape
  refine ⟨hreached.sound, hreached.spent h.sound h.spent, hframed, rest ++ more, ?_, ?_⟩
  · rw [hreached.message, List.append_nil, ← hmore, hrest, List.append_assoc]
  · intro hnone happend
    have hnone' : os.flush_ = none := by
      have hanswer := hreached.answer
      rw [hnone] at hanswer
      exact Option.map_eq_none_iff.mp hanswer.symm
    exact hne hnone' (List.append_eq_nil_iff.mp happend).1

end Following

/-! ## Without a sink -/

section Sinkless

variable {os os' : OStream} {tape : Tape}

/-- Without a sink nothing unwinds. -/
theorem Broken.absurd (h : Broken os os') (hnone : os.flush_ = none) : False := by
  obtain ⟨sink, hsink, _⟩ := h.unanswered
  have hanswer := h.answer
  rw [hnone, hsink] at hanswer
  cases hanswer

/-- The room a buffer offers to the message. -/
def Installation.capacity (installed : Installation) : ℕ :=
  installed.buffer.length - installed.offset

/-- Without a sink the message is no longer than the buffer has room for. -/
theorem Sound.message_length (h : Sound os) (hnone : os.flush_ = none) :
    os.message.length ≤ os.installed.capacity := by
  have hinside := h.kept.inside
  rw [message_of_flush_none hnone, h.active_length, Installation.capacity, ← h.kept.size]
  omega

/-- Without a sink a stream stops only when the buffer is full. -/
theorem Stopped.message_length (h : Stopped os tape) (hnone : os.flush_ = none) :
    os.message.length = os.installed.capacity := by
  rcases h.spent with hdead | ⟨_, hfull⟩
  · have hsome := h.sound.isSome_of_dead hdead
    rw [hnone] at hsome
    cases hsome
  · rw [message_of_flush_none hnone, h.sound.active_length, Installation.capacity,
      ← h.sound.kept.size, ← h.sound.end_eq, hfull]

/-- Without a sink a stream stops only short of what it was to write. -/
theorem Stopped.capacity_lt (h : Stopped os tape) (hnone : os.flush_ = none) :
    os.installed.capacity < tape.bytes.length := by
  obtain ⟨rest, hrest, hne⟩ := h.message
  have hpos := List.length_pos_iff.mpr (hne hnone)
  rw [hrest, List.length_append, h.message_length hnone]
  omega

/-- A stream without a sink in a run over its only buffer. -/
structure Bounded (os : OStream) (installed : Installation) (tape : Tape) : Prop where
  sinkless : os.flush_ = none
  installed_eq : os.installed = installed
  state : Written os tape ∨ Stopped os tape

variable {installed : Installation}

/-- The stream has written the bytes on the tape as far as they fit. -/
theorem Bounded.message_eq (h : Bounded os installed tape) :
    os.message = tape.bytes.take installed.capacity := by
  rw [← h.installed_eq]
  rcases h.state with hwritten | hstopped
  · have hlen := hwritten.sound.message_length h.sinkless
    rw [hwritten.message] at hlen ⊢
    exact (List.take_of_length_le hlen).symm
  · obtain ⟨rest, hrest, _⟩ := hstopped.message
    rw [hrest, ← hstopped.message_length h.sinkless, List.take_left]

/-- What fits the buffer is written. -/
theorem Bounded.written (h : Bounded os installed tape) (hfits : tape.bytes.length ≤ installed.capacity) :
    Written os tape := by
  refine h.state.resolve_right fun hstopped => ?_
  have hlt := hstopped.capacity_lt h.sinkless
  rw [h.installed_eq] at hlt
  exact Nat.not_lt.mpr hfits hlt

/-- What does not fit it stops the stream. -/
theorem Bounded.stopped (h : Bounded os installed tape) (hover : installed.capacity < tape.bytes.length) :
    Stopped os tape := by
  refine h.state.resolve_left fun hwritten => ?_
  have hlen := hwritten.sound.message_length h.sinkless
  rw [hwritten.message, h.installed_eq] at hlen
  exact Nat.not_lt.mpr hlen hover

/-- Without a sink a run goes on in its only buffer. -/
theorem Reached.bounded {bytes : List UInt8} (hreached : Reached os os' bytes)
    (hnone : os.flush_ = none) (hinstalled : os.installed = installed) {tape' : Tape}
    (hstate : Written os' tape' ∨ Stopped os' tape') : Bounded os' installed tape' :=
  ⟨hreached.flush_none hnone, (hreached.sinkless hnone).trans hinstalled, hstate⟩

/-- What a call does to a stream without a sink. -/
inductive Capped (os : OStream) (installed : Installation) (tape : Tape) (call : Call) :
    OStream × Exit Error Unit → Prop
  | written {os' : OStream} (before : Written os tape) (bounded : Bounded os' installed (call.record tape).1)
      (after : Written os' (call.record tape).1) : Capped os installed tape call (os', (call.record tape).2)
  | stops {os' : OStream} (before : Written os tape)
      (bounded : Bounded os' installed (call.record tape).1)
      (after : Stopped os' (call.record tape).1) :
      Capped os installed tape call (os', .err .bufferFull)
  | mute {os' : OStream} {exit : Exit Error Unit} (before : Stopped os tape)
      (bounded : Bounded os' installed (call.record tape).1) (reached : Reached os os' [])
      (field : ∀ f : Field, call = .field f → f.Valid → exit = .err .bufferFull) :
      Capped os installed tape call (os', exit)

/-- A field has at least one byte. -/
theorem Field.bytes_ne_nil (f : Field) : f.bytes ≠ [] := by
  have hheader (id : Id) (wireType : ℕ) (more : List UInt8) : headerBytes id wireType ++ more ≠ [] :=
    List.append_ne_nil_of_left_ne_nil (Leb128.encode_ne_nil _) more
  cases f with
  | unsigned id value => exact hheader _ _ _
  | signed id value => exact hheader _ _ _
  | boolean id value => exact hheader _ _ _
  | _ =>
    simp only [bytes, fixlenBytes, integersBytes, floatsBytes, List.append_assoc]
    exact hheader _ _ _

/-- A field write with valid arguments is never silent. -/
theorem not_silent_field {f : Field} (hvalid : f.Valid) : ¬Silent os (.field f) := by
  rintro ⟨φ, φ', _, hemit⟩
  rw [Call.emit, if_pos hvalid] at hemit
  injection hemit with hpair
  exact f.bytes_ne_nil (List.append_eq_nil_iff.mp (congrArg Prod.snd hpair)).2

/-- A call on a stream without a sink does one of these things. -/
theorem Bounded.capped (h : Bounded os installed tape) (host : Endian) (call : Call) :
    Capped os installed tape call (call.write host os) := by
  rcases h.state with hwritten | hstopped
  · have hfollowed := hwritten.followed host call
    generalize call.write host os = result at hfollowed
    cases hfollowed with
    | written bytes reached after =>
      exact .written hwritten (reached.bounded h.sinkless h.installed_eq (.inl after)) after
    | @stops os' bytes reached after =>
      have hbounded := reached.bounded h.sinkless h.installed_eq (.inr after)
      rw [stopError_of_none hbounded.sinkless]
      exact .stops hwritten hbounded after
    | unwound broken => exact (broken.absurd h.sinkless).elim
  · have hmute := mute_of_spent hstopped.sound hstopped.spent hstopped.framed host call
    have htape : tape.bytes <+: (call.record tape).1.bytes := by
      obtain ⟨more, hmore⟩ := call.record_bytes tape
      exact ⟨more, hmore.symm⟩
    have hbounded {os' : OStream} (reached : Reached os os' []) (framed : SomeFraming os') :
        Bounded os' installed (call.record tape).1 :=
      reached.bounded h.sinkless h.installed_eq (.inr (hstopped.of_reached reached framed htape))
    generalize call.write host os = result at hmute
    cases hmute with
    | silent silent reached framed =>
      refine .mute hstopped (hbounded reached framed) reached ?_
      rintro f rfl hvalid
      exact absurd silent (not_silent_field hvalid)
    | @stopped os' reached framed =>
      rw [stopError_of_none (hbounded reached framed).sinkless]
      exact .mute hstopped (hbounded reached framed) reached fun _ _ _ => rfl
    | refused framed emit =>
      refine .mute hstopped (hbounded (.refl hstopped.sound) hstopped.framed)
        (.refl hstopped.sound) ?_
      rintro f rfl hvalid
      rw [Call.emit, if_pos hvalid] at emit
      cases emit
    | unwound broken => exact (broken.absurd h.sinkless).elim

/-- Calls keep a run bounded. -/
theorem Bounded.after (h : Bounded os installed tape) (host : Endian) (calls : List Call) :
    Bounded (writeAll host calls os).1 installed (drive Call.record calls tape).1 := by
  induction calls generalizing os tape with
  | nil => exact h
  | cons call calls ih =>
    have hstep : Bounded (call.write host os).1 installed (call.record tape).1 := by
      have hcapped := h.capped host call
      generalize call.write host os = result at hcapped
      cases hcapped <;> assumption
    exact ih hstep

/-- A run that fits reports what the tape reports. -/
theorem Bounded.reports (h : Bounded os installed tape) (host : Endian) (calls : List Call)
    (hfits : (drive Call.record calls tape).1.bytes.length ≤ installed.capacity) :
    (writeAll host calls os).2 = (drive Call.record calls tape).2 := by
  induction calls generalizing os tape with
  | nil => rfl
  | cons call calls ih =>
    have hcapped := h.capped host call
    have hlater := (prefix_drive_record calls (call.record tape).1).length_le.trans hfits
    rw [Sofab.writeAll, drive_cons, drive_cons]
    generalize call.write host os = result at hcapped
    cases hcapped with
    | written before bounded after => exact congrArg _ (ih bounded hfits)
    | stops before bounded after =>
      have hover := after.capacity_lt bounded.sinkless
      rw [bounded.installed_eq] at hover
      exact absurd hlater (Nat.not_le.mpr hover)
    | mute before bounded reached field =>
      obtain ⟨more, hmore⟩ := call.record_bytes tape
      have hover := before.capacity_lt h.sinkless
      rw [h.installed_eq] at hover
      rw [hmore, List.length_append] at hlater
      omega

end Sinkless

/-! ## A buffer with room for everything -/

/-- A stream just opened. -/
theorem sound_over {buffer : List UInt8} {offset : ℕ} {sink : Option Sink}
    (hoffset : offset ≤ buffer.length) (hcapacity : sink.isSome = true → offset < buffer.length)
    (hfresh : ∀ s, sink = some s → s.handed = []) : Sound (.ofBuffer buffer offset sink) where
  end_eq := rfl
  kept := ⟨rfl, Nat.le_refl _, hoffset, rfl⟩
  handed := by
    intro h hh
    have hnil : (OStream.ofBuffer buffer offset sink).handed = [] := by
      rcases sink with _ | s
      · rfl
      · exact hfresh s rfl
    rw [hnil] at hh
    exact absurd hh List.not_mem_nil
  capacity _ hsome := hcapacity hsome
  dead hdead := by cases hdead
  answered := by
    intro s hs n hn
    rw [hfresh s hs] at hn
    exact absurd hn (Nat.not_lt_zero n)

/-- A stream over a buffer has written what is on a new tape. -/
theorem written_over {buffer : List UInt8} {offset : ℕ} {sink : Option Sink}
    (hsound : Sound (.ofBuffer buffer offset sink)) (hfresh : ∀ s, sink = some s → s.handed = []) :
    Written (.ofBuffer buffer offset sink) .new where
  sound := hsound
  live := rfl
  framed := ⟨Framing.lawful_new, rfl, PendingRun.holds_new⟩
  message := by
    have hactive : (OStream.ofBuffer buffer offset sink).active = [] :=
      List.drop_eq_nil_of_le (by simp [OStream.ofBuffer])
    have hnil : (OStream.ofBuffer buffer offset sink).handed = [] := by
      rcases sink with _ | s
      · rfl
      · exact hfresh s rfl
    rw [OStream.message, hactive, hnil]
    rfl

/-- Without a sink a stream over a buffer is bounded by it. -/
theorem bounded_over {buffer : List UInt8} {offset : ℕ} (hoffset : offset ≤ buffer.length) :
    Bounded (.ofBuffer buffer offset none) ⟨buffer, offset⟩ .new :=
  ⟨rfl, rfl, .inl (written_over (sound_over hoffset (by simp) (by simp)) (by simp))⟩

/-- A stream is opened at a position in its buffer. -/
theorem withOffset_eq {buffer : List UInt8} {offset : ℕ} {os : OStream}
    (hopen : withOffset buffer offset = .ok os) :
    offset ≤ buffer.length ∧ os = .ofBuffer buffer offset none := by
  rw [withOffset, checkOffsetInRange] at hopen
  by_cases hoffset : offset ≤ buffer.length
  · rw [if_pos hoffset] at hopen
    cases hopen
    exact ⟨hoffset, rfl⟩
  · rw [if_neg hoffset] at hopen
    cases hopen

/-- An opened stream begins a run over its buffer. -/
theorem bounded_withOffset {buffer : List UInt8} {offset : ℕ} {os : OStream}
    (hopen : withOffset buffer offset = .ok os) : Bounded os ⟨buffer, offset⟩ .new := by
  obtain ⟨hoffset, rfl⟩ := withOffset_eq hopen
  exact bounded_over hoffset

/-- A stream opened with a sink begins a run. -/
theorem written_withFlush {buffer : List UInt8} {offset : ℕ} {sink : Sink} {os : OStream}
    (hfresh : sink.handed = []) (hopen : withFlush buffer offset sink = .ok os) :
    os = .ofBuffer buffer offset (some sink) ∧ offset < buffer.length ∧ Written os .new := by
  rw [withFlush] at hopen
  by_cases hroom : offset < buffer.length
  · rw [checkStreamingCapacity_of_lt hroom] at hopen
    cases hopen
    have hfresh' (s : Sink) (hs : some sink = some s) : s.handed = [] := by
      cases hs
      exact hfresh
    exact ⟨rfl, hroom, written_over (sound_over hroom.le (fun _ => hroom) hfresh') hfresh'⟩
  · rw [checkStreamingCapacity_of_not_lt hroom] at hopen
    cases hopen

/-- The calls written into one buffer with room for all of them. -/
def unlimited (host : Endian) (calls : List Call) : OStream × List (Exit Error Unit) :=
  writeAll host calls (.new (List.replicate (roomFor calls) 0))

/-- A run with room for everything is bounded by that room. -/
theorem bounded_unlimited (host : Endian) (calls : List Call) :
    Bounded (unlimited host calls).1 ⟨List.replicate (roomFor calls) 0, 0⟩ (record calls).1 :=
  (bounded_over (Nat.zero_le _)).after host calls

/-- What is recorded fits in the buffer with room for everything. -/
theorem record_fits (calls : List Call) : (record calls).1.bytes.length ≤
    Installation.capacity ⟨List.replicate (roomFor calls) 0, 0⟩ := by
  rw [Installation.capacity, List.length_replicate]
  exact record_length calls

/-- In a buffer with room for everything the calls write what the tape records. -/
theorem unlimited_message (host : Endian) (calls : List Call) :
    (unlimited host calls).1.message = (record calls).1.bytes := by
  rw [(bounded_unlimited host calls).message_eq]
  exact List.take_of_length_le (record_fits calls)

/-- In a buffer with room for everything the calls report what the tape reports. -/
theorem unlimited_reports (host : Endian) (calls : List Call) :
    (unlimited host calls).2 = (record calls).2 :=
  (bounded_over (Nat.zero_le _)).reports host calls (record_fits calls)

end Sofab
