import Sofab.Bookkeeping
import Sofab.Capacity

/-!
# Going on after a full buffer

Without a sink a buffer can fill up while the held-back headers go out. The complete ones are
held back no more; of the one that is cut the leading bytes stay in the buffer, and the whole
of it is still held back. A caller that goes on in another buffer gets these bytes twice.
-/

namespace Sofab

open Steps Step OStream

/-! ## What is cut -/

/-- Less than all headers are complete headers and the front of another one. -/
theorem startHeaders_take {held : List Id} {m : ℕ} (hm : m < (startHeaders held).length) :
    ∃ (k : ℕ) (hk : k < held.length) (j : ℕ), j < (startHeader held[k]).length ∧
      (startHeaders held).take m =
        startHeaders (held.take k) ++ (startHeader held[k]).take j ∧
      completed held ((startHeaders held).take m) = k := by
  induction held generalizing m with
  | nil => exact absurd hm (Nat.not_lt_zero m)
  | cons id held ih =>
    have hcons : startHeaders (id :: held) = startHeader id ++ startHeaders held := rfl
    rw [hcons, List.length_append] at hm
    by_cases hcut : m < (startHeader id).length
    · refine ⟨0, Nat.zero_lt_succ _, m, hcut, ?_, completed_of_lt held ?_⟩
      · rw [hcons, List.take_append_of_le_length hcut.le]
        rfl
      · rw [List.length_take]
        omega
    · obtain ⟨n, rfl⟩ := Nat.exists_eq_add_of_le (Nat.le_of_not_lt hcut)
      obtain ⟨k, hk, j, hj, htake, hcompleted⟩ := ih (m := n) (by omega)
      have hfront : (startHeaders (id :: held)).take ((startHeader id).length + n) =
          startHeader id ++ (startHeaders held).take n := by
        rw [hcons, List.take_length_add_append]
      refine ⟨k + 1, Nat.succ_lt_succ hk, j, hj, ?_, ?_⟩
      · rw [hfront, htake, List.take_succ_cons]
        exact (List.append_assoc _ _ _).symm
      · rw [hfront, completed_cons, hcompleted]

/-- The header of a small id is one byte. -/
theorem startHeader_length_of_lt {id : Id} (hid : id.toNat < 16) :
    (startHeader id).length = 1 := by
  rw [startHeader, headerBytes, Leb128.encode_of_lt (by omega)]
  rfl

/-! ## What is recorded -/

/-- Openings leave the headers held back before them where they are. -/
theorem record_opens (opens : List Id) (depth : ℕ) :
    ∃ depth' opened, depth ≤ depth' ∧ ∀ held bytes,
      (drive Call.record (opens.map .sequenceBeginLazy) ⟨⟨depth, held⟩, bytes⟩).1 =
        ⟨⟨depth', held ++ opened⟩, bytes⟩ := by
  induction opens generalizing depth with
  | nil => exact ⟨depth, [], Nat.le_refl _, fun held bytes => by rw [List.append_nil]; rfl⟩
  | cons id opens ih =>
    by_cases hopen : depth < maxDepth ∧ id.toNat ≤ idMax
    · obtain ⟨depth', opened, hle, hall⟩ := ih (depth + 1)
      refine ⟨depth', id :: opened, Nat.le_of_succ_le hle, fun held bytes => ?_⟩
      rw [List.map_cons, drive_cons,
        Call.record_ok (Call.emit_begin ⟨depth, held⟩ hopen.1 hopen.2), List.append_nil]
      exact (hall (held ++ [id]) bytes).trans (by rw [List.append_assoc]; rfl)
    · obtain ⟨depth', opened, hle, hall⟩ := ih depth
      refine ⟨depth', opened, hle, fun held bytes => ?_⟩
      have hrefused : (Call.sequenceBeginLazy id).emit ⟨depth, held⟩ = .error .argument :=
        if_neg hopen
      rw [List.map_cons, drive_cons, Call.record_error hrefused]
      exact hall held bytes

/-- What calls add does not depend on what is on the tape. -/
theorem record_from (calls : List Call) (φ : Framing) :
    ∃ φ' more, ∀ bytes, (drive Call.record calls ⟨φ, bytes⟩).1 = ⟨φ', bytes ++ more⟩ := by
  induction calls generalizing φ with
  | nil => exact ⟨φ, [], fun bytes => by rw [List.append_nil]; rfl⟩
  | cons call calls ih =>
    rcases hemit : call.emit φ with e | ⟨φ₁, first⟩
    · obtain ⟨φ', more, hall⟩ := ih φ
      refine ⟨φ', more, fun bytes => ?_⟩
      rw [drive_cons, Call.record_error hemit]
      exact hall bytes
    · obtain ⟨φ', more, hall⟩ := ih φ₁
      refine ⟨φ', first ++ more, fun bytes => ?_⟩
      rw [drive_cons, Call.record_ok hemit, ← List.append_assoc]
      exact hall (bytes ++ first)

/-- A call that commits the held-back headers: a field, or the end of a sequence that is
kept. -/
def Call.Commits (call : Call) : Prop := (∃ f, call = .field f) ∨ call = .sequenceEndKeep

/-- Such a call does the same behind any headers held back, under any more sequences. -/
theorem Call.Commits.emit {call : Call} (hcommits : call.Commits) {φ φ' : Framing}
    {bytes : List UInt8} (hemit : call.emit φ = .ok (φ', bytes)) {depth : ℕ}
    (hdepth : φ.depth ≤ depth) :
    ∃ depth' body, ∀ held,
      call.emit ⟨depth, held⟩ = .ok (⟨depth', []⟩, startHeaders held ++ body) := by
  rcases hcommits with ⟨f, rfl⟩ | rfl
  · cases Call.emitted hemit with
    | field hvalid =>
      exact ⟨depth, f.bytes, fun held => Call.emit_field ⟨depth, held⟩ hvalid⟩
  · cases Call.emitted hemit with
    | kept hopen =>
      have hopen' : depth ≠ 0 := ((Nat.pos_of_ne_zero hopen).trans_le hdepth).ne'
      exact ⟨depth - 1, endMarker, fun held => Call.emit_keep ⟨depth, held⟩ hopen'⟩

/-- Further openings and such a call, and whatever follows them: the bytes past the headers
held back. -/
theorem Call.Commits.record {call : Call} (hcommits : call.Commits) {φ φ' : Framing}
    {bytes : List UInt8} (hemit : call.emit φ = .ok (φ', bytes)) (opens : List Id)
    (rest : List Call) :
    ∃ depth opened more, ∀ held tape,
      (drive Call.record (opens.map .sequenceBeginLazy) ⟨⟨φ.depth, held⟩, tape⟩).1 =
          ⟨⟨depth, held ++ opened⟩, tape⟩ ∧
        (drive Call.record (call :: rest) ⟨⟨depth, held ++ opened⟩, tape⟩).1.bytes =
          tape ++ startHeaders held ++ more := by
  obtain ⟨depth, opened, hle, hopens⟩ := record_opens opens φ.depth
  obtain ⟨depth', body, hcall⟩ := hcommits.emit hemit hle
  obtain ⟨φ₂, more, hrest⟩ := record_from rest ⟨depth', []⟩
  refine ⟨depth, opened, startHeaders opened ++ body ++ more, fun held tape => ⟨hopens held tape, ?_⟩⟩
  rw [drive_cons, Call.record_ok (hcall (held ++ opened)), hrest, startHeaders_append]
  simp only [List.append_assoc]

/-! ## In the buffers -/

section Buffers

variable {os os' : OStream} {φ : Framing} {tape : Tape} {installed : Installation}

/-- A sound stream without a sink has written its message. -/
theorem written_message (hsound : Sound os) (hnone : os.flush_ = none) (hframed : Framed os φ) :
    Written os ⟨φ, os.message⟩ :=
  ⟨hsound, hsound.live_of_none hnone, hframed, rfl⟩

/-- While no call reports a full buffer everything is written. -/
theorem Written.all (h : Written os tape) (hnone : os.flush_ = none) (host : Endian)
    {calls : List Call} (hroom : .err .bufferFull ∉ (writeAll host calls os).2) :
    Written (writeAll host calls os).1 (drive Call.record calls tape).1 ∧
      (writeAll host calls os).1.flush_ = none := by
  induction calls generalizing os tape with
  | nil => exact ⟨h, hnone⟩
  | cons call calls ih =>
    have hcapped := (⟨hnone, rfl, .inl h⟩ : Bounded os os.installed tape).capped host call
    rw [writeAll, drive_cons] at hroom ⊢
    obtain ⟨hfirst, hrest⟩ := not_or.mp fun hmem => hroom (List.mem_cons.mpr hmem)
    generalize call.write host os = result at hcapped hfirst hrest
    cases hcapped with
    | written before bounded after => exact ih after bounded.sinkless hrest
    | stops => exact absurd rfl hfirst
    | mute before =>
      have hlt := before.capacity_lt hnone
      have hlen := h.sound.message_length hnone
      rw [h.message] at hlen
      exact absurd hlt (Nat.not_lt.mpr hlen)

/-- No opening reports a full buffer. -/
theorem opens_not_full (host : Endian) (opens : List Id) (os : OStream) :
    .err .bufferFull ∉ (writeAll host (opens.map .sequenceBeginLazy) os).2 := by
  induction opens generalizing os with
  | nil => exact List.not_mem_nil
  | cons id opens ih =>
    rw [List.map_cons, writeAll, drive_cons]
    intro hmem
    rcases List.mem_cons.mp hmem with hfirst | hrest
    · rw [Call.write, writeSequenceBeginLazy, self_bind] at hfirst
      split at hfirst
      · cases hfirst
      split at hfirst
      · cases hfirst
      · cases hfirst
    · exact ih _ hrest

/-- A full buffer without a sink. -/
theorem Spent.full (hnone : os.flush_ = none) (hsound : Sound os) (hspent : os.Spent) :
    os.offset = os.end_ := by
  rcases hspent with hdead | ⟨_, hfull⟩
  · exact absurd ((hsound.live_of_none hnone).symm.trans hdead) Bool.false_ne_true
  · exact hfull

/-- What a call leaves behind that the end of the buffer cuts among the held-back headers. -/
structure Cut (os os' : OStream) (φ : Framing) (k j : ℕ) (hk : k < φ.held.length) : Prop where
  sound : Sound os'
  sinkless : os'.flush_ = none
  short : j < (startHeader φ.held[k]).length
  full : os'.offset = os'.end_
  message : os'.message =
    os.message ++ (startHeaders (φ.held.take k) ++ (startHeader φ.held[k]).take j)
  buffer : os'.buffer =
    os.buffer.take os.offset ++ (startHeaders (φ.held.take k) ++ (startHeader φ.held[k]).take j)
  framed : Framed os' ⟨φ.depth, φ.held.drop k⟩

/-- A call whose commit finds the buffer full is cut inside a held-back header. -/
theorem call_cut (hsound : Sound os) (hnone : os.flush_ = none) (hframed : Framed os φ)
    (host : Endian) {call : Call} (hcommits : call.Commits)
    (hfails : (call.write host os).2 = .err .bufferFull)
    (hcommit : (commitHeld os).2 = .err .bufferFull) :
    (∃ φ' bytes, call.emit φ = .ok (φ', bytes)) ∧
      ∃ (k : ℕ) (hk : k < φ.held.length) (j : ℕ), Cut os (call.write host os).1 φ k j hk := by
  rcases hemit : call.emit φ with e | ⟨φ', bytes⟩
  · rw [Call.write_refused host hframed hemit] at hfails
    cases hfails
  refine ⟨⟨φ', bytes, rfl⟩, ?_⟩
  obtain ⟨depth', body, hbody⟩ := hcommits.emit hemit (Nat.le_refl _)
  have hpair := hemit.symm.trans (hbody φ.held)
  obtain ⟨-, rfl⟩ := Prod.mk.inj (Except.ok.inj hpair)
  -- the room left is less than the headers take
  have hroom : os.end_ - os.offset < (startHeaders φ.held).length := by
    have hemits := commitHeld_emits hsound hframed
    generalize commitHeld os = result at hemits hcommit
    cases hemits with
    | ok => cases hcommit
    | stopped n reached short spent =>
      obtain ⟨hend, hoffset⟩ := reached.room_eq hsound hnone
      have hfull := Spent.full (reached.flush_none hnone) reached.sound spent
      rw [hoffset, hend, List.length_take] at hfull
      omega
    | unwound broken => exact (broken.absurd hnone).elim
  have hemits := call.write_emits host hsound hframed hemit
  generalize call.write host os = result at hemits hfails
  cases hemits with
  | ok => cases hfails
  | unwound broken => exact (broken.absurd hnone).elim
  | @stopped os' m reached short spent torn =>
    have hnone' := reached.flush_none hnone
    have hfull := Spent.full hnone' reached.sound spent
    obtain ⟨hend, hoffset⟩ := reached.room_eq hsound hnone
    rw [List.length_take, Nat.min_eq_left short.le] at hoffset
    have hm : m < (startHeaders φ.held).length := by omega
    obtain ⟨k, hk, j, hj, htake, hcompleted⟩ := startHeaders_take hm
    have hmessage := reached.message
    rw [List.take_append_of_le_length hm.le] at hmessage
    obtain ⟨more, hmore, hframed'⟩ := torn
    obtain rfl := List.append_cancel_left (hmessage.symm.trans hmore)
    rw [hcompleted] at hframed'
    rw [htake] at hmessage
    refine ⟨k, hk, j, reached.sound, hnone', hj, hfull, hmessage, ?_, hframed'⟩
    have hstored := hsound.stored hnone
    have hstored' := reached.sound.stored hnone'
    rw [hfull, reached.sound.end_eq, List.take_length, reached.sinkless hnone, hmessage,
      ← List.append_assoc, ← hstored] at hstored'
    exact hstored'

/-- A stream in another buffer that has gone the same way as `os`, with what `os` has left in
earlier buffers. -/
structure Alongside (os twin : OStream) (saved : List UInt8) : Prop where
  sinkless : twin.flush_ = none
  depth : twin.depth = os.depth
  pending : ∀ ids, os.pending.Holds ids → twin.pending.Holds ids
  message : twin.message = saved ++ os.message

/-- Where the end of the buffer cut the run `ids` of held-back headers: behind `k` of them and
`j` bytes of the next. -/
structure CutAt (os torn : OStream) (ids : List Id) (k j : ℕ) (hk : k < ids.length) : Prop where
  short : j < (startHeader ids[k]).length
  full : torn.offset = torn.end_
  buffer : torn.buffer =
    os.buffer.take os.offset ++ (startHeaders (ids.take k) ++ (startHeader ids[k]).take j)
  depth : torn.depth = os.depth
  pending : torn.pending.Holds (ids.drop k)
  small : (∀ id ∈ ids, id.toNat < 16) → j = 0

/-- `recovered` is `encoded` with the first `j` bytes of the header of `id`, which is behind
`before`, once more in front of it. -/
def Repeats (before : List UInt8) (id : Id) (j : ℕ) (encoded recovered : List UInt8) : Prop :=
  ∃ after, encoded = before ++ (startHeader id ++ after) ∧
    recovered = before ++ ((startHeader id).take j ++ (startHeader id ++ after)) ∧
    (recovered = encoded ↔ j = 0)

/-- Bytes written again in front of their header repeat them. -/
theorem repeats_of_eq {before encoded recovered : List UInt8} {id : Id} {j : ℕ}
    (after : List UInt8) (hshort : j < (startHeader id).length)
    (hencoded : encoded = before ++ (startHeader id ++ after))
    (hrecovered : recovered = before ++ ((startHeader id).take j ++ (startHeader id ++ after))) :
    Repeats before id j encoded recovered := by
  refine ⟨after, hencoded, hrecovered, fun heq => ?_, ?_⟩
  · have hlen := congrArg List.length heq
    rw [hencoded, hrecovered] at hlen
    simp only [List.length_append, List.length_take, Nat.min_eq_left hshort.le] at hlen
    omega
  · rintro rfl
    rw [hencoded, hrecovered, List.take_zero, List.nil_append]

/-- A commit that the end of the buffer cuts goes on in another buffer as if it had not been
cut, but for the leading bytes of the header that is cut. They are there twice. -/
theorem recovery_repeats_cut_header (host : Endian) (hreach : Reachable host os)
    (hnone : os.flush_ = none) {call : Call} (hcommits : call.Commits)
    (hfails : (call.write host os).2 = .err .bufferFull)
    (hcommit : (commitHeld os).2 = .err .bufferFull) {ids : List Id}
    (hids : os.pending.Holds ids) :
    ∃ (k : ℕ) (hk : k < ids.length) (j : ℕ), CutAt os (call.write host os).1 ids k j hk ∧
      ∀ (opens : List Id) (rest : List Call) (buffer : List UInt8) (offset : ℕ) (twin : OStream)
        (saved : List UInt8), Reachable host twin → Alongside os twin saved →
        offset ≤ buffer.length →
        let whole := writeAll host (opens.map .sequenceBeginLazy ++ call :: rest) twin
        let opened := (writeAll host (opens.map .sequenceBeginLazy) (call.write host os).1).1
        let resumed := writeAll host (call :: rest) (bufferSet buffer offset opened).1
        .err .bufferFull ∉ whole.2 → .err .bufferFull ∉ resumed.2 →
          Repeats (saved ++ (os.message ++ startHeaders (ids.take k))) ids[k] j whole.1.message
            (saved ++ (opened.message ++ resumed.1.message)) := by
  obtain ⟨hsound, φ, hframed⟩ := hreach.tracked
  obtain rfl := hframed.pending.unique hids
  obtain ⟨⟨φ', bytes, hemit⟩, k, hk, j, hcut⟩ :=
    call_cut hsound hnone hframed host hcommits hfails hcommit
  refine ⟨k, hk, j, ⟨hcut.short, hcut.full, hcut.buffer,
    hcut.framed.depth.trans hframed.depth.symm, hcut.framed.pending, fun hsmall => ?_⟩, ?_⟩
  · have hone := startHeader_length_of_lt (hsmall _ (List.getElem_mem hk))
    have hshort := hcut.short
    omega
  intro opens rest buffer offset twin saved hreach' hside hoffset whole opened resumed hwhole hroom
  obtain ⟨depth, more, after, hrecord⟩ := hcommits.record hemit opens rest
  -- the stream that is not cut
  obtain ⟨hsound', φ₂, hframed₂⟩ := hreach'.tracked
  have htwin : Framed twin φ :=
    ⟨hframed.lawful, hside.depth.trans hframed.depth, hside.pending _ hframed.pending⟩
  have hencoded : whole.1.message =
      twin.message ++ startHeaders φ.held ++ after := by
    have hall := ((written_message hsound' hside.sinkless htwin).all hside.sinkless host
      hwhole).1.message
    rw [hall, drive_append, (hrecord φ.held twin.message).1, (hrecord φ.held twin.message).2]
  -- the stream that is cut, up to the buffer it goes on in
  obtain ⟨hopened, hnone'⟩ := (written_message hcut.sound hcut.sinkless hcut.framed).all
    hcut.sinkless host (opens_not_full host opens _)
  rw [(hrecord _ _).1] at hopened
  have hset : bufferSet buffer offset opened = (opened.install buffer offset, .ok ()) := by
    rw [bufferSet_sinkless hopened.sound hnone', if_pos hoffset]
  have hinstalled : Written (opened.install buffer offset) ⟨⟨depth, φ.held.drop k ++ more⟩, []⟩ :=
    { sound := sound_install hopened.sound hnone' hoffset
      live := hopened.live
      framed := ⟨hopened.framed.lawful, hopened.framed.depth, hopened.framed.pending⟩
      message := by
        have hactive : (opened.install buffer offset).message = _ := message_of_flush_none hnone'
        rw [hactive]
        exact List.drop_eq_nil_of_le (by simp [install]) }
  have hresumed : resumed.1.message = startHeaders (φ.held.drop k) ++ after := by
    change (writeAll host (call :: rest) (bufferSet buffer offset opened).1).1.message = _
    have hroom' : .err .bufferFull ∉
        (writeAll host (call :: rest) (bufferSet buffer offset opened).1).2 := hroom
    rw [hset] at hroom' ⊢
    rw [(hinstalled.all hnone' host hroom').1.message, (hrecord _ _).2, List.nil_append]
  have hheaders : startHeaders (φ.held.drop k) =
      startHeader φ.held[k] ++ startHeaders (φ.held.drop (k + 1)) := by
    rw [List.drop_eq_getElem_cons hk]
    rfl
  have hheld : startHeaders φ.held = startHeaders (φ.held.take k) ++ startHeaders (φ.held.drop k) := by
    rw [← startHeaders_append, List.take_append_drop]
  refine repeats_of_eq (startHeaders (φ.held.drop (k + 1)) ++ after) hcut.short ?_ ?_
  · rw [hencoded, hside.message, hheld, hheaders]
    simp only [List.append_assoc]
  · rw [hresumed, hopened.message, hcut.message, hheaders]
    simp only [List.append_assoc]

/-- Writer calls without a sink reach a stream. -/
theorem reachable_writeAll (host : Endian) (buffer : List UInt8) (calls : List Call) :
    Reachable host (writeAll host calls (.new buffer)).1 := by
  have hrun (calls : List Call) (os : OStream) :
      runAll host (calls.map .call) os = writeAll host calls os := by
    induction calls generalizing os with
    | nil => rfl
    | cons call calls ih =>
      rw [List.map_cons, runAll, drive_cons, writeAll, drive_cons]
      exact congrArg (fun later => (later.1, (call.write host os).2 :: later.2)) (ih _)
  have hstate (i : ℕ) : stateAt host (calls.map .call) (.new buffer) i =
      (writeAll host (calls.take i) (.new buffer)).1 := by
    rw [stateAt, ← List.map_take, hrun]
  refine ⟨_, calls.map .call, .new buffer, fun i _ sink hsink => ?_, ?_⟩
  · have hbounded := (@bounded_over buffer 0 (Nat.zero_le _)).after host (calls.take i)
    have hnone := hbounded.sinkless
    rw [hstate] at hsink
    cases hnone.symm.trans hsink
  · rw [hstate, List.length_map, List.take_length]

end Buffers

/-- The header of the sequence with id 16 is cut behind its first byte, and both sequences are
closed in another buffer. -/
theorem recovery_repeats_cut_header_sixteen :
    let os := (writeAll .little [.sequenceBeginLazy 1, .sequenceBeginLazy 16] (.new [0, 0])).1
    let torn := ((Call.field (.unsigned 0 5)).write .little os).1
    let resumed := writeAll .little [.field (.unsigned 0 5), .sequenceEnd, .sequenceEnd]
      (bufferSet (List.replicate 16 0) 0 torn).1
    ∃ (k : ℕ) (hk : k < 2) (j : ℕ), CutAt os torn [1, 16] k j hk ∧
      Repeats (startHeaders ([1, 16].take k)) [1, 16][k] j
        [0x0E, 0x86, 0x01, 0x00, 0x05, 0x07, 0x07] (torn.message ++ resumed.1.message) := by
  intro os torn resumed
  have hids : os.pending.Holds [1, 16] := ⟨by decide +kernel, by decide +kernel, by decide +kernel⟩
  obtain ⟨k, hk, j, hcut, hlater⟩ := recovery_repeats_cut_header .little
    (reachable_writeAll .little [0, 0] [.sequenceBeginLazy 1, .sequenceBeginLazy 16]) rfl
    (.inl ⟨.unsigned 0 5, rfl⟩) (by decide +kernel) (by decide +kernel) hids
  refine ⟨k, hk, j, hcut, ?_⟩
  have hrepeats := hlater [] [.sequenceEnd, .sequenceEnd] (List.replicate 16 0) 0
    (writeAll .little [.sequenceBeginLazy 1, .sequenceBeginLazy 16] (.new (List.replicate 16 0))).1
    [] (reachable_writeAll .little _ _)
    ⟨by decide +kernel, by decide +kernel, fun ids h => h, by decide +kernel⟩ (Nat.zero_le _)
    (by decide +kernel) (by decide +kernel)
  have hos : os.message = [] := by decide +kernel
  have hwhole : (writeAll .little ([].map .sequenceBeginLazy ++ .field (.unsigned 0 5) ::
      [.sequenceEnd, .sequenceEnd]) (writeAll .little [.sequenceBeginLazy 1, .sequenceBeginLazy 16]
        (.new (List.replicate 16 0))).1).1.message = [0x0E, 0x86, 0x01, 0x00, 0x05, 0x07, 0x07] := by
    decide +kernel
  rw [hwhole, hos, List.nil_append, List.nil_append] at hrepeats
  exact hrepeats

end Sofab
