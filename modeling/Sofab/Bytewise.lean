import Sofab.Bookkeeping
import Sofab.Stores

/-!
# Every fast path is the byte-at-a-time writer

A call fills buffers with the bytes that the framing says, by whichever of its paths. Where it
ends, which units it hands over and what it leaves up to the cursor depend on those bytes
alone: they are the same for pushing the bytes one at a time. The paths differ in what they
leave past the cursor, and that is covered before a buffer is handed over. The stores that a call
makes are those of the encoder that writes them down.
-/

namespace Sofab

open Steps Step OStream

variable {os os₁ os' : OStream} {φ φ' : Framing} {bytes more : List UInt8}
  {result : OStream × Exit Error Unit}

/-! ## What a call performs -/

/-- Only the framing of a stream is changed. -/
def Reframed (os os' : OStream) : Prop := ∃ depth pending, os' = { os with depth, pending }

/-- Changes of the framing add up to one. -/
theorem Reframed.trans {os'' : OStream} (h : Reframed os os') (h' : Reframed os' os'') :
    Reframed os os'' := by
  obtain ⟨_, _, rfl⟩ := h
  obtain ⟨depth, pending, rfl⟩ := h'
  exact ⟨depth, pending, rfl⟩

/-- A stream that is as it was is no more than reframed. -/
theorem reframed_of_eq (os os' : OStream) (h : os = os') : Reframed os os' :=
  ⟨os.depth, os.pending, h.symm⟩

/-- The framing has no part in what makes a stream sound. -/
theorem reframed_sound (hsound : Sound os) (h : Reframed os os') : Sound os' := by
  obtain ⟨depth, pending, rfl⟩ := h
  exact (reached_framing hsound depth pending).sound

/-- The framing may be changed behind a step. -/
theorem Performed.update {m : EncodeM Unit} {f : OStream → OStream}
    (h : Performed Reframed os bytes (m os)) (hf : ∀ os₁, Reframed os₁ (f os₁)) :
    Performed Reframed os bytes ((m >>= fun _ => update f) os) := by
  rcases hm : m os with ⟨os₁, u | e | _⟩
  · rw [hm] at h
    rw [bind_ok hm]
    exact h.ending Reframed.trans (by simp) (hf os₁)
  · rw [hm] at h
    rwa [bind_err hm]
  · rw [hm] at h
    rwa [bind_unwound hm]

/-- The loop over the held-back headers writes the first of those left and goes on. -/
theorem commitLoop_bind (i left : ℕ) (os : OStream) :
    (commitLoop i (left + 1) >>= fun r => ofExcept r.2) os =
      (writeVarint ((os.pending.get i).toUInt64 <<< 3 ||| tSequenceStart.toUInt64) >>= fun _ =>
        commitLoop (i + 1) left >>= fun r => ofExcept r.2) os := by
  rw [commitLoop, Step.bind_assoc, self_bind, Step.bind_assoc]
  rcases hwrite : writeVarint ((os.pending.get i).toUInt64 <<< 3 ||| tSequenceStart.toUInt64) os
    with ⟨os₁, u | e | _⟩
  · rw [bind_ok (attempt_ok hwrite), bind_ok hwrite]
  · rw [bind_ok (attempt_err hwrite), bind_err hwrite]
    rfl
  · rw [bind_unwound (attempt_unwound hwrite), bind_unwound hwrite]

/-- The loop over the held-back ids fills buffers with their start headers. -/
theorem commitLoop_performed (held : List Id) (left : ℕ) {i : ℕ} (hsum : i + left = held.length)
    (hsound : Sound os) (hpending : os.pending.Holds held) :
    Performed Eq os (startHeaders (held.drop i))
      ((commitLoop i left >>= fun r => ofExcept r.2) os) := by
  induction left generalizing i os with
  | zero =>
    have hi : i = held.length := hsum
    rw [hi, List.drop_length]
    exact .done os
  | succ left ih =>
    have hi : i < held.length := by omega
    have hwrite := writeVarint_performs
      ((os.pending.get i).toUInt64 <<< 3 ||| tSequenceStart.toUInt64)
    rw [heldHeader_bytes hpending hi] at hwrite
    rw [commitLoop_bind, startHeaders_drop hi]
    refine (hwrite os hsound).bind fun os₁ hm => ?_
    obtain ⟨reached, same⟩ := hwrite.reached hsound hm
    exact ih (by omega) reached.sound (by rw [same.pending]; exact hpending)

/-- Committing fills buffers with the held-back headers. -/
theorem commitHeld_performed (hsound : Sound os) (hframed : Framed os φ) :
    Performed Reframed os (startHeaders φ.held) (commitHeld os) := by
  rw [commitHeld]
  by_cases hempty : os.pending.isEmpty = true
  · rw [if_pos hempty, hframed.pending.isEmpty_iff.mp hempty]
    exact .done os
  · have hloop := (commitLoop_performed φ.held φ.held.length (Nat.zero_add _) hsound
      hframed.pending).mono reframed_of_eq
    rw [List.drop_zero, ← hframed.pending.len] at hloop
    rw [if_neg hempty, commitPending, self_bind, PendingRun.len]
    rcases hrun : commitLoop 0 os.pending.n os with ⟨os₁, ⟨written, u | u⟩ | e | _⟩
    · rw [bind_ok hrun] at hloop ⊢
      exact hloop.ending Reframed.trans (by simp) ⟨_, _, rfl⟩
    · rw [bind_ok hrun] at hloop ⊢
      exact hloop.ending Reframed.trans (by simp) ⟨_, _, rfl⟩
    · rw [bind_err hrun] at hloop ⊢
      exact hloop
    · rw [bind_unwound hrun] at hloop ⊢
      exact hloop

/-- Content fills buffers behind the held-back headers. -/
theorem Contents.performed {m : EncodeM Unit} (h : Contents bytes m) (hsound : Sound os)
    (hframed : Framed os φ) :
    Performed Reframed os (startHeaders φ.held ++ bytes) (m os) := by
  obtain ⟨body, rfl, hbody⟩ := h
  refine (commitHeld_performed hsound hframed).bind fun os₁ hm => ?_
  have hcommit := commitHeld_emits hsound hframed
  rw [hm] at hcommit
  cases hcommit with
  | ok reached dead framed => exact (hbody os₁ reached.sound).mono reframed_of_eq

/-- A call fills buffers with the bytes that the framing says. -/
theorem Call.write_performed (host : Endian) {call : Call} (hsound : Sound os)
    (hframed : Framed os φ) (hemit : call.emit φ = .ok (φ', bytes)) :
    Performed Reframed os bytes (call.write host os) := by
  have haccepted := call.write_accepted host hframed hemit
  generalize call.write host os = result at haccepted
  cases haccepted with
  | field hvalid => exact (Field.write_contents host hvalid).performed hsound hframed
  | opened => exact .changed ⟨_, _, rfl⟩ (.done _)
  | closed =>
    have hmarker := (writeSequenceEndMarker_performs os hsound).mono reframed_of_eq
    exact hmarker.update fun _ => ⟨_, _, rfl⟩
  | vanished => exact .changed ⟨_, _, rfl⟩ (.done _)
  | kept => exact (endMarker_contents.performed hsound hframed).update fun _ => ⟨_, _, rfl⟩

/-! ## Pushing one byte at a time -/

/-- Two streams have the same output: the same units handed over to the same sink, the same
buffer active, and the same bytes up to the same cursor in it. -/
structure SameOutput (os os' : OStream) : Prop where
  end_ : os'.end_ = os.end_
  offset : os'.offset = os.offset
  flush_ : os'.flush_ = os.flush_
  dead : os'.dead = os.dead
  installed : os'.installed = os.installed
  size : os'.buffer.length = os.buffer.length
  written : os'.buffer.take os'.offset = os.buffer.take os.offset

/-- A stream has the output that it has. -/
theorem SameOutput.refl (os : OStream) : SameOutput os os := ⟨rfl, rfl, rfl, rfl, rfl, rfl, rfl⟩

/-- The framing is no output. -/
theorem SameOutput.reframed (h : SameOutput os os') (hframing : Reframed os os₁) :
    SameOutput os₁ os' := by
  obtain ⟨depth, pending, rfl⟩ := hframing
  exact ⟨h.end_, h.offset, h.flush_, h.dead, h.installed, h.size, h.written⟩

/-- A full buffer is output as a whole. -/
theorem SameOutput.buffer_of_full (h : SameOutput os os') (hsound : Sound os)
    (hfull : os.end_ ≤ os.offset) : os'.buffer = os.buffer := by
  have hwritten := h.written
  rwa [List.take_of_length_le (by rw [h.size, h.offset, ← hsound.end_eq]; exact hfull),
    List.take_of_length_le (by rw [← hsound.end_eq]; exact hfull)] at hwritten

/-- A handover does not look at the framing. -/
theorem handOver_reframed (os : OStream) (depth : ℕ) (pending : PendingRun) :
    handOver { os with depth, pending } =
      ({ (handOver os).1 with depth, pending }, (handOver os).2) := by
  rcases os with ⟨buffer, end_, offset, depth', pending', _ | sink, dead, installed⟩
  · rfl
  rw [handOver, handOver]
  simp only
  rcases sink.flushTake ⟨installed, buffer, offset⟩ with ⟨sink', _ | ⟨buffer', offset'⟩⟩
  · rfl
  simp only
  cases checkStreamingCapacity buffer'.length offset' with
  | error e => rfl
  | ok u => rfl

/-- Draining does not look at the framing. -/
theorem drainFull_reframed (os : OStream) (depth : ℕ) (pending : PendingRun) :
    drainFull { os with depth, pending } =
      ({ (drainFull os).1 with depth, pending }, (drainFull os).2) := by
  rw [drainFull, self_bind, self_bind]
  by_cases hdead : os.dead = true
  · rw [if_pos hdead]
    rfl
  rw [if_neg hdead, self_bind, self_bind]
  by_cases hnone : os.flush_.isNone = true
  · rw [if_pos hnone]
    rfl
  rw [if_neg hnone]
  exact handOver_reframed os depth pending

/-- Full buffers with the same output are drained alike. -/
theorem SameOutput.drained (h : SameOutput os os') (hsound : Sound os)
    (hfull : os.end_ ≤ os.offset) :
    (drainFull os').2 = (drainFull os).2 ∧ SameOutput (drainFull os).1 (drainFull os').1 := by
  have hos' : os' = { os with depth := os'.depth, pending := os'.pending } := by
    rcases os' with ⟨buffer', end', offset', depth', pending', flush', dead', installed'⟩
    obtain rfl : buffer' = os.buffer := h.buffer_of_full hsound hfull
    obtain rfl : end' = os.end_ := h.end_
    obtain rfl : offset' = os.offset := h.offset
    obtain rfl : flush' = os.flush_ := h.flush_
    obtain rfl : dead' = os.dead := h.dead
    obtain rfl : installed' = os.installed := h.installed
    rfl
  rw [hos', drainFull_reframed]
  exact ⟨rfl, rfl, rfl, rfl, rfl, rfl, rfl, rfl⟩

/-- Bytes in a row are pushed one list after the other. -/
theorem pushBytes_append (bytes more : List UInt8) :
    pushBytes (bytes ++ more) = (pushBytes bytes >>= fun _ => pushBytes more) := by
  induction bytes with
  | nil => rfl
  | cons b bytes ih =>
    change (pushByte b >>= fun _ => pushBytes (bytes ++ more)) = _
    rw [ih]
    exact (Step.bind_assoc _ _ _).symm

/-- The first byte is pushed before the rest. -/
theorem pushBytes_cons (b : UInt8) (more : List UInt8) (os : OStream) :
    pushBytes (b :: more) os =
      (makeRoom >>= fun _ => update (fun os => os.put [b]) >>= fun _ => pushBytes more) os := by
  change ((makeRoom >>= fun _ => update fun os => os.put [b]) >>= fun _ => pushBytes more) os = _
  rw [Step.bind_assoc]

/-- Two runs that fit are put as one. -/
theorem put_put {data : List UInt8}
    (hfit : os.offset + bytes.length + data.length ≤ os.buffer.length) :
    (os.put bytes).put data = os.put (bytes ++ data) := by
  have hstore := Splice.overwrite_overwrite os.buffer bytes data hfit
  simp only [put, hstore, List.length_append, Nat.add_assoc]

/-- Bytes that fit are put at the cursor. -/
theorem pushBytes_put (hend : os.end_ = os.buffer.length)
    (hfit : os.offset + bytes.length ≤ os.end_) : pushBytes bytes os = (os.put bytes, .ok ()) := by
  induction bytes generalizing os with
  | nil =>
    have hnil : os.put [] = os := by
      rw [put, Splice.overwrite_of_fit _ _ (hend ▸ hfit), List.append_nil]
      simp
    rw [hnil]
    rfl
  | cons b bytes ih =>
    rw [List.length_cons] at hfit
    have hroom : os.offset < os.end_ := by omega
    have hput : (os.put [b]).put bytes = os.put (b :: bytes) :=
      put_put (by rw [← hend, List.length_singleton]; omega)
    rw [pushBytes_cons, bind_ok (makeRoom_of_room hroom), update_bind, ih, hput]
    · rw [put, Splice.overwrite_length]
      exact hend
    · change os.offset + 1 + bytes.length ≤ os.end_
      omega

/-- Whatever else a full buffer holds, pushing goes on in the buffer that follows it. -/
theorem pushBytes_drained {b : UInt8} (hfull : os.end_ ≤ os.offset)
    (hdrain : drainFull os = (os₁, .ok ())) (hroom : os₁.offset < os₁.end_) :
    pushBytes (b :: more) os = pushBytes (b :: more) os₁ := by
  rw [← makeRoom_of_full hfull] at hdrain
  rw [pushBytes_cons, bind_ok hdrain, pushBytes_cons, bind_ok (makeRoom_of_room hroom)]

/-- A block in the room left has the output of its bytes. -/
theorem sameOutput_perform (hsound : Sound os) (h : SameOutput os os') (block : List Part)
    (hroom : os.offset + blockReserve block ≤ os.end_) :
    SameOutput (os.perform block) (os'.put (blockBytes block)) := by
  have hlen := blockBytes_length_le block
  have hstored := block_stored block (hsound.end_eq ▸ hroom)
  have hput := Splice.take_overwrite os'.buffer (i := os'.offset) (blockBytes block)
    (by rw [h.size, h.offset, ← hsound.end_eq]; omega)
  refine ⟨h.end_, ?_, h.flush_, h.dead, h.installed, ?_, ?_⟩
  · rw [put, perform, h.offset]
  · rw [put, perform, Splice.overwrite_length, hstored.size, h.size]
  · rw [put, perform, hput, hstored.take, h.written]

/-- What a step performs ends like pushing its bytes one at a time, with the same output. -/
theorem Performed.bytewise (h : Performed Reframed os bytes result) (hsound : Sound os)
    (hsame : SameOutput os os') :
    (pushBytes bytes os').2 = result.2 ∧ SameOutput result.1 (pushBytes bytes os').1 := by
  induction h generalizing os' with
  | done os => exact ⟨rfl, hsame⟩
  | @block os block more result room within rest ih =>
    have hput : pushBytes (blockBytes block) os' = (os'.put (blockBytes block), .ok ()) :=
      pushBytes_put (by rw [hsame.end_, hsame.size, hsound.end_eq])
        (by rw [hsame.end_, hsame.offset]; exact (Nat.add_le_add_left
          (blockBytes_length_le block) _).trans room)
    rw [pushBytes_append, bind_ok hput]
    exact ih (reached_perform hsound block room).sound (sameOutput_perform hsound hsame block room)
  | @drained os os₁ b more result full drain rest ih =>
    obtain ⟨hexit, hsame'⟩ := hsame.drained hsound full
    have hdrained := makeRoom_drained hsound
    rw [makeRoom_of_full full] at hdrained
    rw [drain] at hexit hsame' hdrained
    cases hdrained with
    | ok reached dead room framing =>
      rw [pushBytes_drained (by rw [hsame.end_, hsame.offset]; exact full)
        (Prod.ext rfl hexit) (by rw [hsame'.end_, hsame'.offset]; exact room)]
      exact ih reached.sound hsame'
  | @stopped os os₁ os₂ e b more full drain same =>
    obtain ⟨hexit, hsame'⟩ := hsame.drained hsound full
    rw [drain] at hexit hsame'
    have hdrain : makeRoom os' = ((drainFull os').1, .err e) := by
      rw [makeRoom_of_full (by rw [hsame.end_, hsame.offset]; exact full)]
      exact Prod.ext rfl hexit
    rw [pushBytes_cons, bind_err hdrain]
    exact ⟨rfl, hsame'.reframed same⟩
  | @unwound os os₁ b more full drain =>
    obtain ⟨hexit, hsame'⟩ := hsame.drained hsound full
    rw [drain] at hexit hsame'
    have hdrain : makeRoom os' = ((drainFull os').1, .unwound) := by
      rw [makeRoom_of_full (by rw [hsame.end_, hsame.offset]; exact full)]
      exact Prod.ext rfl hexit
    rw [pushBytes_cons, bind_unwound hdrain]
    exact ⟨rfl, hsame'⟩
  | changed same rest ih => exact ih (reframed_sound hsound same) (hsame.reframed same)

/-! ## Full units -/

/-- The units that a step hands over are completely filled. -/
def HandsFull (os os' : OStream) : Prop :=
  ∃ units, os'.handed = os.handed ++ units ∧ ∀ h ∈ units, h.used = h.buffer.length

/-- Handing over nothing is handing over full units alone. -/
theorem HandsFull.refl (os : OStream) : HandsFull os os := ⟨[], by simp⟩

/-- Full units handed over in a row are full units. -/
theorem HandsFull.trans (h : HandsFull os os₁) (h' : HandsFull os₁ os') : HandsFull os os' := by
  obtain ⟨units, hunits, hfull⟩ := h
  obtain ⟨units', hunits', hfull'⟩ := h'
  refine ⟨units ++ units', by rw [hunits', hunits, List.append_assoc], ?_⟩
  intro unit hmem
  exact (List.mem_append.mp hmem).elim (hfull unit) (hfull' unit)

/-- A handover hands the active buffer over, whatever the sink does. -/
theorem handOver_handed {sink : Sink} (hsink : os.flush_ = some sink) :
    (handOver os).1.handed = os.handed ++ [unit os] := by
  rw [handed_of_flush_some hsink]
  rcases hanswer : sink.answer (sink.handed ++ [unit os]) with _ | ⟨buffer, offset⟩
  · rw [handOver_unwound hsink hanswer]
    rfl
  · by_cases hroom : offset < buffer.length
    · rw [handOver_adopted hsink hanswer hroom]
      rfl
    · rw [handOver_refused hsink hanswer hroom]
      rfl

/-- The buffer that is drained is completely filled. -/
theorem drainFull_handsFull (hsound : Sound os) (hfull : os.end_ ≤ os.offset) :
    HandsFull os (drainFull os).1 := by
  rw [drainFull, self_bind]
  by_cases hdead : os.dead = true
  · rw [if_pos hdead]
    exact .refl os
  rw [if_neg hdead, self_bind]
  rcases hsink : os.flush_ with _ | sink
  · exact .refl os
  · refine ⟨[unit os], handOver_handed hsink, ?_⟩
    intro h hmem
    rw [List.mem_singleton.mp hmem]
    exact (Nat.le_antisymm hsound.offset_le hfull).trans hsound.end_eq

/-- A change of the framing hands nothing over. -/
theorem handed_reframed (h : Reframed os os') : os'.handed = os.handed := by
  obtain ⟨depth, pending, rfl⟩ := h
  rfl

/-- A unit is handed over only when its buffer is completely filled. -/
theorem Performed.handsFull (h : Performed Reframed os bytes result) (hsound : Sound os) :
    HandsFull os result.1 := by
  induction h with
  | done os => exact .refl os
  | @block os block more result room within rest ih =>
    exact HandsFull.trans (.refl os) (ih (reached_perform hsound block room).sound)
  | @drained os os₁ b more result full drain rest ih =>
    have hdrained := makeRoom_drained hsound
    have hfull := drainFull_handsFull hsound full
    rw [makeRoom_of_full full] at hdrained
    rw [drain] at hdrained hfull
    cases hdrained with
    | ok reached dead room framing => exact hfull.trans (ih reached.sound)
  | @stopped os os₁ os₂ e b more full drain same =>
    have hfull := drainFull_handsFull hsound full
    rw [drain] at hfull
    obtain ⟨units, hunits, hall⟩ := hfull
    exact ⟨units, (handed_reframed same).trans hunits, hall⟩
  | @unwound os os₁ b more full drain =>
    have hfull := drainFull_handsFull hsound full
    rwa [drain] at hfull
  | changed same rest ih =>
    obtain ⟨units, hunits, hall⟩ := ih (reframed_sound hsound same)
    exact ⟨units, by rw [hunits, handed_reframed same], hall⟩

/-! ## The writers -/

/-- The writers that have a fast path, and the paths outlined from them. -/
inductive Item : Type 1
  | varint (value : Unsigned)
  | headerValue (header value : Unsigned)
  | headerWordData (header word : Unsigned) (data : List UInt8)
  | fixlenSplit (header word : Unsigned) (data : List UInt8)
  | raw (data : List UInt8)
  | rawSplit (data : List UInt8)
  | varintRun {α : Type} (data : List α) (toWire : α → Unsigned)
  | varintRunChunked {α : Type} (data : List α) (toWire : α → Unsigned)
  | fixlenRun {α : Type} (data : List α) (toLe : α → List UInt8)

namespace Item

/-- The writer. -/
def write (host : Endian) : Item → EncodeM Unit
  | varint value => writeVarint value
  | headerValue header value => writeHeaderValue header value
  | headerWordData header word data => writeHeaderWordData header word data
  | fixlenSplit header word data => writeFixlenSplit header word data
  | raw data => pushRaw data
  | rawSplit data => pushRawSplit data
  | varintRun data toWire => writeVarintRun data toWire
  | varintRunChunked data toWire => writeVarintRunChunked toWire data
  | fixlenRun data toLe => writeFixlenRun host data toLe

/-- The canonical bytes. -/
def canonical : Item → List UInt8
  | varint value => varintBytes value
  | headerValue header value => varintBytes header ++ varintBytes value
  | headerWordData header word data => varintBytes header ++ varintBytes word ++ data
  | fixlenSplit header word data => varintBytes header ++ varintBytes word ++ data
  | raw data => data
  | rawSplit data => data
  | varintRun data toWire => (data.map toWire).flatMap varintBytes
  | varintRunChunked data toWire => (data.map toWire).flatMap varintBytes
  | fixlenRun data toLe => data.flatMap toLe

/-- The writer with its stores written down. -/
def logged (host : Endian) : Item → LogM Unit
  | varint value => Logged.writeVarint value
  | headerValue header value => Logged.writeHeaderValue header value
  | headerWordData header word data => Logged.writeHeaderWordData header word data
  | fixlenSplit header word data => Logged.writeFixlenSplit header word data
  | raw data => Logged.pushRaw data
  | rawSplit data => Logged.pushRawSplit data
  | varintRun data toWire => Logged.writeVarintRun data toWire
  | varintRunChunked data toWire => Logged.writeVarintRunChunked toWire data
  | fixlenRun data toLe => Logged.writeFixlenRun host data toLe

/-- Each writer is mirrored by the one that writes its stores down. -/
theorem mirrors (host : Endian) (item : Item) : Mirrors (item.logged host) (item.write host) := by
  cases item with
  | varint value => exact writeVarint_mirrors value
  | headerValue header value => exact writeHeaderValue_mirrors header value
  | headerWordData header word data => exact writeHeaderWordData_mirrors header word data
  | fixlenSplit header word data => exact writeFixlenSplit_mirrors header word data
  | raw data => exact pushRaw_mirrors data
  | rawSplit data => exact pushRawSplit_mirrors data
  | varintRun data toWire => exact writeVarintRun_mirrors data toWire
  | varintRunChunked data toWire => exact writeVarintRunChunked_mirrors toWire data
  | fixlenRun data toLe => exact writeFixlenRun_mirrors host data toLe

/-- The writer fills buffers with the canonical bytes. -/
theorem performs (host : Endian) (item : Item) : Performs item.canonical (item.write host) := by
  cases item with
  | varint value => exact writeVarint_performs value
  | headerValue header value => exact writeHeaderValue_performs header value
  | headerWordData header word data => exact writeHeaderWordData_performs header word data
  | fixlenSplit header word data => exact writeFixlenSplit_performs header word data
  | raw data => exact pushRaw_performs data
  | rawSplit data => exact pushRawSplit_performs data
  | varintRun data toWire => exact writeVarintRun_performs toWire data
  | varintRunChunked data toWire => exact writeVarintRunChunked_performs toWire data
  | fixlenRun data toLe => exact writeFixlenRun_performs host data toLe

end Item

/-- A step writes `bytes` as pushing them one at a time would: it ends in the same way with the
same output, and the buffers it hands over are completely filled. -/
structure Bytewise (os : OStream) (bytes : List UInt8) (result : OStream × Exit Error Unit) :
    Prop where
  exit : result.2 = (pushBytes bytes os).2
  output : SameOutput result.1 (pushBytes bytes os).1
  full : HandsFull os result.1

/-- What fills buffers with bytes writes them as one at a time. -/
theorem bytewise_of_performed (hsound : Sound os) (h : Performed Reframed os bytes result) :
    Bytewise os bytes result := by
  obtain ⟨hexit, hsame⟩ := h.bytewise hsound (.refl os)
  exact ⟨hexit.symm, hsame, h.handsFull hsound⟩

/-- The step that writes down its stores ends as the step does, and every store it wrote down falls
between the offset at entry, or that of the buffer installed since, and the end. -/
structure StoresInBounds (logged : Logging × Exit Error Unit) (result : OStream × Exit Error Unit) :
    Prop where
  stream : logged.1.stream = result.1
  exit : logged.2 = result.2
  stores : ∀ r ∈ logged.1.log, r.InBounds

/-- From a sound stream a step stores between the bounds. -/
theorem Mirrors.storesInBounds {logged : LogM Unit} {m : EncodeM Unit} (h : Mirrors logged m)
    (hsound : Sound os) : StoresInBounds (logged os.entering) (m os) := by
  have hcopied := h os.entering ⟨hsound, Nat.le_refl _⟩
  obtain ⟨more, hlog, hmore⟩ := hcopied.inBounds
  refine ⟨hcopied.stream, hcopied.exit, fun r hr => hmore r ?_⟩
  rw [hlog] at hr
  exact hr

/-- Every call whose arguments are accepted, from every stream that a run reaches, and every
writer inside such a call are the byte-at-a-time writer, and make all of their stores between the
offset at entry, or that of the buffer installed since, and the end. -/
theorem writes_bytewise (host : Endian) (hreach : Reachable host os) :
    ∃ φ, Framed os φ ∧
      (∀ (call : Call) φ' bytes, call.emit φ = .ok (φ', bytes) →
        Bytewise os bytes (call.write host os) ∧
          StoresInBounds (Logged.write host call os.entering) (call.write host os)) ∧
      ∀ (item : Item) os', Sound os' →
        Bytewise os' item.canonical (item.write host os') ∧
          StoresInBounds (item.logged host os'.entering) (item.write host os') := by
  obtain ⟨hsound, φ, hframed⟩ := hreach.tracked
  refine ⟨φ, hframed, fun call φ' bytes hemit => ⟨?_, ?_⟩, fun item os' hsound' => ⟨?_, ?_⟩⟩
  · exact bytewise_of_performed hsound (call.write_performed host hsound hframed hemit)
  · exact (write_mirrors host call).storesInBounds hsound
  · exact bytewise_of_performed hsound' ((item.performs host os' hsound').mono reframed_of_eq)
  · exact (item.mirrors host).storesInBounds hsound'

/-- A value of two bytes in a buffer with room for a header and one more. -/
theorem writes_bytewise_crossing :
    let os : OStream := .ofBuffer [0, 0] 0 (some .copying)
    let logged := Logged.write .little (.field (.unsigned 1 300)) os.entering
    (Bytewise os [8, 0xAC, 0x02] (writeUnsigned 1 300 os) ∧
        StoresInBounds logged (writeUnsigned 1 300 os)) ∧
      (writeUnsigned 1 300 os).1.handed = [⟨⟨[0, 0], 0⟩, [8, 0xAC], 2⟩] ∧
      logged.1.log.map (fun r => (r.store.pos, r.store.run)) = [(0, [8]), (1, [0xAC]), (0, [2])] := by
  have hreach : Reachable .little (.ofBuffer [0, 0] 0 (some .copying)) := by
    refine ⟨_, [], @Opened.withFlush [0, 0] 0 .copying _ rfl rfl, ?_, rfl⟩
    intro i hi sink hsink n hn
    obtain rfl : i = 0 := Nat.le_zero.mp hi
    cases hsink
    exact absurd hn (Nat.not_lt_zero n)
  obtain ⟨φ, hframed, hcalls, -⟩ := writes_bytewise .little hreach
  have hheld : φ.held = [] := hframed.pending.unique PendingRun.holds_new
  have hbytes : startHeaders [] ++ (Field.unsigned 1 300).bytes = [8, 0xAC, 0x02] := by decide +kernel
  have hemit : (Call.field (.unsigned 1 300)).emit φ = .ok (⟨φ.depth, []⟩, [8, 0xAC, 0x02]) := by
    rw [Call.emit, if_pos (by decide), hheld, hbytes]
  exact ⟨hcalls _ _ _ hemit, by decide +kernel, by decide +kernel⟩

end Sofab
