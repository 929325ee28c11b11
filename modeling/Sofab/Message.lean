import Sofab.Capacity

/-!
# Messages as trees

A balanced list of writer calls is a tree of field writes and frames. Lazy framing writes
the tree with its empty frames pruned: the frames that neither are kept nor have any
content below them.
-/

namespace Sofab

open Steps Step OStream

/-! ## Calls that are allowed -/

/-- Whether a call may be made with `depth` sequences open. -/
def Call.Allowed (depth : ℕ) : Call → Prop
  | .field f => f.Valid
  | .sequenceBeginLazy id => depth < maxDepth ∧ id.toNat ≤ idMax
  | .sequenceEnd => depth ≠ 0
  | .sequenceEndKeep => depth ≠ 0

/-- The number of open sequences after a call. -/
def Call.depthAfter (depth : ℕ) : Call → ℕ
  | .field _ => depth
  | .sequenceBeginLazy _ => depth + 1
  | .sequenceEnd => depth - 1
  | .sequenceEndKeep => depth - 1

/-- Whether calls may be made in order with `depth` sequences open. -/
def Allowed (depth : ℕ) : List Call → Prop
  | [] => True
  | call :: calls => call.Allowed depth ∧ Allowed (call.depthAfter depth) calls

/-- The number of open sequences after calls. -/
def depthAfter (depth : ℕ) : List Call → ℕ
  | [] => depth
  | call :: calls => depthAfter (call.depthAfter depth) calls

/-- Calls that are allowed from the start and close every sequence they open. -/
structure Balanced (calls : List Call) : Prop where
  allowed : Allowed 0 calls
  closed : depthAfter 0 calls = 0

/-- Calls allowed one list after the other are allowed together. -/
theorem allowed_append {depth : ℕ} {calls more : List Call} (h : Allowed depth calls)
    (hmore : Allowed (depthAfter depth calls) more) : Allowed depth (calls ++ more) := by
  induction calls generalizing depth with
  | nil => exact hmore
  | cons call calls ih => exact ⟨h.1, ih h.2 hmore⟩

/-- Depths follow one another. -/
theorem depthAfter_append (depth : ℕ) (calls more : List Call) :
    depthAfter depth (calls ++ more) = depthAfter (depthAfter depth calls) more := by
  induction calls generalizing depth with
  | nil => rfl
  | cons call calls ih => exact ih _

/-- An allowed call is recorded. -/
theorem Call.Allowed.recorded {tape : Tape} {call : Call}
    (h : call.Allowed tape.framing.depth) :
    (call.record tape).2 = .ok () ∧
      (call.record tape).1.framing.depth = call.depthAfter tape.framing.depth := by
  cases call with
  | field f =>
    rw [record_ok (emit_field tape.framing h)]
    exact ⟨rfl, rfl⟩
  | sequenceBeginLazy id =>
    rw [record_ok (emit_begin tape.framing h.1 h.2)]
    exact ⟨rfl, rfl⟩
  | sequenceEnd =>
    by_cases hnil : tape.framing.held = []
    · rw [record_ok (emit_end tape.framing h hnil)]
      exact ⟨rfl, rfl⟩
    · rw [record_ok (emit_vanish tape.framing h hnil)]
      exact ⟨rfl, rfl⟩
  | sequenceEndKeep =>
    rw [record_ok (emit_keep tape.framing h)]
    exact ⟨rfl, rfl⟩

/-- Allowed calls are all recorded. -/
theorem Allowed.reports {calls : List Call} {tape : Tape}
    (h : Allowed tape.framing.depth calls) :
    ∀ exit ∈ (drive Call.record calls tape).2, exit = .ok () := by
  induction calls generalizing tape with
  | nil => exact fun exit hmem => absurd hmem List.not_mem_nil
  | cons call calls ih =>
    obtain ⟨hreport, hdepth⟩ := h.1.recorded
    have hrest : Allowed (call.record tape).1.framing.depth calls := by
      rw [hdepth]
      exact h.2
    intro exit hmem
    rw [drive_cons] at hmem
    rcases List.mem_cons.mp hmem with rfl | hmem
    · exact hreport
    · exact ih hrest exit hmem

/-! ## Trees -/

/-- A message: field writes and frames, in order, each frame closed by either closer. -/
inductive Message : Type 1
  | done
  | field (f : Field) (rest : Message)
  | frame (id : Id) (body : Message) (keep : Bool) (rest : Message)

/-- The call that closes a frame. -/
def closer (keep : Bool) : Call := if keep then .sequenceEndKeep else .sequenceEnd

namespace Message

/-- The writer calls of a message. -/
def calls : Message → List Call
  | done => []
  | field f rest => .field f :: rest.calls
  | frame id body keep rest => .sequenceBeginLazy id :: (body.calls ++ closer keep :: rest.calls)

/-- The arguments of all calls are valid. -/
def Valid : Message → Prop
  | done => True
  | field f rest => f.Valid ∧ rest.Valid
  | frame id body _ rest => id.toNat ≤ idMax ∧ body.Valid ∧ rest.Valid

/-- How many frames are nested. -/
def height : Message → ℕ
  | done => 0
  | field _ rest => rest.height
  | frame _ body _ rest => max (body.height + 1) rest.height

/-- There is nothing in the message. -/
def isDone : Message → Bool
  | done => true
  | _ => false

/-- The message without the frames that are dropped when nothing is left in them. -/
def prune : Message → Message
  | done => done
  | field f rest => field f rest.prune
  | frame id body keep rest =>
    if !keep && body.prune.isDone then rest.prune else frame id body.prune keep rest.prune

/-- The canonical bytes of a message. -/
def encode : Message → List UInt8
  | done => []
  | field f rest => f.bytes ++ rest.encode
  | frame id body _ rest => startHeader id ++ body.encode ++ endMarker ++ rest.encode

/-- Whether there is a field write or a kept frame somewhere in the message. -/
def hasContent : Message → Bool
  | done => false
  | field _ _ => true
  | frame _ body keep rest => keep || body.hasContent || rest.hasContent

/-- Only the empty message is done. -/
theorem eq_done_of_isDone {m : Message} (h : m.isDone = true) : m = done := by
  cases m with
  | done => rfl
  | field f rest => cases h
  | frame id body keep rest => cases h

/-- What survives pruning is what has content. -/
theorem isDone_prune (m : Message) : m.prune.isDone = !m.hasContent := by
  induction m with
  | done => rfl
  | field f rest ih => rfl
  | frame id body keep rest ihBody ihRest =>
    rw [prune, hasContent, ihBody]
    cases keep with
    | true => rfl
    | false =>
      cases body.hasContent with
      | true => rfl
      | false => exact ihRest

/-- A frame survives pruning exactly when it is kept or has content below it. -/
theorem prune_frame (id : Id) (body : Message) (keep : Bool) (rest : Message) :
    (frame id body keep rest).prune =
      if keep || body.hasContent then frame id body.prune keep rest.prune else rest.prune := by
  rw [prune, isDone_prune]
  cases keep <;> cases body.hasContent <;> rfl

/-- The tape behind a message. -/
def recorded (m : Message) (tape : Tape) : Tape :=
  if m.hasContent then
    ⟨⟨tape.framing.depth, []⟩, tape.bytes ++ startHeaders tape.framing.held ++ m.prune.encode⟩
  else
    tape

/-- The calls of a message are allowed. -/
theorem allowed {m : Message} (hvalid : m.Valid) (depth : ℕ) (hheight : depth + m.height ≤ maxDepth)
    {more : List Call} (hmore : Allowed depth more) : Allowed depth (m.calls ++ more) := by
  induction m generalizing depth more with
  | done => exact hmore
  | field f rest ih => exact ⟨hvalid.1, ih hvalid.2 depth hheight hmore⟩
  | frame id body keep rest ihBody ihRest =>
    obtain ⟨hid, hbody, hrest⟩ := hvalid
    rw [height] at hheight
    have hopen : depth < maxDepth := by omega
    have hafter : Allowed depth (rest.calls ++ more) := ihRest hrest depth (by omega) hmore
    have hclose : Allowed (depth + 1) (closer keep :: (rest.calls ++ more)) := by
      cases keep <;> exact ⟨Nat.succ_ne_zero depth, hafter⟩
    have hinner := ihBody hbody (depth + 1) (by omega) hclose
    rw [← List.cons_append, ← List.append_assoc] at hinner
    exact ⟨⟨hopen, hid⟩, hinner⟩

/-- The tape behind the closer of a frame without content. -/
theorem record_closer_empty (φ : Framing) (id : Id) (keep : Bool) (bytes : List UInt8) :
    ((closer keep).record ⟨⟨φ.depth + 1, φ.held ++ [id]⟩, bytes⟩).1 =
      if keep then ⟨⟨φ.depth, []⟩, bytes ++ (startHeaders φ.held ++ startHeader id ++ endMarker)⟩
      else ⟨φ, bytes⟩ := by
  cases keep with
  | false =>
    rw [closer, if_neg Bool.false_ne_true, Call.record_ok (Call.emit_vanish _ (Nat.succ_ne_zero _)
      (List.append_ne_nil_of_right_ne_nil _ (List.cons_ne_nil _ _)))]
    simp
  | true =>
    rw [closer, if_pos rfl, Call.record_ok (Call.emit_keep _ (Nat.succ_ne_zero _)),
      startHeaders_append]
    simp [startHeaders]

/-- The tape behind the closer of a frame with content. -/
theorem record_closer_full (depth : ℕ) (keep : Bool) (bytes : List UInt8) :
    ((closer keep).record ⟨⟨depth + 1, []⟩, bytes⟩).1 = ⟨⟨depth, []⟩, bytes ++ endMarker⟩ := by
  cases keep with
  | false =>
    rw [closer, if_neg Bool.false_ne_true, Call.record_ok (Call.emit_end _ (Nat.succ_ne_zero _) rfl)]
    rfl
  | true =>
    rw [closer, if_pos rfl, Call.record_ok (Call.emit_keep _ (Nat.succ_ne_zero _))]
    rfl

/-- Behind content a message is recorded without headers held back. -/
theorem recorded_committed (m : Message) (depth : ℕ) (bytes : List UInt8) :
    m.recorded ⟨⟨depth, []⟩, bytes⟩ = ⟨⟨depth, []⟩, bytes ++ m.prune.encode⟩ := by
  rw [recorded]
  cases hm : m.hasContent with
  | true => simp [startHeaders]
  | false =>
    have hdone : m.prune = done := eq_done_of_isDone (by rw [isDone_prune, hm]; rfl)
    simp [hdone, encode]

/-- The calls of a message record what is left of it when it is pruned. -/
theorem record_calls {m : Message} (hvalid : m.Valid) {tape : Tape}
    (hheight : tape.framing.depth + m.height ≤ maxDepth) :
    (drive Call.record m.calls tape).1 = m.recorded tape := by
  induction m generalizing tape with
  | done => rfl
  | field f rest ih =>
    have hrest := @ih hvalid.2
      ⟨⟨tape.framing.depth, []⟩, tape.bytes ++ (startHeaders tape.framing.held ++ f.bytes)⟩ hheight
    rw [calls, drive_cons, Call.record_ok (Call.emit_field tape.framing hvalid.1)]
    refine hrest.trans ?_
    rw [recorded_committed, recorded, hasContent, if_pos rfl, prune, encode]
    simp only [List.append_assoc]
  | frame id body keep rest ihBody ihRest =>
    obtain ⟨hid, hbody, hrest⟩ := hvalid
    rw [height] at hheight
    have hopen : tape.framing.depth < maxDepth := by omega
    have hinner := @ihBody hbody ⟨⟨tape.framing.depth + 1, tape.framing.held ++ [id]⟩, tape.bytes ++ []⟩
      (by dsimp only; omega)
    have houter (bytes : List UInt8) (held : List Id) :=
      @ihRest hrest ⟨⟨tape.framing.depth, held⟩, bytes⟩ (by dsimp only; omega)
    rw [calls, drive_cons, Call.record_ok (Call.emit_begin tape.framing hopen hid), drive_append,
      drive_cons]
    dsimp only
    rw [hinner, recorded, List.append_nil]
    cases hcontent : body.hasContent with
    | true =>
      rw [if_pos rfl]
      dsimp only
      rw [record_closer_full, houter, recorded_committed, recorded, hasContent, hcontent,
        prune_frame, hcontent, Bool.or_true, if_pos rfl, Bool.true_or, if_pos rfl, encode,
        startHeaders_append]
      simp [startHeaders]
    | false =>
      rw [if_neg Bool.false_ne_true, record_closer_empty]
      cases keep with
      | true =>
        have hdone : body.prune = done :=
          eq_done_of_isDone (by rw [isDone_prune, hcontent]; rfl)
        rw [if_pos rfl, houter, recorded_committed, recorded, hasContent, Bool.true_or,
          Bool.true_or, if_pos rfl, prune_frame, Bool.true_or, if_pos rfl, encode, hdone, encode]
        simp
      | false =>
        rw [if_neg Bool.false_ne_true]
        refine (houter _ _).trans ?_
        rw [recorded, recorded, hasContent, hcontent, prune_frame, hcontent]
        rfl

/-- A message leaves as many sequences open as it found. -/
theorem depthAfter_calls (m : Message) (depth : ℕ) (more : List Call) :
    depthAfter depth (m.calls ++ more) = depthAfter depth more := by
  induction m generalizing depth more with
  | done => rfl
  | field f rest ih => exact ih depth more
  | frame id body keep rest ihBody ihRest =>
    have hclose : depthAfter (depth + 1) (closer keep :: (rest.calls ++ more)) =
        depthAfter depth (rest.calls ++ more) := by
      cases keep <;> rfl
    have hinner := ihBody (depth + 1) (closer keep :: (rest.calls ++ more))
    rw [← List.cons_append, ← List.append_assoc] at hinner
    exact hinner.trans (hclose.trans (ihRest depth more))

end Message

/-- What allowed calls begin with: a message, and behind it nothing or the closer of a frame
around it. -/
structure Begins (depth : ℕ) (calls : List Call) (m : Message) (more : List Call) : Prop where
  calls_eq : calls = m.calls ++ more
  valid : m.Valid
  height : depth + m.height ≤ maxDepth
  allowed : Allowed depth more
  stops : more = [] ∨ ∃ keep rest, more = closer keep :: rest

/-- Calls that leave no more sequences open than they found begin with a message. -/
theorem exists_begins (calls : List Call) (depth : ℕ) (hallowed : Allowed depth calls)
    (hclosed : depthAfter depth calls ≤ depth) (hdepth : depth ≤ maxDepth) :
    ∃ m more, Begins depth calls m more := by
  match calls, hallowed, hclosed with
  | [], _, _ => exact ⟨.done, [], rfl, trivial, hdepth, trivial, .inl rfl⟩
  | .field f :: calls, ⟨hvalid, hallowed⟩, hclosed =>
    obtain ⟨m, more, h⟩ := exists_begins calls depth hallowed hclosed hdepth
    exact ⟨.field f m, more, congrArg (_ :: ·) h.calls_eq, ⟨hvalid, h.valid⟩, h.height, h.allowed,
      h.stops⟩
  | .sequenceEnd :: calls, hallowed, _ =>
    exact ⟨.done, _, rfl, trivial, hdepth, hallowed, .inr ⟨false, calls, rfl⟩⟩
  | .sequenceEndKeep :: calls, hallowed, _ =>
    exact ⟨.done, _, rfl, trivial, hdepth, hallowed, .inr ⟨true, calls, rfl⟩⟩
  | .sequenceBeginLazy id :: calls, ⟨⟨hopen, hid⟩, hallowed⟩, hclosed =>
    have hinner : depthAfter (depth + 1) calls ≤ depth := hclosed
    obtain ⟨body, after, hbody⟩ :=
      exists_begins calls (depth + 1) hallowed (hinner.trans (Nat.le_succ depth)) hopen
    rw [hbody.calls_eq, Message.depthAfter_calls] at hinner
    rcases hbody.stops with rfl | ⟨keep, rest, rfl⟩
    · exact absurd hinner (Nat.not_succ_le_self depth)
    · have hrest : Allowed depth rest := by
        have hstep := hbody.allowed.2
        cases keep <;> exact hstep
      have hleft : depthAfter depth rest ≤ depth := by
        cases keep <;> exact hinner
      have hshort : rest.length < calls.length := by
        rw [hbody.calls_eq, List.length_append, List.length_cons]
        omega
      obtain ⟨m, more, h⟩ := exists_begins rest depth hrest hleft hdepth
      have hheight := hbody.height
      have hheight' := h.height
      refine ⟨.frame id body keep m, more, ?_, ⟨hid, hbody.valid, h.valid⟩, ?_, h.allowed, h.stops⟩
      · rw [hbody.calls_eq, h.calls_eq, Message.calls]
        simp
      · rw [Message.height]
        omega
termination_by calls.length
decreasing_by
  all_goals simp_wf
  omega

/-- The balanced lists of calls are the calls of the messages. -/
theorem balanced_iff (calls : List Call) :
    Balanced calls ↔ ∃ m : Message, m.Valid ∧ m.height ≤ maxDepth ∧ m.calls = calls := by
  constructor
  · intro h
    obtain ⟨m, more, hbegins⟩ :=
      exists_begins calls 0 h.allowed h.closed.le (Nat.zero_le _)
    have hheight := hbegins.height
    rw [Nat.zero_add] at hheight
    rcases hbegins.stops with rfl | ⟨keep, rest, rfl⟩
    · exact ⟨m, hbegins.valid, hheight, by rw [hbegins.calls_eq, List.append_nil]⟩
    · have hclose := hbegins.allowed.1
      cases keep <;> exact absurd rfl hclose
  · rintro ⟨m, hvalid, hheight, rfl⟩
    have hallowed := Message.allowed hvalid 0 (by rwa [Nat.zero_add]) (show Allowed 0 [] from trivial)
    have hclosed := m.depthAfter_calls 0 []
    rw [List.append_nil] at hallowed hclosed
    exact ⟨hallowed, hclosed⟩

/-! ## Lazy framing -/

/-- A stream without a sink in which the calls of a message were made, with room for what is
left of it. -/
theorem Message.written (host : Endian) {m : Message} (hvalid : m.Valid)
    (hheight : m.height ≤ maxDepth) {buffer : List UInt8} {offset : ℕ} {os : OStream}
    (hopen : withOffset buffer offset = .ok os)
    (hroom : m.prune.encode.length ≤ buffer.length - offset) :
    (∀ exit ∈ (writeAll host m.calls os).2, exit = .ok ()) ∧
      (writeAll host m.calls os).1.buffer.take (writeAll host m.calls os).1.bytesUsed =
        buffer.take offset ++ m.prune.encode := by
  have hcalls : Balanced m.calls := (balanced_iff m.calls).mpr ⟨m, hvalid, hheight, rfl⟩
  have hrecord : (record m.calls).1.bytes = m.prune.encode := by
    rw [record, record_calls hvalid (by change 0 + _ ≤ _; rwa [Nat.zero_add])]
    exact congrArg Tape.bytes (m.recorded_committed 0 [])
  have hbounded := bounded_withOffset hopen
  have hlast := hbounded.after host m.calls
  have hfits : (record m.calls).1.bytes.length ≤ Installation.capacity ⟨buffer, offset⟩ := by
    rw [hrecord]
    exact hroom
  refine ⟨?_, ?_⟩
  · rw [hbounded.reports host m.calls hfits]
    exact @Allowed.reports _ .new hcalls.allowed
  · have hstored : (writeAll host m.calls os).1.buffer.take (writeAll host m.calls os).1.bytesUsed = _ :=
      (hlast.written hfits).sound.stored hlast.sinkless
    rw [hstored, hlast.installed_eq, (hlast.written hfits).message]
    exact congrArg _ hrecord

/-- With room for what is left of a message when it is pruned, every call succeeds and exactly
that is written; a frame is left if it is kept or has a field write or a kept frame below. -/
theorem lazy_framing_prunes (host : Endian) {m : Message} (hvalid : m.Valid)
    (hheight : m.height ≤ maxDepth) {buffer : List UInt8} {offset : ℕ} {os : OStream}
    (hopen : withOffset buffer offset = .ok os)
    (hroom : m.prune.encode.length ≤ buffer.length - offset) :
    (∀ exit ∈ (writeAll host m.calls os).2, exit = .ok ()) ∧
      (writeAll host m.calls os).1.buffer.take (writeAll host m.calls os).1.bytesUsed =
        buffer.take offset ++ m.prune.encode ∧
      ∀ id body keep rest, (Message.frame id body keep rest).prune =
        if keep || body.hasContent then .frame id body.prune keep rest.prune else rest.prune :=
  ⟨(Message.written host hvalid hheight hopen hroom).1,
    (Message.written host hvalid hheight hopen hroom).2, Message.prune_frame⟩

/-- A kept frame around a frame that vanishes. -/
theorem lazy_framing_prunes_kept :
    (writeAll .little (Message.frame 1 (.frame 2 .done false .done) true .done).calls
      (.ofBuffer [0, 0] 0 none)).1.buffer.take 2 = [14, 7] := by
  have hlaw := @lazy_framing_prunes .little (.frame 1 (.frame 2 .done false .done) true .done)
    ⟨by decide, ⟨by decide, trivial, trivial⟩, trivial⟩ (by decide) [0, 0] 0 _ rfl (by decide +kernel)
  have hused : (writeAll .little (Message.frame 1 (.frame 2 .done false .done) true .done).calls
      (.ofBuffer [0, 0] 0 none)).1.bytesUsed = 2 := by
    decide +kernel
  have hbytes := hlaw.2.1
  rw [hused] at hbytes
  exact hbytes.trans (by decide +kernel)

end Sofab
