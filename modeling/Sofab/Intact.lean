import Sofab.Bookkeeping
import Sofab.Transport

/-!
# Whatever the caller does, the bytes are well formed

A refused call leaves no trace, a sequence without content vanishes, and a header goes out with
the content it was held back for. What goes out is therefore the canonical bytes of calls that
are allowed, those that surface. An encoder that runs out of room, or of buffers, writes a
beginning of them, which no decoder rejects.
-/

namespace Sofab

open Reading Reading.Reader Steps Step OStream IStream

/-! ## Calls that surface -/

/-- The calls that open sequences, outermost first. -/
def opens (held : List Id) : List Call := held.map .sequenceBeginLazy

/-- The calls of which the bytes go out when a call goes through. -/
def Call.surfaces (φ : Framing) (call : Call) : List Call :=
  match call with
  | .field _ => opens φ.held ++ [call]
  | .sequenceBeginLazy _ => []
  | .sequenceEnd => if φ.held = [] then [call] else []
  | .sequenceEndKeep => opens φ.held ++ [call]

/-- The calls of which the bytes go out in a run; a refused call does not show. -/
def surfaced (φ : Framing) : List Call → List Call
  | [] => []
  | call :: calls =>
    match call.emit φ with
    | .ok (φ', _) => call.surfaces φ ++ surfaced φ' calls
    | .error _ => surfaced φ calls

/-- The number of open sequences of which the header went out. -/
def Framing.shown (φ : Framing) : ℕ := φ.depth - φ.held.length

/-- A lawful framing that holds back legal ids. -/
structure Framing.Legal (φ : Framing) : Prop extends φ.Lawful where
  ids : ∀ id ∈ φ.held, id.toNat ≤ idMax

/-- Calls that are allowed by what went out before them, and write some bytes. -/
structure Surfacing (φ : Framing) (calls : List Call) (φ' : Framing) (bytes : List UInt8) :
    Prop where
  allowed : Allowed φ.shown calls
  depth : depthAfter φ.shown calls = φ'.shown
  wire : calls.flatMap Call.wire = bytes

section Surfacing

variable {φ φ₁ φ' : Framing} {call : Call} {bytes : List UInt8}

/-- Opening sequences adds as many to the depth. -/
theorem depthAfter_opens (depth : ℕ) (held : List Id) :
    depthAfter depth (opens held) = depth + held.length := by
  induction held generalizing depth with
  | nil => rfl
  | cons id held ih =>
    refine (ih (depth + 1)).trans ?_
    simp only [List.length_cons]
    omega

/-- Opening sequences stands for their start headers. -/
theorem opens_wire (held : List Id) : (opens held).flatMap Call.wire = startHeaders held := by
  rw [opens, List.flatMap_map]
  rfl

/-- Sequences may be opened as long as there is room for all of them. -/
theorem allowed_opens {depth : ℕ} {held : List Id} (hroom : depth + held.length ≤ maxDepth)
    (hids : ∀ id ∈ held, id.toNat ≤ idMax) : Allowed depth (opens held) := by
  induction held generalizing depth with
  | nil => trivial
  | cons id held ih =>
    obtain ⟨hid, hids⟩ := List.forall_mem_cons.mp hids
    rw [List.length_cons] at hroom
    have hrest : Allowed (depth + 1) (opens held) := ih (by omega) hids
    exact ⟨⟨by omega, hid⟩, hrest⟩

/-- The framing of a new stream is legal. -/
theorem Framing.legal_new : Framing.new.Legal := ⟨Framing.lawful_new, by simp [Framing.new]⟩

/-- Behind the held-back headers all open sequences show. -/
theorem Framing.Lawful.shown (h : φ.Lawful) : φ.shown + φ.held.length = φ.depth :=
  Nat.sub_add_cancel h.held

/-- Calls that go out behind the held-back headers. -/
theorem Surfacing.behind_opens (hφ : φ.Legal) {calls : List Call} (hallowed : Allowed φ.depth calls)
    (hdepth : depthAfter φ.depth calls = φ'.shown) :
    Surfacing φ (opens φ.held ++ calls) φ' (startHeaders φ.held ++ calls.flatMap Call.wire) := by
  have hall := hφ.shown
  have hopens : depthAfter φ.shown (opens φ.held) = φ.depth := (depthAfter_opens _ _).trans hall
  refine ⟨allowed_append (allowed_opens (hall.trans_le hφ.depth) hφ.ids) (by rwa [hopens]), ?_, ?_⟩
  · rw [depthAfter_append, hopens, hdepth]
  · rw [List.flatMap_append, opens_wire]

/-- The calls that surface write the bytes of a call that goes through. -/
theorem Emitted.surfacing (hφ : φ.Legal) (h : Emitted φ call φ' bytes) :
    Surfacing φ (call.surfaces φ) φ' bytes := by
  have hheld := hφ.held
  cases h with
  | @field f hvalid =>
    have hall := @Surfacing.behind_opens φ ⟨φ.depth, []⟩ hφ [.field f] ⟨hvalid, trivial⟩ rfl
    rwa [List.flatMap_singleton] at hall
  | opened =>
    refine ⟨trivial, ?_, rfl⟩
    simp [Framing.shown, Call.surfaces, depthAfter]
  | closed hopen hnil =>
    have hshown : φ.shown = φ.depth := by rw [Framing.shown, hnil]; rfl
    rw [Call.surfaces, if_pos hnil]
    exact ⟨⟨by rwa [hshown], trivial⟩, congrArg (· - 1) hshown, rfl⟩
  | vanished hopen hne =>
    have hpos := List.length_pos_iff.mpr hne
    rw [Call.surfaces, if_neg hne]
    refine ⟨trivial, ?_, rfl⟩
    simp only [depthAfter, Framing.shown, List.length_dropLast]
    omega
  | kept hopen =>
    exact @Surfacing.behind_opens φ ⟨φ.depth - 1, []⟩ hφ [.sequenceEndKeep] ⟨hopen, trivial⟩ rfl

/-- A call that goes through leaves a legal framing. -/
theorem Emitted.legal (hφ : φ.Legal) (h : Emitted φ call φ' bytes)
    (hlawful : φ'.Lawful) : φ'.Legal := by
  refine ⟨hlawful, fun id hid => ?_⟩
  cases h with
  | opened _ hinRange =>
    rcases List.mem_append.mp hid with hid | hid
    · exact hφ.ids id hid
    · obtain rfl := List.mem_singleton.mp hid
      exact hinRange
  | vanished => exact hφ.ids id (List.dropLast_subset _ hid)
  | _ => exact absurd hid List.not_mem_nil

/-- Calls that surface one list after the other surface together. -/
theorem Surfacing.append {calls more : List Call} {bytes' : List UInt8}
    (h : Surfacing φ calls φ₁ bytes) (h' : Surfacing φ₁ more φ' bytes') :
    Surfacing φ (calls ++ more) φ' (bytes ++ bytes') where
  allowed := allowed_append h.allowed (by rw [h.depth]; exact h'.allowed)
  depth := by rw [depthAfter_append, h.depth, h'.depth]
  wire := by rw [List.flatMap_append, h.wire, h'.wire]

end Surfacing

/-- What a tape records of calls are the bytes of those that surface. -/
theorem record_surfacing (calls : List Call) {tape : Tape} (hlegal : tape.framing.Legal) :
    ∃ bytes, (drive Call.record calls tape).1.bytes = tape.bytes ++ bytes ∧
      Surfacing tape.framing (surfaced tape.framing calls)
        (drive Call.record calls tape).1.framing bytes := by
  induction calls generalizing tape with
  | nil => exact ⟨[], (List.append_nil _).symm, trivial, rfl, rfl⟩
  | cons call calls ih =>
    rw [drive_cons, surfaced]
    rcases hemit : call.emit tape.framing with e | ⟨φ, added⟩
    · rw [Call.record_error hemit]
      exact ih hlegal
    · have hemitted := Call.emitted hemit
      obtain ⟨bytes, hbytes, hrest⟩ := @ih ⟨φ, tape.bytes ++ added⟩
        (hemitted.legal hlegal (Call.emit_lawful hlegal.toLawful hemit))
      rw [Call.record_ok hemit]
      refine ⟨added ++ bytes, ?_, (hemitted.surfacing hlegal).append hrest⟩
      rw [hbytes, List.append_assoc]

/-- On a new tape they are allowed from the start. -/
theorem record_surfaced (calls : List Call) :
    Surfacing .new (surfaced .new calls) (record calls).1.framing (record calls).1.bytes := by
  obtain ⟨bytes, hbytes, hall⟩ := @record_surfacing calls .new Framing.legal_new
  have hsame : (record calls).1.bytes = bytes := hbytes
  rw [hsame]
  exact hall

/-! ## Runs of an encoder -/

/-- Every handover returns, and without a sink no other buffer is installed. -/
structure Undisturbed (os : OStream) (ops : List Op) : Prop where
  returns : ∀ sink, os.flush_ = some sink → Answer.Returns sink.answer
  only : os.flush_ = none → ∀ buffer offset, .bufferSet buffer offset ∉ ops

section Following

variable {os : OStream} {tape : Tape}

/-- Without a sink a flush does nothing. -/
theorem flush_sinkless (hsound : Sound os) (hnone : os.flush_ = none) :
    OStream.flush os = (os, .ok os.offset) := by
  have hlive : ¬os.dead = true := fun hdead => by
    have hsome := hsound.isSome_of_dead hdead
    rw [hnone] at hsome
    cases hsome
  rw [OStream.flush, self_bind, if_neg hlive, if_neg (by simp [hnone])]
  rfl

/-- Operations keep a run bounded that goes on in its only buffer. -/
theorem Bounded.afterAll {installed : Installation} (h : Bounded os installed tape) (host : Endian)
    {ops : List Op} (honly : ∀ buffer offset, .bufferSet buffer offset ∉ ops) :
    Bounded (runAll host ops os).1 installed (drive Call.record (callsOf ops) tape).1 := by
  induction ops generalizing os tape with
  | nil => exact h
  | cons op ops ih =>
    have honly' (buffer : List UInt8) (offset : ℕ) : .bufferSet buffer offset ∉ ops := fun hmem =>
      honly buffer offset (List.mem_cons_of_mem _ hmem)
    rw [drive_callsOf]
    cases op with
    | call c => exact ih (h.after host [c]) honly'
    | flush =>
      have hsound : Sound os := h.state.elim Written.sound Stopped.sound
      have hidle : (Op.run host .flush os).1 = os := by
        rw [Op.run, bind_ok (flush_sinkless hsound h.sinkless)]
        rfl
      have hrest := ih h honly'
      rw [← hidle] at hrest
      exact hrest
    | bufferSet buffer offset => exact absurd List.mem_cons_self (honly buffer offset)

/-- The stream has written what is on the tape, or a beginning of it. -/
theorem message_prefix (h : Written os tape ∨ Stopped os tape) : os.message <+: tape.bytes := by
  rcases h with hwritten | hstopped
  · rw [hwritten.message]
  · obtain ⟨rest, hrest, _⟩ := hstopped.message
    exact ⟨rest, hrest.symm⟩

/-- An undisturbed run writes its tape, or a beginning of it. -/
theorem Opened.follows (hopen : Opened os) {ops : List Op} (h : Undisturbed os ops) (host : Endian) :
    Written (runAll host ops os).1 (record (callsOf ops)).1 ∨
      Stopped (runAll host ops os).1 (record (callsOf ops)).1 := by
  rcases hsink : os.flush_ with _ | sink
  · exact (Bounded.afterAll ⟨hsink, rfl, .inl hopen.written⟩ host (h.only hsink)).state
  · have hstart : Streaming sink.answer os .new := ⟨by rw [hsink]; rfl, .inl hopen.written⟩
    exact (hstart.after (h.returns sink hsink) host ops).state

end Following

/-! ## What a decoder makes of them -/

/-- A chunk is fed behind those before it. -/
theorem feedAll_concat (is : IStream) (chunk : List UInt8) (rest : List (List UInt8))
    (last : List UInt8) :
    feedAll is chunk (rest ++ [last]) =
      (feed last (feedAll is chunk rest).is).after (feedAll is chunk rest).calls := by
  induction rest generalizing is chunk with
  | nil => rfl
  | cons next rest ih =>
    rw [List.cons_append, feedAll, feedAll, ih]
    simp [Parsed.after]

section Receiving

variable {cs : List Call} {chunk : List UInt8} {rest : List (List UInt8)}

/-- A beginning of the canonical bytes of allowed calls is not rejected, and the visitor is told
a beginning of their events. -/
theorem Allowed.begun (h : Allowed 0 cs)
    (hbegins : (chunk :: rest).flatten <+: cs.flatMap Call.wire) :
    (feedAll IStream.new chunk rest).result ≠ .error .invalidMsg ∧
      ∃ later, glue ((feedAll IStream.new chunk rest).calls ++ later) = cs.flatMap Call.events := by
  obtain ⟨missing, hmissing⟩ := hbegins
  constructor
  · intro hrejected
    obtain ⟨houtcome, _⟩ := h.reads
    have hinvalid : (readMessage (chunk :: rest).flatten).outcome = .invalid := by
      rw [(feedAll_new_reads chunk rest).1, verdict] at hrejected
      split at hrejected
      · cases hrejected
      · cases hrejected
      · assumption
    have hsame := exhaust_invalid_append local_readField hinvalid missing
    rw [hmissing] at hsame
    have habsurd := houtcome.symm.trans ((congrArg Report.outcome hsame).trans hinvalid)
    cases habsurd
  · have hall : (chunk :: (rest ++ [missing])).flatten = cs.flatMap Call.wire := by
      rw [← hmissing]
      simp
    have hglued := (h.told hall).2
    rw [feedAll_concat] at hglued
    exact ⟨_, hglued⟩

end Receiving

/-- Whatever operations are made on an encoder, refused or not and through any buffers, a decoder
that is fed the units in any chunks rejects none, and tells its visitor a beginning of the events
of the calls that surfaced. Of an encoder that is not spent it tells all of them, and the message
is complete exactly when every sequence that surfaced is closed. -/
theorem units_never_malformed (host : Endian) {os : OStream} (hopen : Opened os) {ops : List Op}
    (hrun : Undisturbed os ops) {chunk : List UInt8} {rest : List (List UInt8)}
    (hchunks : (chunk :: rest).flatten = (runAll host ops os).1.message) :
    (feedAll IStream.new chunk rest).result ≠ .error .invalidMsg ∧
      (∃ later, glue ((feedAll IStream.new chunk rest).calls ++ later) =
        (surfaced .new (callsOf ops)).flatMap Call.events) ∧
      (¬(runAll host ops os).1.Spent →
        (feedAll IStream.new chunk rest).result = .ok (if
          (record (callsOf ops)).1.framing.shown = 0 then .complete else .incomplete) ∧
        glue (feedAll IStream.new chunk rest).calls =
          (surfaced .new (callsOf ops)).flatMap Call.events) := by
  have hsurfaced := record_surfaced (callsOf ops)
  have hallowed : Allowed 0 (surfaced .new (callsOf ops)) := hsurfaced.allowed
  have hfollows := hopen.follows hrun host
  have hbegins := message_prefix hfollows
  rw [← hchunks, ← hsurfaced.wire] at hbegins
  obtain ⟨hvalid, hbegun⟩ := hallowed.begun hbegins
  refine ⟨hvalid, hbegun, fun hroom => ?_⟩
  have hwritten := hfollows.resolve_right fun hstopped => hroom hstopped.spent
  rw [hwritten.message, ← hsurfaced.wire] at hchunks
  rw [← hsurfaced.depth]
  exact hallowed.told hchunks

/-- An empty frame, an end without a begin and a field that does not fit any more. -/
theorem units_never_malformed_cut :
    (feedAll IStream.new [14, 8] []).result ≠ .error .invalidMsg :=
  (@units_never_malformed .little (.new [0, 0]) (.new [0, 0])
    [.call .sequenceEnd, .call (.sequenceBeginLazy 3), .call .sequenceEnd, .flush,
      .call (.sequenceBeginLazy 1), .call (.field (.unsigned 1 5))]
    ⟨by simp [OStream.new, ofBuffer], by simp⟩ [14, 8] [] (by decide +kernel)).1

end Sofab
