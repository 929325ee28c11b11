import Sofab.Restart

/-!
# The empty feed is an inert probe

An empty chunk is parsed like any other: the carried bytes are parsed again and held again, a
body in progress is taken up and suspended again. None of this calls the visitor, and the
stream left agrees with the one before. What is reported is where the bytes so far end.
-/

namespace Sofab

open Reading Reading.Reader DecodeM IStream

variable {is : IStream} {tail : List UInt8}

/-- Putting back what was in progress puts the stream back. -/
theorem resume_same (is : IStream) {resume resume' : Resume} (h : is.resume = resume) :
    { { is with resume := resume' } with resume := resume } = is := by
  rw [← h]

/-- A body that needs more bytes is taken up and suspended again. -/
theorem resumeItem_pending (h : Pending is.resume tail) :
    resumeItem tail 0 is = ⟨[], is, .ok 0⟩ := by
  rw [resumeItem, self_bind]
  rcases hresume : is.resume with _ | ⟨id, isBlob, total, remaining⟩ | ⟨id, signed, remaining⟩ |
    ⟨id, fp64, remaining⟩
  · exact absurd hresume h.ne_none
  · rw [hresume] at h
    obtain ⟨rfl, hpos, htotal⟩ := h
    simp only [deliverPayload]
    rw [self_bind, hresume]
    rfl
  · rw [hresume] at h
    obtain ⟨hpos, hshort⟩ := h
    obtain ⟨n, rfl⟩ := Nat.exists_eq_succ_of_ne_zero hpos.ne'
    have hread : readVarint tail 0 = .ok none := by
      rcases readVarint_cases tail 0 with ⟨_, _, _, _, _, _, hword⟩ | ⟨hread, _⟩ | ⟨_, hword⟩
      · rw [List.drop_zero, hshort] at hword
        cases hword
      · exact hread
      · rw [List.drop_zero, hshort] at hword
        cases hword
    simp only [intArray_eq, intArrayTail, hread]
    exact congrArg (fun is => Parsed.mk [] is (.ok 0)) (resume_same is hresume)
  · rw [hresume] at h
    obtain ⟨hpos, hshort⟩ := h
    obtain ⟨n, rfl⟩ := Nat.exists_eq_succ_of_ne_zero hpos.ne'
    simp only [fixArray, Nat.sub_zero, if_pos hshort]
    exact congrArg (fun is => Parsed.mk [] is (.ok 0)) (resume_same is hresume)

/-- A header or word that is torn stops the field loop in front of it. -/
theorem parseFields_torn {torn : List UInt8} {notes : List Note} (hnone : is.resume = .none)
    (hshort : readHead is.depth tail = ⟨notes, .short torn⟩) :
    parseFields tail 0 is = ⟨[], is, .ok 0⟩ := by
  by_cases hend : tail.length ≤ 0
  · exact parseFields_of_le is hend
  · have hfield : TurnRefines tail 0 0 is (readHead is.depth) (parseField tail 0 is) :=
      parseField_refines hnone
    have hlt := Nat.lt_of_not_le hend
    generalize hturn : parseField tail 0 is = turn at hfield
    cases hfield with
    | body more hread =>
      rw [List.drop_zero, hshort] at hread
      cases hread
    | torn more torn hread => exact parseFields_of_finish hlt hturn
    | rejected more hread =>
      rw [List.drop_zero, hshort] at hread
      cases hread

/-- Parsing a held tail again changes nothing. -/
theorem parse_held (h : Held is.depth is.resume tail) : parse tail is = ⟨[], is, .ok 0⟩ := by
  rw [parse, self_bind]
  generalize hresume : is.resume = resume at h
  cases h with
  | boundary =>
    rw [if_pos rfl]
    exact parseFields_of_le is (Nat.le_refl 0)
  | head notes hshort _ =>
    rw [if_pos rfl]
    exact parseFields_torn hresume hshort
  | body hpending =>
    have hagain := resumeItem_pending (hresume.symm ▸ hpending)
    rw [if_neg hpending.ne_none, bind_ok hagain, self_bind, hresume, if_neg hpending.ne_none]
    rfl

/-- Latching leaves alone what is no error. -/
theorem latch_of_ok {α : Type} {m : DecodeM α} {calls : List Callback} {is' : IStream} {a : α}
    (h : m is = ⟨calls, is', .ok a⟩) : latch m is = ⟨calls, is', .ok a⟩ := by
  rw [latch, h]

/-- Between feeds there is nothing to consume in no bytes. -/
theorem consume_nil (h : Held is.depth is.resume []) : consume [] is = ⟨[], is, .ok 0⟩ := by
  have hparse := latch_of_ok (parse_held h)
  rw [consume, self_bind]
  rcases hresume : is.resume with _ | ⟨id, isBlob, total, remaining⟩ | _ | _
  · exact hparse
  · have hdeliver : deliverPayload [] 0 is = ⟨[], is, .ok 0⟩ := by
      rw [deliverPayload, self_bind, hresume]
      rfl
    simp only
    rw [bind_ok hdeliver, self_bind, if_neg (by rw [hresume]; simp)]
    rfl
  · exact hparse
  · exact hparse

/-- No bytes change nothing in the carry. -/
theorem storeCarry_nil (is : IStream) (at_ : ℕ) : is.storeCarry at_ [] = is := by
  refine IStream.ext ?_ rfl rfl rfl rfl
  change Splice.overwrite is.carry at_ [] = is.carry
  rw [Splice.overwrite, List.take_nil, List.append_nil, List.length_nil, Nat.add_zero,
    List.take_append_drop]

/-- With nothing behind it the carried item is held again. -/
theorem resumeCarried_nil (h : WellFormed is) (hcarry : is.carryLen ≠ 0) :
    resumeCarried [] is = ⟨[], is.holding is.live, .ok none⟩ := by
  have hparse := latch_of_ok (parse_held h.held)
  have hcarried := resumeCarried_eq [] h.fits.le
  simp only [List.length_nil, Nat.min_zero, List.take_nil, List.append_nil, storeCarry_nil]
    at hcarried
  rw [hcarried, bind_ok hparse, settle, if_neg (Nat.not_le.mpr (Nat.pos_of_ne_zero hcarry)),
    update_bind, List.length_nil, if_neg (Nat.lt_irrefl 0), List.drop_zero]
  rfl

/-- Holding the live bytes again is no change to speak of. -/
theorem agree_holding_live (h : WellFormed is) : Agree is (is.holding is.live) where
  fits := h.fits.le
  carryLen := h.live_length
  live := holding_live (h.live_length.le.trans h.fits.le)
  resume := rfl
  depth := rfl
  invalid := rfl

/-- An empty feed calls nothing, says where the stream is, and leaves one that agrees. -/
theorem feed_nil (h : WellFormed is) (hvalid : is.invalid = false) :
    ∃ is', feed [] is = ⟨[], is', .ok is.verdict⟩ ∧ Agree is is' := by
  rw [feed, self_bind, hvalid, if_neg Bool.false_ne_true, self_bind]
  by_cases hcarry : is.carryLen = 0
  · have hheld := h.held
    rw [live, hcarry, List.take_zero] at hheld
    refine ⟨is, ?_, h.fits.le, rfl, rfl, rfl, rfl, rfl⟩
    rw [if_pos hcarry, feedRest, bind_ok (consume_nil hheld)]
    rfl
  · have hagree := agree_holding_live h
    refine ⟨is.holding is.live, ?_, hagree⟩
    rw [if_neg hcarry, bind_ok (resumeCarried_nil h hcarry), ← verdict_agree hagree]
    rfl

/-- An empty feed leaves a stream that reports what it would have without. -/
theorem Fed.probe {bytes : List UInt8} (h : Fed bytes is) :
    (IStream.feed [] is).calls = [] ∧
      ∀ later, ((IStream.feed [] is).is.feedEach later).1 = (is.feedEach later).1 := by
  by_cases hinvalid : is.invalid = true
  · rw [feed_of_invalid hinvalid]
    exact ⟨rfl, fun _ => rfl⟩
  · have hfollows := h.follows.resolve_right hinvalid
    obtain ⟨is', hfeed, hagree⟩ := feed_nil hfollows.wellFormed hfollows.valid
    rw [hfeed]
    exact ⟨rfl, hagree.feedEach⟩

/-- The verdict says where the bytes so far end. -/
theorem Follows.verdict_iff {bytes : List UInt8} (h : Follows bytes is) :
    is.verdict = .complete ↔ Chain readField 0 bytes 0 := by
  obtain ⟨made, hreads⟩ := h.reads
  have hnow := hreads []
  rw [List.append_nil, List.append_nil] at hnow
  have hverdict : Sofab.verdict (readMessage bytes) = .ok is.verdict :=
    (verdict_congr hnow.outcome).trans h.wellFormed.verdict_eq
  have hchain : Chain readField 0 bytes 0 ↔ (readMessage bytes).outcome = .done 0 [] :=
    chain_iff_exhaust local_readField 0 0 bytes
  rw [hchain]
  rw [Sofab.verdict] at hverdict
  rcases houtcome : (readMessage bytes).outcome with ⟨depth, rest⟩ | torn | _
  · have hrest : rest = [] := exhaust_rest houtcome
    rw [houtcome] at hverdict
    have hsome := Except.ok.inj hverdict
    rw [← hsome, hrest]
    by_cases hdepth : depth = 0 <;> simp [hdepth]
  · rw [houtcome] at hverdict
    rw [← Except.ok.inj hverdict]
    simp
  · rw [houtcome] at hverdict
    cases hverdict

/-! ## Empty chunks in a run -/

/-- What the chunks of a run report, without the empty ones. -/
def heard (is : IStream) (chunks : List (List UInt8)) :
    List (List Callback × Except Error Status) :=
  ((chunks.zip (is.feedEach chunks).1).filter fun p => !p.1.isEmpty).map Prod.snd

/-- What is heard of a first chunk comes before the rest, and of an empty one nothing. -/
theorem heard_cons (is : IStream) (chunk : List UInt8) (rest : List (List UInt8)) :
    heard is (chunk :: rest) =
      (if chunk.isEmpty then [] else [((feed chunk is).calls, (feed chunk is).result)]) ++
        heard (feed chunk is).is rest := by
  rw [heard, feedEach]
  cases chunk <;> rfl

/-- The calls of a run are those of its first feed and of what follows. -/
theorem feedEach_calls_cons (is : IStream) (chunk : List UInt8) (rest : List (List UInt8)) :
    (is.feedEach (chunk :: rest)).1.flatMap Prod.fst =
      (feed chunk is).calls ++ ((feed chunk is).is.feedEach rest).1.flatMap Prod.fst := rfl

/-- The chunks of a run that are not empty report the same when the empty ones are left out. -/
theorem Fed.heard_eq {bytes : List UInt8} (h : Fed bytes is) (chunks : List (List UInt8)) :
    heard is chunks = (is.feedEach (chunks.filter fun chunk => !chunk.isEmpty)).1 := by
  induction chunks generalizing bytes is with
  | nil => rfl
  | cons chunk rest ih =>
    rw [heard_cons, ih (h.feed chunk)]
    rcases chunk with _ | ⟨byte, chunk⟩
    · exact h.probe.2 _
    · rfl

/-- No call of a run is owed to an empty chunk. -/
theorem Fed.calls_eq {bytes : List UInt8} (h : Fed bytes is) (chunks : List (List UInt8)) :
    (is.feedEach chunks).1.flatMap Prod.fst =
      (is.feedEach (chunks.filter fun chunk => !chunk.isEmpty)).1.flatMap Prod.fst := by
  induction chunks generalizing bytes is with
  | nil => rfl
  | cons chunk rest ih =>
    rw [feedEach_calls_cons, ih (h.feed chunk)]
    rcases chunk with _ | ⟨byte, chunk⟩
    · rw [h.probe.1, h.probe.2]
      rfl
    · rfl

/-- An empty feed of a stream that has not rejected its message calls nothing, is answered
`complete` exactly when the bytes so far are whole fields with every sequence closed, and is
not heard of again; nor are any number of empty chunks in a run. -/
theorem empty_feed_inert {bytes : List UInt8} (h : Fed bytes is) (hvalid : is.invalid = false) :
    (feed [] is).calls = [] ∧
      (∃ status, (feed [] is).result = .ok status ∧
        (status = .complete ↔ Chain readField 0 bytes 0)) ∧
      (∀ later, ((feed [] is).is.feedEach later).1 = (is.feedEach later).1) ∧
      ∀ chunks, heard is chunks = (is.feedEach (chunks.filter fun chunk => !chunk.isEmpty)).1 ∧
        (is.feedEach chunks).1.flatMap Prod.fst =
          (is.feedEach (chunks.filter fun chunk => !chunk.isEmpty)).1.flatMap Prod.fst := by
  have hfollows := h.follows.resolve_right (by rw [hvalid]; exact Bool.false_ne_true)
  obtain ⟨is', hfeed, -⟩ := feed_nil hfollows.wellFormed hvalid
  refine ⟨h.probe.1, ⟨is.verdict, ?_, hfollows.verdict_iff⟩, h.probe.2,
    fun chunks => ⟨h.heard_eq chunks, h.calls_eq chunks⟩⟩
  rw [hfeed]

/-- Probed between the bytes of a header and inside the array behind it. -/
theorem empty_feed_inert_torn :
    (feed [] (feed [0x80] .new).is).calls = [] ∧
      heard (feed [0x80] .new).is [[], [0x01], [], [], [0x05]] =
        ((feed [0x80] .new).is.feedEach [[0x01], [0x05]]).1 := by
  have hinert := empty_feed_inert (Fed.new.feed [0x80]) (by decide +kernel)
  exact ⟨hinert.1, (hinert.2.2.2 _).1⟩

end Sofab
