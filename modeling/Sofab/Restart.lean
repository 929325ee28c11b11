import Sofab.Decoding

/-!
# Rejecting for good and starting over

A reset leaves the bytes of the carry in place. Feeding looks at the live ones only, so two
streams that differ in stale bytes report the same for ever: a reset stream is a fresh one. A
stream that rejected its message reports nothing but the rejection.
-/

namespace Sofab

open DecodeM IStream

variable {α β : Type} {is is' : IStream}

/-! ## Stale bytes -/

/-- Two streams that differ at most in the stale bytes of their carries. -/
structure Agree (a b : IStream) : Prop where
  fits : a.carryLen ≤ carryCap
  carryLen : b.carryLen = a.carryLen
  live : b.live = a.live
  resume : b.resume = a.resume
  depth : b.depth = a.depth
  invalid : b.invalid = a.invalid

/-- Two reports say the same and leave streams that agree. -/
structure SameReport (p q : Parsed α) : Prop where
  calls : q.calls = p.calls
  result : q.result = p.result
  agree : Agree p.is q.is

/-- A step that does not depend on stale bytes. -/
def Respects (m : DecodeM α) : Prop := ∀ a b, Agree a b → SameReport (m a) (m b)

variable {a b : IStream}

/-- Streams that agree differ in the carry alone. -/
theorem Agree.eq_carrying (h : Agree a b) : b = a.carrying b :=
  IStream.ext rfl rfl h.resume h.depth h.invalid

/-- A step that looks at no carry looks at no stale bytes. -/
theorem Blind.respects {m : DecodeM α} (hm : Blind m) : Respects m := by
  intro a b h
  obtain ⟨hcarry, hlen⟩ := hm.kept a
  rw [h.eq_carrying, hm a b]
  refine ⟨rfl, rfl, ?_, ?_, ?_, rfl, rfl, rfl⟩
  · rw [hlen]
    exact h.fits
  · rw [hlen]
    exact h.carryLen
  · rw [live, live, hcarry, hlen]
    exact h.live

/-- Behind the same reports steps that respect stale bytes report the same. -/
theorem SameReport.bind {m : DecodeM α} {f : α → DecodeM β} (h : SameReport (m a) (m b))
    (hf : ∀ x, Respects (f x)) : SameReport ((m >>= f) a) ((m >>= f) b) := by
  rcases hrun : m a with ⟨calls, a', e | x⟩
  all_goals
    rcases hrun' : m b with ⟨calls', b', result⟩
    rw [hrun, hrun'] at h
    obtain ⟨hcalls, hresult, hagree⟩ := h
    obtain rfl : calls' = calls := hcalls
    obtain rfl := hresult
  · rw [bind_error hrun, bind_error hrun']
    exact ⟨rfl, rfl, hagree⟩
  · rw [bind_ok hrun, bind_ok hrun']
    obtain ⟨hmore, hresult, hagree'⟩ := hf x a' b' hagree
    exact ⟨congrArg (calls' ++ ·) hmore, hresult, hagree'⟩

/-- Steps that respect stale bytes compose. -/
theorem Respects.bind {m : DecodeM α} {f : α → DecodeM β} (hm : Respects m)
    (hf : ∀ x, Respects (f x)) : Respects (m >>= f) := fun a b h => (hm a b h).bind hf

/-- A step may look at a part of the stream on which agreement is total. -/
theorem respects_self_bind {f : IStream → DecodeM α} (hf : ∀ is, Respects (f is))
    (hread : ∀ a b, Agree a b → f b = f a) : Respects (self >>= f) := by
  intro a b h
  rw [self_bind, self_bind, hread a b h]
  exact hf a a b h

/-- Streams that agree are at a boundary alike. -/
theorem verdict_agree (h : Agree a b) : b.verdict = a.verdict := by
  rw [IStream.verdict, IStream.verdict, atBoundary, atBoundary, h.carryLen, h.resume, h.depth]

/-- Reporting the verdict respects stale bytes. -/
theorem respects_verdict : Respects (self >>= fun is => pure is.verdict) :=
  respects_self_bind (fun _ => (blind_pure _).respects) fun _ _ h => by rw [verdict_agree h]

/-- Streams that hold the same tail agree. -/
theorem agree_holding {tail : List UInt8} (hfits : tail.length ≤ carryCap)
    (hresume : b.resume = a.resume) (hdepth : b.depth = a.depth) (hinvalid : b.invalid = a.invalid) :
    Agree (a.holding tail) (b.holding tail) where
  fits := hfits
  carryLen := rfl
  live := by rw [holding_live hfits, holding_live hfits]
  resume := hresume
  depth := hdepth
  invalid := hinvalid

/-- A stashed tail takes the place of what was in the carry. -/
theorem respects_stash (tail : List UInt8) : Respects (stash tail) := by
  intro a b h
  by_cases hfits : tail.length ≤ carryCap
  · rw [stash_eq a hfits, stash_eq b hfits]
    exact ⟨rfl, rfl, agree_holding hfits h.resume h.depth h.invalid⟩
  · rw [stash, if_pos (Nat.lt_of_not_le hfits)]
    exact (blind_latch (blind_fail _)).respects a b h

/-- The in-place path respects stale bytes. -/
theorem respects_feedRest (rest : List UInt8) : Respects (feedRest rest) := by
  refine (blind_consume rest).respects.bind fun consumed => ?_
  by_cases hmore : consumed < rest.length
  · simp only [if_pos hmore]
    exact (respects_stash _).bind fun _ => respects_verdict
  · simp only [if_neg hmore]
    exact respects_verdict

/-- Bytes stitched behind the live ones leave these as they were. -/
theorem storeCarry_live (is : IStream) (bytes : List UInt8) :
    (is.storeCarry is.carryLen bytes).live = is.live :=
  Splice.take_overwrite_of_le _ _ (Nat.le_refl _)

/-- The same bytes behind the live ones keep carries in agreement. -/
theorem Agree.storeCarry (h : Agree a b) (bytes : List UInt8) :
    Agree (a.storeCarry a.carryLen bytes) (b.storeCarry b.carryLen bytes) where
  fits := h.fits
  carryLen := h.carryLen
  live := by rw [storeCarry_live, storeCarry_live, h.live]
  resume := h.resume
  depth := h.depth
  invalid := h.invalid

/-- Settling the carried bytes respects stale ones. -/
theorem respects_settle (chunk : List UInt8) (held take consumed : ℕ) {stitched : List UInt8}
    (hfits : stitched.length ≤ carryCap) : Respects (settle chunk held take stitched consumed) := by
  intro a b h
  rw [settle]
  by_cases hle : held ≤ consumed
  · rw [if_pos hle]
    exact ⟨rfl, rfl, Nat.zero_le _, rfl, rfl, h.resume, h.depth, h.invalid⟩
  · have hdrop : (stitched.drop consumed).length ≤ carryCap := by
      rw [List.length_drop]
      omega
    have hheld := agree_holding hdrop h.resume h.depth h.invalid
    rw [if_neg hle, update_bind, update_bind]
    split
    · exact (blind_latch (blind_fail _)).respects _ _ hheld
    · exact (blind_pure _).respects _ _ hheld

/-- The carried bytes are continued whatever is stale behind them. -/
theorem respects_resumeCarried (chunk : List UInt8) : Respects (resumeCarried chunk) := by
  intro a b h
  have hcarry := resumeCarried_eq chunk h.fits
  have hcarry' := resumeCarried_eq chunk (h.carryLen.symm ▸ h.fits)
  have hstored := h.storeCarry (chunk.take (min (carryCap - a.carryLen) chunk.length))
  simp only [h.carryLen, h.live] at hcarry hcarry' hstored
  rw [hcarry, hcarry']
  refine (blind_latch (blind_parse _)).respects.bind (fun consumed => ?_) _ _ hstored
  refine respects_settle chunk _ _ consumed ?_
  have hfits := h.fits
  rw [List.length_append, live, List.length_take, List.length_take, a.carrySize]
  omega

/-- Feeding does not depend on stale bytes. -/
theorem respects_feed (chunk : List UInt8) : Respects (feed chunk) := by
  refine respects_self_bind (fun is => ?_) fun a b h => by rw [h.invalid]
  split
  · exact (blind_fail _).respects
  refine respects_self_bind (fun is => ?_) fun a b h => by rw [h.carryLen]
  split
  · exact respects_feedRest chunk
  · refine (respects_resumeCarried chunk).bind fun x => ?_
    rcases x with _ | rest
    · exact respects_verdict
    · exact respects_feedRest rest

/-! ## Runs -/

/-- What each feed of a run of chunks reports, and the stream left. -/
def IStream.feedEach (is : IStream) :
    List (List UInt8) → List (List Callback × Except Error Status) × IStream
  | [] => ([], is)
  | chunk :: rest =>
    let fed := feed chunk is
    let (reports, is) := feedEach fed.is rest
    ((fed.calls, fed.result) :: reports, is)

/-- Streams that agree report the same for ever. -/
theorem Agree.feedEach (h : Agree a b) (chunks : List (List UInt8)) :
    (b.feedEach chunks).1 = (a.feedEach chunks).1 := by
  induction chunks generalizing a b with
  | nil => rfl
  | cons chunk rest ih =>
    obtain ⟨hcalls, hresult, hagree⟩ := respects_feed chunk a b h
    rw [IStream.feedEach, IStream.feedEach]
    simp only [hcalls, hresult, ih hagree]

/-- A reset stream agrees with a fresh one. -/
theorem agree_reset (is : IStream) : Agree .new is.reset where
  fits := Nat.zero_le _
  carryLen := rfl
  live := rfl
  resume := rfl
  depth := rfl
  invalid := rfl

/-- A stream that rejected its message reports nothing but that. -/
theorem feedEach_of_invalid (hinvalid : is.invalid = true) (chunks : List (List UInt8)) :
    is.feedEach chunks = (List.replicate chunks.length ([], .error .invalidMsg), is) := by
  induction chunks with
  | nil => rfl
  | cons chunk rest ih =>
    rw [IStream.feedEach, feed_of_invalid hinvalid]
    simp only [ih]
    rfl

/-- A stream that feeds and resets lead to, with the bytes fed since the last reset. -/
inductive Fed : List UInt8 → IStream → Prop
  | new : Fed [] .new
  | feed {bytes : List UInt8} {is : IStream} (h : Fed bytes is) (chunk : List UInt8) :
      Fed (bytes ++ chunk) (IStream.feed chunk is).is
  | reset {bytes : List UInt8} {is : IStream} (h : Fed bytes is) : Fed [] is.reset

/-- The stream goes on with the message that begins with `bytes`. -/
structure Follows (bytes : List UInt8) (is : IStream) : Prop where
  wellFormed : WellFormed is
  valid : is.invalid = false
  reads : ∃ made, ∀ t, Extends made (readMessage (bytes ++ t))
    (readRest is.resume is.depth (is.live ++ t))

/-- A new stream goes on with any message. -/
theorem follows_new : Follows [] .new where
  wellFormed := wellFormed_new
  valid := rfl
  reads := by
    refine ⟨[], fun t => ?_⟩
    have hread : readRest IStream.new.resume IStream.new.depth (IStream.new.live ++ t) =
        readMessage ([] ++ t) := congrFun (readRest_none 0) t
    rw [hread]
    exact .refl _

/-- A reset stream is well formed. -/
theorem follows_reset (is : IStream) : Follows [] is.reset where
  wellFormed := wellFormed_of_nil rfl .boundary
  valid := rfl
  reads := follows_new.reads

/-- A feed goes on with the message, or rejects it for good. -/
theorem Follows.feed {bytes : List UInt8} (h : Follows bytes is) (chunk : List UInt8) :
    Follows (bytes ++ chunk) (IStream.feed chunk is).is ∧
        (IStream.feed chunk is).result = .ok (IStream.feed chunk is).is.verdict ∨
      (IStream.feed chunk is).is.invalid = true ∧
        (IStream.feed chunk is).result = .error .invalidMsg := by
  obtain ⟨made, hreads⟩ := h.reads
  have hfeed := feed_refines chunk h.wellFormed h.valid
  generalize IStream.feed chunk is = fed at hfeed
  cases hfeed with
  | @ok made' is' hwell hvalid hlater =>
    refine .inl ⟨⟨hwell, hvalid, made ++ made', fun t => ?_⟩, rfl⟩
    have hbefore := hreads (chunk ++ t)
    rw [← List.append_assoc, ← List.append_assoc] at hbefore
    exact hbefore.trans (hlater t)
  | rejected hlatched _ => exact .inr ⟨hlatched, rfl⟩

/-- A stream that was fed goes on with its message, or has rejected it. -/
theorem Fed.follows {bytes : List UInt8} (h : Fed bytes is) :
    Follows bytes is ∨ is.invalid = true := by
  induction h with
  | new => exact .inl follows_new
  | @feed bytes is h chunk ih =>
    rcases ih with hfollows | hinvalid
    · exact (hfollows.feed chunk).imp And.left And.left
    · rw [feed_of_invalid hinvalid]
      exact .inr hinvalid
  | @reset bytes is h ih => exact .inl (follows_reset is)

/-- A feed that fails latches the rejection. -/
theorem Fed.latched {bytes : List UInt8} (h : Fed bytes is) {chunk : List UInt8} {e : Error}
    (herror : (IStream.feed chunk is).result = .error e) :
    (IStream.feed chunk is).is.invalid = true := by
  rcases h.follows with hfollows | hinvalid
  · rcases hfollows.feed chunk with ⟨-, hok⟩ | ⟨hlatched, -⟩
    · rw [hok] at herror
      cases herror
    · exact hlatched
  · rw [feed_of_invalid hinvalid]
    exact hinvalid

/-- Behind a rejection every feed is rejected and calls nothing, and behind a reset every feed
reports what it would report to a fresh stream. -/
theorem rejection_stands_until_reset {bytes : List UInt8} (h : Fed bytes is)
    (later : List (List UInt8)) :
    (∀ chunk, (feed chunk is).result = .error .invalidMsg →
      ((feed chunk is).is.feedEach later).1 =
        List.replicate later.length ([], .error .invalidMsg)) ∧
    (is.reset.feedEach later).1 = (IStream.new.feedEach later).1 := by
  refine ⟨fun chunk hrejected => ?_, (agree_reset is).feedEach later⟩
  rw [feedEach_of_invalid (h.latched hrejected)]

/-- A torn header rejected one byte late, and the same stream reset instead. -/
theorem rejection_stands_until_reset_torn :
    (feed [0x80] .new).is.carryLen = 1 ∧
      ((feed [0x80, 0x80, 0x80, 0x80, 0x80, 0x80, 0x80, 0x80, 0x02] (feed [0x80] .new).is).is.feedEach
        [[0x00], []]).1 = [([], .error .invalidMsg), ([], .error .invalidMsg)] ∧
      ((feed [0x80] .new).is.reset.feedEach [[0x00], [0x05]]).1 =
        (IStream.new.feedEach [[0x00], [0x05]]).1 :=
  ⟨by decide +kernel,
    (rejection_stands_until_reset (Fed.new.feed [0x80]) [[0x00], []]).1 _ (by decide +kernel),
    (rejection_stands_until_reset (Fed.new.feed [0x80]) [[0x00], [0x05]]).2⟩

end Sofab
