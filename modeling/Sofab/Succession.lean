import Sofab.Probe
import Sofab.RoundTrip

/-!
# Message after message

A message format without a length in front lets one message follow another only where the caller
says so. The decoder is ready for that exactly where it reports a complete message: from there on
it is as good as new.
-/

namespace Sofab

open Reading Reading.Reader DecodeM IStream

variable {is : IStream}

/-- A stream between two messages agrees with a new one. -/
theorem agree_new_of_complete (hvalid : is.invalid = false) (hverdict : is.verdict = .complete) :
    Agree .new is := by
  have hboundary : is.atBoundary = true := by
    rw [IStream.verdict] at hverdict
    by_contra hinside
    rw [if_neg hinside] at hverdict
    cases hverdict
  rw [atBoundary, Bool.and_eq_true, Bool.and_eq_true, decide_eq_true_iff, decide_eq_true_iff,
    decide_eq_true_iff] at hboundary
  obtain ⟨⟨hcarry, hresume⟩, hdepth⟩ := hboundary
  refine ⟨Nat.zero_le _, hcarry, ?_, hresume, hdepth, hvalid⟩
  rw [live, hcarry]
  rfl

/-- A decoder whose last feed was not an error says on an empty one where it is. -/
theorem Fed.probe_result {bytes : List UInt8} (h : Fed bytes is) (hvalid : is.invalid = false) :
    (IStream.feed [] is).result = .ok is.verdict := by
  have hfollows := h.follows.resolve_right (by rw [hvalid]; exact Bool.false_ne_true)
  obtain ⟨is', hfeed, -⟩ := feed_nil hfollows.wellFormed hvalid
  rw [hfeed]

/-- Whatever was fed and reset before, a decoder reports from a feed on what a new one reports, for
all that follows, exactly if that feed reported a complete message. -/
theorem complete_iff_as_new {bytes : List UInt8} (h : Fed bytes is) (chunk : List UInt8) :
    (feed chunk is).result = .ok .complete ↔
      ∀ later, ((feed chunk is).is.feedEach later).1 = (IStream.new.feedEach later).1 := by
  have hfed := h.feed chunk
  constructor
  · intro hcomplete later
    have hvalid : ¬is.invalid = true := by
      intro hinvalid
      rw [feed_of_invalid hinvalid] at hcomplete
      cases hcomplete
    rcases (h.follows.resolve_right hvalid).feed chunk with ⟨hfollows, hresult⟩ | ⟨-, hresult⟩
    · have hverdict := Except.ok.inj (hresult.symm.trans hcomplete)
      exact (agree_new_of_complete hfollows.valid hverdict).feedEach later
    · cases hresult.symm.trans hcomplete
  · intro hsame
    have hprobe : (feed [] (feed chunk is).is).result = (feed [] IStream.new).result := by
      have hone := hsame [[]]
      rw [feedEach, feedEach] at hone
      injection hone with hreport
      exact congrArg Prod.snd hreport
    have hcomplete : (feed [] IStream.new).result = .ok .complete := Fed.new.probe_result rfl
    rw [hcomplete] at hprobe
    by_cases hlatched : (feed chunk is).is.invalid = true
    · rw [feed_of_invalid hlatched] at hprobe
      cases hprobe
    · have hvalid := Bool.eq_false_of_not_eq_true hlatched
      rw [hfed.probe_result hvalid] at hprobe
      have hrunning : ¬is.invalid = true := fun hinvalid => by
        rw [feed_of_invalid hinvalid] at hlatched
        exact hlatched hinvalid
      rcases (h.follows.resolve_right hrunning).feed chunk with ⟨-, hresult⟩ | ⟨hinvalid, -⟩
      · exact hresult.trans hprobe
      · exact absurd hinvalid hlatched

/-- Ready for the next message behind a whole one, and not inside it. -/
theorem complete_iff_as_new_split :
    ((feed [5] (feed [8] .new).is).is.feedEach [[8], [6]]).1 = (IStream.new.feedEach [[8], [6]]).1 :=
  (complete_iff_as_new (Fed.new.feed [8]) [5]).mp (by decide +kernel) [[8], [6]]

/-! ## Concatenated messages -/

/-- Behind a complete message the bytes of another one are read as by themselves. -/
theorem readMessage_append {first : List UInt8} (h : (decode first).result = .ok .complete)
    (second : List UInt8) :
    readMessage (first ++ second) = (readMessage second).after (readMessage first).notes := by
  rw [decode_result, Sofab.verdict] at h
  split at h
  · next depth rest houtcome =>
    split at h
    · next hzero =>
      rw [hzero] at houtcome
      exact exhaust_append local_readField houtcome second
    · cases h
  · cases h
  · cases h

/-- Bytes behind complete messages are decoded as by themselves, and the visitor is told what it
would be told of each of the messages. -/
theorem decode_behind_messages {messages : List (List UInt8)}
    (hcomplete : ∀ bs ∈ messages, (decode bs).result = .ok .complete) (last : List UInt8) :
    (decode (messages.flatten ++ last)).result = (decode last).result ∧
      (decode (messages.flatten ++ last)).calls =
        messages.flatMap (fun bs => (decode bs).calls) ++ (decode last).calls := by
  induction messages with
  | nil => exact ⟨rfl, rfl⟩
  | cons first messages ih =>
    obtain ⟨hfirst, hrest⟩ := List.forall_mem_cons.mp hcomplete
    obtain ⟨hresult, hcalls⟩ := ih hrest
    have hread := readMessage_append hfirst (messages.flatten ++ last)
    rw [List.flatten_cons, List.append_assoc, List.flatMap_cons, List.append_assoc, ← hcalls]
    constructor
    · rw [← hresult, decode_result, decode_result, hread]
      rfl
    · rw [decode_calls, decode_calls, decode_calls, hread, Report.after_notes, calls_append]

/-- Two whole messages and one that is rejected. -/
theorem decode_behind_messages_rejected :
    (decode ([[8, 5], [14, 7]].flatten ++ [7])).result = .error .invalidMsg :=
  (@decode_behind_messages [[8, 5], [14, 7]] (by decide +kernel) [7]).1.trans (by decide +kernel)

end Sofab
