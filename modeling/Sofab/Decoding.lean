import Sofab.FeedRefines

/-!
# The decoder recognises the wire grammar, in any chunks

One-shot decoding makes the callbacks of the reference reading and returns its verdict.
Feeding the message in chunks ends with the same verdict and the same callbacks once the
pieces of each payload are glued.
-/

namespace Sofab

open Reading Reading.Reader DecodeM IStream

/-- The verdict is that of the outcome. -/
theorem verdict_congr {report report' : Report Note UInt8 ℕ}
    (h : report.outcome = report'.outcome) : verdict report = verdict report' := by
  rw [verdict, verdict, h]

/-- A rejected reading is reported as `InvalidMsg`. -/
theorem verdict_of_invalid {report : Report Note UInt8 ℕ} (h : report.outcome = .invalid) :
    verdict report = .error .invalidMsg := by
  rw [verdict, h]

section Feeding

variable {is : IStream}

/-- Stashing a tail calls nothing. -/
theorem stash_calls (tail : List UInt8) (is : IStream) : (stash tail is).calls = [] := by
  rw [stash]
  split <;> rfl

/-- The in-place path makes the callbacks of what it consumes. -/
theorem feedRest_calls (rest : List UInt8) (is : IStream) :
    (feedRest rest is).calls = (consume rest is).calls := by
  rw [feedRest]
  rcases hrun : consume rest is with ⟨made, is', e | consumed⟩
  · rw [bind_error hrun]
  · rw [bind_ok hrun]
    change made ++ _ = made
    by_cases hmore : consumed < rest.length
    · rw [if_pos hmore]
      have hcalls := stash_calls (rest.drop consumed) is'
      rcases hstash : stash (rest.drop consumed) is' with ⟨more, is'', e | u⟩
      · rw [hstash] at hcalls
        rw [bind_error hstash, hcalls, List.append_nil]
      · rw [hstash] at hcalls
        subst hcalls
        rw [bind_ok hstash]
        exact List.append_nil made
    · rw [if_neg hmore]
      exact List.append_nil made

/-- A new stream carries no bytes. -/
theorem IStream.new_live : IStream.new.live = [] := rfl

/-- A new stream has rejected nothing. -/
theorem IStream.new_valid : IStream.new.invalid = false := rfl

/-- A fresh stream feeds in place. -/
theorem decode_eq (bs : List UInt8) : decode bs = feedRest bs IStream.new := rfl

/-- The callbacks of one-shot decoding. -/
theorem decode_calls (bs : List UInt8) : (decode bs).calls = calls (readMessage bs).notes := by
  have hresumable : Resumable IStream.new.resume := trivial
  have hread := (consume_refines bs hresumable).1
  rw [decode_eq, feedRest_calls, readMessage, ← readRest_none]
  generalize consume bs IStream.new = parsed at hread
  cases hread with
  | ok hreads _ _ => exact hreads.now.symm
  | rejected notes hread =>
    have hnotes : readRest .none 0 bs = ⟨notes, .invalid⟩ := hread
    rw [hnotes]

/-- The verdict of a fed stream, and its callbacks up to gluing. -/
theorem feed_reads (chunk : List UInt8) (hwell : WellFormed is) (hvalid : is.invalid = false) :
    let whole := readRest is.resume is.depth (is.live ++ chunk)
    (feed chunk is).result = verdict whole ∧ Joined (feed chunk is).calls (calls whole.notes) := by
  have hfeed := feed_refines chunk hwell hvalid
  generalize feed chunk is = parsed at hfeed
  intro whole
  cases hfeed with
  | @ok made is' hwell' _ hlater =>
    have hnow := hlater []
    rw [List.append_nil, List.append_nil] at hnow
    have hquiet := hwell'.held.reads.now
    have hjoined : Joined (made ++ []) (calls whole.notes ++ []) :=
      hnow.joined (by rw [hquiet]; exact .nil)
    rw [List.append_nil, List.append_nil] at hjoined
    exact ⟨((verdict_congr hnow.outcome).trans hwell'.verdict_eq).symm, hjoined⟩
  | rejected _ hrejects =>
    have hnow := hrejects []
    rw [List.append_nil] at hnow
    exact ⟨(verdict_of_invalid hnow.outcome).symm, hnow.joined⟩

/-- A stream that has rejected answers every chunk alike, makes no callback and stays as it is. -/
theorem feed_of_invalid (hinvalid : is.invalid = true) (chunk : List UInt8) :
    feed chunk is = ⟨[], is, .error .invalidMsg⟩ := by
  rw [feed, self_bind, if_pos hinvalid]
  rfl

/-- A stream that rejected its message rejects every later chunk and calls nothing. -/
theorem feedAll_of_invalid (hinvalid : is.invalid = true) (chunk : List UInt8)
    (rest : List (List UInt8)) :
    (feedAll is chunk rest).result = .error .invalidMsg ∧ (feedAll is chunk rest).calls = [] := by
  induction rest generalizing chunk with
  | nil =>
    rw [feedAll, feed_of_invalid hinvalid]
    exact ⟨rfl, rfl⟩
  | cons next rest ih =>
    rw [feedAll, feed_of_invalid hinvalid]
    exact ih next

/-- The verdict of chunks fed in order, and their callbacks up to gluing. -/
theorem feedAll_reads (chunk : List UInt8) (rest : List (List UInt8)) (hwell : WellFormed is)
    (hvalid : is.invalid = false) :
    let whole := readRest is.resume is.depth (is.live ++ (chunk :: rest).flatten)
    (feedAll is chunk rest).result = verdict whole ∧
      Joined (feedAll is chunk rest).calls (calls whole.notes) := by
  induction rest generalizing is chunk with
  | nil =>
    rw [List.flatten_cons, List.flatten_nil, List.append_nil]
    exact feed_reads chunk hwell hvalid
  | cons next rest ih =>
    intro whole
    have hfeed := feed_refines chunk hwell hvalid
    have hbytes : is.live ++ (chunk :: next :: rest).flatten =
        is.live ++ chunk ++ (next :: rest).flatten := by
      rw [List.flatten_cons, List.append_assoc]
    have hwhole : whole =
        readRest is.resume is.depth (is.live ++ chunk ++ (next :: rest).flatten) :=
      congrArg (readRest is.resume is.depth) hbytes
    rw [feedAll, hwhole]
    generalize feed chunk is = parsed at hfeed
    cases hfeed with
    | @ok made is' hwell' hvalid' hlater =>
      obtain ⟨hresult, hjoined⟩ := ih next hwell' hvalid'
      have hnext := hlater (next :: rest).flatten
      rw [← List.append_nil (calls _)] at hjoined
      have hall := hnext.joined hjoined
      rw [List.append_nil] at hall
      exact ⟨hresult.trans (verdict_congr hnext.outcome).symm, hall⟩
    | @rejected made is' hlatched hrejects =>
      obtain ⟨hresult, hcalls⟩ := feedAll_of_invalid hlatched next rest
      have hnext := hrejects (next :: rest).flatten
      refine ⟨hresult.trans (verdict_of_invalid hnext.outcome).symm, ?_⟩
      change Joined (made ++ (feedAll is' next rest).calls) _
      rw [hcalls, List.append_nil]
      exact hnext.joined

/-- The verdict of chunks fed to a new decoder, and their callbacks up to gluing. -/
theorem feedAll_new_reads (chunk : List UInt8) (rest : List (List UInt8)) :
    (feedAll IStream.new chunk rest).result = verdict (readMessage (chunk :: rest).flatten) ∧
      Joined (feedAll IStream.new chunk rest).calls
        (calls (readMessage (chunk :: rest).flatten).notes) := by
  have hread : readRest IStream.new.resume IStream.new.depth
      (IStream.new.live ++ (chunk :: rest).flatten) = readMessage (chunk :: rest).flatten := by
    rw [new_live, List.nil_append]
    exact congrFun (readRest_none 0) _
  rw [← hread]
  exact feedAll_reads chunk rest wellFormed_new new_valid

/-- The verdict of one-shot decoding. -/
theorem decode_result (bs : List UInt8) : (decode bs).result = verdict (readMessage bs) := by
  have hfeed := (feed_reads bs wellFormed_new new_valid).1
  rw [new_live, List.nil_append] at hfeed
  change (feed bs IStream.new).result = _
  rw [hfeed, readMessage, ← readRest_none]
  rfl

end Feeding

/-- Decoding delivers the callbacks and returns the verdict of the reference reading. -/
theorem decode_eq_readMessage (bs : List UInt8) :
    (decode bs).calls = calls (readMessage bs).notes ∧
      (decode bs).result = verdict (readMessage bs) :=
  ⟨decode_calls bs, decode_result bs⟩

/-- However a message is cut into chunks, the last feed gives the verdict of one-shot
decoding and the glued callbacks are those of one-shot decoding. -/
theorem feedAll_eq_decode (chunk : List UInt8) (rest : List (List UInt8)) :
    let run := feedAll IStream.new chunk rest
    let whole := decode (chunk :: rest).flatten
    run.result = whole.result ∧ glue run.calls = whole.calls ∧
      (∀ c ∈ run.calls, Proper c) ∧ ∀ c ∈ whole.calls, Proper c ∧ FromStart c := by
  intro run whole
  obtain ⟨hresult, hjoined⟩ := feedAll_reads chunk rest wellFormed_new new_valid
  have hread : readRest IStream.new.resume IStream.new.depth
      (IStream.new.live ++ (chunk :: rest).flatten) = readMessage (chunk :: rest).flatten := by
    rw [new_live, List.nil_append]
    exact congrFun (readRest_none 0) _
  rw [hread] at hresult hjoined
  have hwhole := readFields_whole 0 (chunk :: rest).flatten
  have hcalls : whole.calls = calls (readMessage (chunk :: rest).flatten).notes := decode_calls _
  refine ⟨hresult.trans (decode_result _).symm, ?_, hjoined.proper, ?_⟩
  · rw [hcalls]
    exact hjoined.glue fun d hd => (hwhole d (List.mem_of_mem_tail hd)).2
  · rw [hcalls]
    exact hwhole

end Sofab
