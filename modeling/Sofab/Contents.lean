import Sofab.Restart

/-!
# The contents of a payload

A string or blob is a length and a jump. The decoder hands its bytes over and decides nothing by
them: not whether they are text, and nothing of what comes behind.
-/

namespace Sofab

open IStream Reading Reading.Reader

/-- A payload that is all there is handed over, and the fields behind it are read. -/
theorem readRest_payload (id : Id) (isBlob : Bool) (total depth : ℕ) (data behind : List UInt8) :
    readRest (.payload id isBlob total data.length) depth (data ++ behind) =
      (readFields depth behind).after
        [.raw data, .call (.payload isBlob id total (total - data.length) data)] := by
  refine readRest_of_done ?_ depth
  rw [readBody, payload, if_pos (by simp), List.take_left, List.drop_left]

/-- A payload that is not all there is short, whatever there is of it. -/
theorem readRest_payload_short (id : Id) (isBlob : Bool) (total depth : ℕ) {remaining : ℕ}
    {data : List UInt8} (hshort : data.length < remaining) :
    ∃ notes, readRest (.payload id isBlob total remaining) depth data = ⟨notes, .short []⟩ := by
  have hbody : ∃ notes, readBody (.payload id isBlob total remaining) data = ⟨notes, .short []⟩ := by
    rw [readBody, payload, if_neg (Nat.not_le_of_lt hshort)]
    split <;> exact ⟨_, rfl⟩
  obtain ⟨notes, hread⟩ := hbody
  exact ⟨notes, readRest_of_short hread depth⟩

/-- However bytes are cut into chunks of which the first end inside a payload, the rest of that
payload shows up in its own callback and nowhere else: neither the verdict nor any other callback
depends on it. Before it is all there the verdict is that bytes are missing. -/
theorem payload_contents_inert {head : List UInt8} {is : IStream} (h : Fed head is)
    (hvalid : is.invalid = false) {id : Id} {isBlob : Bool} {total remaining : ℕ}
    (hinside : is.resume = .payload id isBlob total remaining) (behind : List UInt8) :
    (∃ result made after, ∀ data : List UInt8, data.length = remaining →
      ∀ chunk rest, (chunk :: rest).flatten = head ++ (data ++ behind) →
        (feedAll IStream.new chunk rest).result = result ∧
        glue (feedAll IStream.new chunk rest).calls =
          glue (made ++ .payload isBlob id total (total - remaining) data :: after)) ∧
      ∀ data : List UInt8, data.length < remaining →
        ∀ chunk rest, (chunk :: rest).flatten = head ++ data →
          (feedAll IStream.new chunk rest).result = .ok .incomplete := by
  have hfollows := h.follows.resolve_right (by rw [hvalid]; exact Bool.false_ne_true)
  have hheld := hfollows.wellFormed.held
  obtain ⟨made, hreads⟩ := hfollows.reads
  rw [hinside] at hheld hreads
  obtain ⟨hlive, hpos⟩ : is.live = [] ∧ 0 < remaining := by
    cases hheld with
    | body hpending => exact ⟨hpending.1, hpending.2.1⟩
  simp only [hlive, List.nil_append] at hreads
  constructor
  · refine ⟨verdict (readFields is.depth behind), made, calls (readFields is.depth behind).notes, ?_⟩
    intro data hlen chunk rest hchunks
    subst hlen
    obtain ⟨hresult, hjoined⟩ := feedAll_new_reads chunk rest
    rw [hchunks] at hresult hjoined
    have hextends := hreads (data ++ behind)
    rw [readRest_payload] at hextends
    refine ⟨hresult.trans (verdict_congr hextends.outcome), ?_⟩
    have hwhole := readFields_whole 0 (head ++ (data ++ behind))
    have hfromStart : ∀ c ∈ (calls (readMessage (head ++ (data ++ behind))).notes).tail, FromStart c :=
      fun c hc => (hwhole c (List.mem_of_mem_tail hc)).2
    have hproper : ∀ c ∈ .payload isBlob id total (total - data.length) data ::
        calls (readFields is.depth behind).notes, Proper c := by
      refine List.forall_mem_cons.mpr ⟨proper_payload.mpr fun hnil => ?_, fun c hc => ?_⟩
      · rw [hnil] at hpos
        exact absurd hpos (Nat.lt_irrefl 0)
      · exact (readFields_whole is.depth behind c hc).1
    have hrun := hextends.joined (.of_proper hproper .nil)
    rw [List.append_nil, List.append_nil] at hrun
    rw [hjoined.glue hfromStart]
    exact (hrun.glue hfromStart).symm
  · intro data hshort chunk rest hchunks
    obtain ⟨hresult, -⟩ := feedAll_new_reads chunk rest
    obtain ⟨notes, hread⟩ := readRest_payload_short id isBlob total is.depth hshort
    have hextends := hreads data
    rw [hread] at hextends
    rw [hresult, hchunks, verdict_congr hextends.outcome]
    rfl

/-- Three bytes that are no text, torn, as a string and with a field behind them. -/
theorem payload_contents_inert_bytes :
    (feedAll IStream.new [10, 26] [[0xff, 0xfe], [0xfd, 16]]).result =
      (feedAll IStream.new [10] [[26, 97], [98, 99, 16]]).result := by
  have hfed : Fed [10, 26] (feed [10, 26] .new).is := Fed.new.feed [10, 26]
  have hinside : (feed [10, 26] .new).is.resume = .payload 1 false 3 3 := by decide +kernel
  obtain ⟨⟨result, made, after, hany⟩, -⟩ :=
    payload_contents_inert hfed (by decide +kernel) hinside [16]
  exact (hany [0xff, 0xfe, 0xfd] rfl _ _ rfl).1.trans (hany [97, 98, 99] rfl _ _ rfl).1.symm

end Sofab
