import Sofab.Lib.Alike
import Sofab.Laden
import Sofab.Message
import Sofab.Bookkeeping

/-!
# Frames that vanish

A sequence that is opened lazily and closed without content leaves stale ids in slots of the
held-back run behind, and no trace besides. The encoder goes on as if it had never been opened,
whatever its buffer, its sink and the run so far.
-/

namespace Sofab

open Steps Step OStream

variable {α : Type}

/-! ## Steps that leave the framing alone -/

/-- The stream with another framing. -/
def OStream.framed (run : PendingRun) (depth : ℕ) (os : OStream) : OStream :=
  { os with pending := run, depth := depth }

/-- A step that neither looks at the framing nor touches it. -/
def Unframed (m : EncodeM α) : Prop := ∀ run depth, Commutes (framed run depth) m

/-- Steps that leave the framing alone compose. -/
theorem Unframed.bind {β : Type} {m : EncodeM α} {next : α → EncodeM β} (hm : Unframed m)
    (hnext : ∀ a, Unframed (next a)) : Unframed (m >>= next) :=
  fun run depth => (hm run depth).bind fun a => hnext a run depth

/-- Such a step keeps the framing. -/
theorem Unframed.kept {m : EncodeM α} (hm : Unframed m) (os : OStream) :
    (m os).1.pending = os.pending ∧ (m os).1.depth = os.depth := by
  have hstate : (m os).1 = framed os.pending os.depth (m os).1 :=
    congrArg Prod.fst (hm os.pending os.depth os)
  have hpending := congrArg OStream.pending hstate
  have hdepth := congrArg OStream.depth hstate
  exact ⟨hpending, hdepth⟩

/-- Handing over leaves the framing alone. -/
theorem handOver_unframed : Unframed handOver := by
  intro run depth os
  obtain ⟨buffer, end_, offset, depth', run', sink, dead, installed⟩ := os
  cases sink with
  | none => rfl
  | some sink =>
    simp only [handOver, framed]
    rcases sink.flushTake ⟨installed, buffer, offset⟩ with ⟨sink', _ | ⟨fresh, start⟩⟩
    · rfl
    · simp only
      cases checkStreamingCapacity fresh.length start <;> rfl

/-- Draining a full buffer leaves the framing alone. -/
theorem drainFull_unframed : Unframed drainFull := by
  intro run depth
  refine commutes_self_bind (fun os => ?_) fun _ => rfl
  split
  · exact commutes_fail _
  · refine commutes_self_bind (fun os => ?_) fun _ => rfl
    split
    · exact commutes_fail _
    · exact handOver_unframed run depth

/-- Making room leaves the framing alone. -/
theorem makeRoom_unframed : Unframed makeRoom := fun run depth =>
  commutes_ite (fun _ => Iff.rfl) (drainFull_unframed run depth) fun _ => rfl

/-- Pushing a byte leaves the framing alone. -/
theorem pushByte_unframed (b : UInt8) : Unframed (pushByte b) :=
  makeRoom_unframed.bind fun _ _ _ => commutes_update fun _ => rfl

/-- A payload that is split leaves the framing alone. -/
theorem pushRawSplit_unframed (data : List UInt8) : Unframed (pushRawSplit data) := by
  induction hlen : data.length using Nat.strongRecOn generalizing data with
  | _ len ih =>
    subst hlen
    intro run depth os
    by_cases hnil : data = []
    · rw [pushRawSplit, pushRawSplit, if_pos hnil, if_pos hnil]
    · rw [pushRawSplit_of_ne hnil]
      have hroom := makeRoom_unframed run depth os
      rcases hrun : makeRoom os with ⟨os₁, u | e | _⟩ <;> rw [hrun] at hroom
      · rw [bind_ok hroom, bind_ok hrun]
        have hshorter : (data.drop (min (os₁.end_ - os₁.offset) data.length)).length < data.length := by
          have hpos : 0 < data.length := List.length_pos_iff.mpr hnil
          have hgap := makeRoom_room hrun
          rw [List.length_drop]
          omega
        have hrest := ih _ hshorter _ rfl run depth
          (os₁.put (data.take (min (os₁.end_ - os₁.offset) data.length)))
        change pushRun data (framed run depth os₁) = _
        by_cases hfits : os₁.offset + min (os₁.end_ - os₁.offset) data.length ≤ os₁.buffer.length
        · have hown : pushRun data os₁ = pushRawSplit _ _ := if_pos hfits
          rw [hown]
          exact (if_pos hfits).trans hrest
        · have hown : pushRun data os₁ = (os₁, .unwound) := if_neg hfits
          rw [hown]
          exact if_neg hfits
      · rw [bind_err hroom, bind_err hrun]
      · rw [bind_unwound hroom, bind_unwound hrun]

/-- A payload leaves the framing alone. -/
theorem pushRaw_unframed (data : List UInt8) : Unframed (pushRaw data) := fun run depth =>
  commutes_ite (fun _ => Iff.rfl) (fun _ => rfl) (pushRawSplit_unframed data run depth)

/-- A varint pushed byte by byte leaves the framing alone. -/
theorem writeVarintSplit_unframed (value : Unsigned) : Unframed (writeVarintSplit value) := by
  induction hv : value.toNat using Nat.strongRecOn generalizing value with
  | _ v ih =>
    subst hv
    rw [writeVarintSplit]
    split
    · next hmore =>
      have hshift := shiftRight_seven value
      have hne : (value >>> 7).toNat ≠ 0 := fun hzero => hmore (UInt64.toNat_inj.mp hzero)
      exact (pushByte_unframed _).bind fun _ => ih _ (by omega) _ rfl
    · exact pushByte_unframed _

/-- A varint leaves the framing alone. -/
theorem writeVarint_unframed (value : Unsigned) : Unframed (writeVarint value) :=
  fun run depth =>
    commutes_ite (fun _ => Iff.rfl) (fun _ => rfl) (writeVarintSplit_unframed value run depth)

/-- A header and its value leave the framing alone. -/
theorem writeHeaderValue_unframed (header value : Unsigned) :
    Unframed (writeHeaderValue header value) := fun run depth =>
  commutes_ite (fun _ => Iff.rfl) (fun _ => rfl)
    ((writeVarintSplit_unframed header).bind (fun _ => writeVarintSplit_unframed value) run depth)

/-- A header and its word leave the framing alone. -/
theorem writeHeaderWord_unframed (header word : Unsigned) :
    Unframed (writeHeaderWord header word) := fun run depth =>
  commutes_ite (fun _ => Iff.rfl) (fun _ => rfl)
    ((writeVarintSplit_unframed header).bind (fun _ => writeVarintSplit_unframed word) run depth)

/-- A header, its word and a payload leave the framing alone. -/
theorem writeHeaderWordData_unframed (header word : Unsigned) (data : List UInt8) :
    Unframed (writeHeaderWordData header word data) := fun run depth =>
  commutes_ite (fun _ => Iff.rfl) (fun _ => rfl)
    ((writeHeaderWord_unframed header word).bind (fun _ => pushRaw_unframed data) run depth)

/-- The chunked path of an integer array leaves the framing alone. -/
theorem writeVarintRunChunked_unframed (toWire : α → Unsigned) (data : List α) :
    Unframed (writeVarintRunChunked toWire data) := by
  induction hlen : data.length using Nat.strongRecOn generalizing data with
  | _ len ih =>
    subst hlen
    intro run depth os
    cases data with
    | nil => simp [writeVarintRunChunked]
    | cons e rest =>
      by_cases hroom : (os.end_ - os.offset) / maxVarintLen = 0
      · have hstep (os : OStream) (hroom : (os.end_ - os.offset) / maxVarintLen = 0) :
            writeVarintRunChunked toWire (e :: rest) os = (do
              writeVarintSplit (toWire e)
              writeVarintRunChunked toWire rest : EncodeM Unit) os := by
          rw [writeVarintRunChunked]
          exact if_pos hroom
        have hrest := ih rest.length (by simp) rest rfl
        rw [hstep os hroom, hstep (framed run depth os) hroom]
        exact (writeVarintSplit_unframed (toWire e)).bind (fun _ => hrest) run depth os
      · have hstep (os : OStream) (hroom : ¬(os.end_ - os.offset) / maxVarintLen = 0) :
            let run := min ((os.end_ - os.offset) / maxVarintLen) (e :: rest).length
            let stored := storeRun os.buffer os.offset (((e :: rest).take run).map toWire)
            writeVarintRunChunked toWire (e :: rest) os =
              writeVarintRunChunked toWire ((e :: rest).drop run)
                { os with buffer := stored.1, offset := stored.2 } := by
          rw [writeVarintRunChunked]
          exact if_neg hroom
        have hshorter : ((e :: rest).drop
            (min ((os.end_ - os.offset) / maxVarintLen) (e :: rest).length)).length <
              (e :: rest).length := by
          rw [List.length_drop]
          exact Nat.sub_lt (Nat.succ_pos _) (lt_min (Nat.pos_of_ne_zero hroom) (Nat.succ_pos _))
        have hrest := ih _ hshorter _ rfl run depth { os with
          buffer := (storeRun os.buffer os.offset (((e :: rest).take
            (min ((os.end_ - os.offset) / maxVarintLen) (e :: rest).length)).map toWire)).1
          offset := (storeRun os.buffer os.offset (((e :: rest).take
            (min ((os.end_ - os.offset) / maxVarintLen) (e :: rest).length)).map toWire)).2 }
        rw [hstep os hroom, hstep (framed run depth os) hroom]
        exact hrest

/-- The fast path of an integer array leaves the framing alone. -/
theorem writeVarintRun_unframed (data : List α) (toWire : α → Unsigned) :
    Unframed (writeVarintRun data toWire) := fun run depth =>
  commutes_ite (fun _ => Iff.rfl) (fun _ => rfl)
    (writeVarintRunChunked_unframed toWire data run depth)

/-- Float elements leave the framing alone. -/
theorem writeFixlenRun_unframed (host : Endian) (data : List α) (toLe : α → List UInt8) :
    Unframed (writeFixlenRun host data toLe) := by
  cases host with
  | little => exact pushRaw_unframed _
  | big =>
    change Unframed (pushEach toLe data)
    induction data with
    | nil => exact fun _ _ => commutes_pure _
    | cons e rest ih => exact (pushRaw_unframed _).bind fun _ => ih

/-- A flush leaves the framing alone. -/
theorem flush_unframed : Unframed OStream.flush := by
  intro run depth
  refine commutes_self_bind (fun os => ?_) fun _ => rfl
  split
  · exact commutes_fail _
  · split
    · exact (handOver_unframed run depth).bind fun _ => commutes_pure _
    · exact commutes_pure _

/-- Another buffer leaves the framing alone. -/
theorem bufferSet_unframed (buffer : List UInt8) (offset : ℕ) :
    Unframed (OStream.bufferSet buffer offset) := by
  intro run depth
  have hinstall : Commutes (framed run depth)
      (update fun os => os.install buffer offset : EncodeM Unit) := commutes_update fun _ => rfl
  have hdrain : Commutes (framed run depth) drainForSet := by
    refine commutes_self_bind (fun os => ?_) fun _ => rfl
    split
    · exact (handOver_unframed run depth).attempt.bind fun _ => commutes_update fun _ => rfl
    · exact commutes_pure _
  refine commutes_self_bind (fun os => ?_) fun _ => rfl
  split
  · exact commutes_fail _
  · refine (commutes_ofExcept _).bind fun _ => ?_
    refine commutes_self_bind (fun os => ?_) fun _ => rfl
    split
    · exact (commutes_ofExcept _).bind fun _ => hdrain.bind fun _ => hinstall
    · exact hinstall

/-! ## The framing, but for stale slots -/

/-- The stream with another run that holds the same ids back, no more of them than sequences are
open. What the run has in its other slots may differ. -/
structure TwinHolding (held : List Id) (os other : OStream) : Prop where
  same : other = framed other.pending os.depth os
  left : os.pending.Holds held
  right : other.pending.Holds held
  within : held.length ≤ os.depth

/-- The streams are the same but for slots of the run that are not in use. -/
def Twin (os other : OStream) : Prop := ∃ held, TwinHolding held os other

variable {os other : OStream} {held : List Id}

/-- A stream with a framing is a twin of itself. -/
theorem twin_self {φ : Framing} (h : Framed os φ) : Twin os os :=
  ⟨φ.held, rfl, h.pending, h.pending, by
    rw [h.depth]
    exact h.lawful.held⟩

/-- Twins have as many sequences open. -/
theorem TwinHolding.depth_eq (h : TwinHolding held os other) : other.depth = os.depth := by
  have hsame := congrArg OStream.depth h.same
  exact hsame

/-- The same change of the framing. -/
theorem TwinHolding.reframed (h : TwinHolding held os other) {run run' : PendingRun}
    {depth depth' : ℕ} {rest : List Id} (hleft : run.Holds rest) (hright : run'.Holds rest)
    (hdepth : depth' = depth) (hwithin : rest.length ≤ depth) :
    TwinHolding rest (framed run depth os) (framed run' depth' other) where
  same := by
    have hsame := congrArg (framed run' depth) h.same
    rw [hdepth]
    exact hsame
  left := hleft
  right := hright
  within := hwithin

/-- What leaves the framing alone does the same in both. -/
theorem Unframed.holding {m : EncodeM α} (hm : Unframed m) : Congruent (TwinHolding held) m := by
  intro os other h
  obtain ⟨hpending, hdepth⟩ := hm.kept os
  have hrun := hm other.pending os.depth os
  rw [← h.same] at hrun
  rw [hrun]
  refine ⟨rfl, ?_, ?_, h.right, ?_⟩
  · change framed other.pending os.depth (m os).1 = framed other.pending (m os).1.depth (m os).1
    rw [hdepth]
  · rw [hpending]
    exact h.left
  · rw [hdepth]
    exact h.within

/-- A step that leaves the framing alone does not tell twins apart. -/
theorem Unframed.congruent {m : EncodeM α} (hm : Unframed m) : Congruent Twin m := by
  rintro os other ⟨held, h⟩
  obtain ⟨hexit, hkept⟩ := hm.holding os other h
  exact ⟨hexit, held, hkept⟩

/-! ## Committing the run -/

/-- The loop over the held-back ids reads slots in use only. -/
theorem commitLoop_holding (left : ℕ) {i : ℕ} (hsum : i + left = held.length) :
    Congruent (TwinHolding held) (commitLoop i left) := by
  induction left generalizing i with
  | zero => exact congruent_pure _
  | succ left ih =>
    have hi : i < held.length := by omega
    refine congruent_self_bind fun os other h => ?_
    rw [h.left.get hi, h.right.get hi]
    refine ((writeVarint_unframed _).holding.attempt.bind fun result => ?_) os other h
    cases result with
    | error e => exact congruent_pure _
    | ok u => exact ih (by omega)

/-- The loop stops within the run, and only at its end if nothing went wrong. -/
theorem commitLoop_count (left : ℕ) {i : ℕ} {os os' : OStream} {written : ℕ}
    {result : Except Error Unit} (h : commitLoop i left os = (os', .ok (written, result))) :
    written ≤ i + left ∧ (result = .ok () → written = i + left) := by
  induction left generalizing i os with
  | zero =>
    cases h
    exact ⟨Nat.le_refl _, fun _ => rfl⟩
  | succ left ih =>
    rw [commitLoop, self_bind] at h
    rcases hheader : OStream.writeVarint ((os.pending.get i).toUInt64 <<< 3 ||| tSequenceStart.toUInt64) os
      with ⟨os₁, u | e | _⟩
    · rw [bind_ok (attempt_ok hheader)] at h
      have hrest := ih h
      rw [Nat.add_right_comm] at hrest
      exact hrest
    · rw [bind_ok (attempt_err hheader)] at h
      cases h
      exact ⟨Nat.le_add_right _ _, fun hok => by cases hok⟩
    · rw [bind_unwound (attempt_unwound hheader)] at h
      cases h

/-- Committing the run leaves the rest of it held back, and nothing if it succeeds. -/
theorem commitHeld_holding (h : TwinHolding held os other) :
    (commitHeld other).2 = (commitHeld os).2 ∧
      ∃ rest, TwinHolding rest (commitHeld os).1 (commitHeld other).1 ∧
        ((commitHeld os).2 = .ok () → rest = []) := by
  by_cases hnil : held = []
  · subst hnil
    have hleft := h.left.isEmpty_iff.mpr rfl
    have hright := h.right.isEmpty_iff.mpr rfl
    rw [commitHeld, commitHeld, if_pos hleft, if_pos hright]
    exact ⟨rfl, [], h, fun _ => rfl⟩
  · have hleft := mt h.left.isEmpty_iff.mp hnil
    have hright := mt h.right.isEmpty_iff.mp hnil
    have hlens : other.pending.len = held.length := h.right.len
    have hlen : os.pending.len = held.length := h.left.len
    rw [commitHeld, commitHeld, if_neg hleft, if_neg hright, commitPending, self_bind, self_bind,
      hlen, hlens]
    obtain ⟨hexit, hloop⟩ := commitLoop_holding held.length (Nat.zero_add _) os other h
    rcases hrun : commitLoop 0 held.length os with ⟨os₁, ⟨written, result⟩ | e | _⟩ <;>
      rcases hrun' : commitLoop 0 held.length other with ⟨other₁, exit⟩ <;>
      rw [hrun, hrun'] at hexit hloop <;> subst hexit
    · obtain ⟨hwritten, hall⟩ := commitLoop_count held.length hrun
      rw [Nat.zero_add] at hwritten hall
      have hwithin : (held.drop written).length ≤ os₁.depth := by
        rw [List.length_drop]
        exact (Nat.sub_le _ _).trans hloop.within
      have hdropped := hloop.reframed (hloop.left.dropFront hwritten)
        (hloop.right.dropFront hwritten) hloop.depth_eq hwithin
      rw [bind_ok hrun, bind_ok hrun']
      cases result with
      | error e => exact ⟨rfl, _, hdropped, fun hok => by cases hok⟩
      | ok u =>
        refine ⟨rfl, _, hdropped, fun _ => ?_⟩
        rw [hall rfl]
        exact List.drop_length
    · rw [bind_err hrun, bind_err hrun']
      exact ⟨rfl, _, hloop, fun hok => by cases hok⟩
    · rw [bind_unwound hrun, bind_unwound hrun']
      exact ⟨rfl, _, hloop, fun hok => by cases hok⟩

/-- Committing the held-back headers does not tell twins apart. -/
theorem commitHeld_congruent : Congruent Twin commitHeld := by
  rintro os other ⟨held, h⟩
  obtain ⟨hexit, rest, hrest, _⟩ := commitHeld_holding h
  exact ⟨hexit, rest, hrest⟩

/-! ## Writers -/

/-- Writing a scalar field does not tell twins apart. -/
theorem writeFieldVarint_congruent (id : Id) (wireType : UInt8) (value : Unsigned) :
    Congruent Twin (writeFieldVarint id wireType value) := by
  rw [writeFieldVarint]
  split
  · exact congruent_fail _
  · exact commitHeld_congruent.bind fun _ => (writeHeaderValue_unframed _ _).congruent

/-- Writing a fixlen field does not tell twins apart. -/
theorem writeFixlenUnchecked_congruent (id : Id) (data : List UInt8) (subtype : FixlenType) :
    Congruent Twin (writeFixlenUnchecked id data subtype) := by
  rw [writeFixlenUnchecked]
  split
  · exact congruent_fail _
  · split
    · exact congruent_fail _
    · exact commitHeld_congruent.bind fun _ => (writeHeaderWordData_unframed _ _ _).congruent

/-- A public fixlen write does not tell twins apart. -/
theorem writeFixlen_congruent (id : Id) (data : List UInt8) (subtype : FixlenType) :
    Congruent Twin (writeFixlen id data subtype) := by
  cases subtype <;> rw [writeFixlen]
  case blob => exact writeFixlenUnchecked_congruent id data .blob
  all_goals
    split
    · first | exact congruent_fail _ | exact writeFixlenUnchecked_congruent id data _
    · first | exact congruent_fail _ | exact writeFixlenUnchecked_congruent id data _

/-- No field write tells twins apart. -/
theorem Field.write_congruent (host : Endian) (f : Field) : Congruent Twin (f.write host) := by
  cases f with
  | unsigned id value => exact writeFieldVarint_congruent _ _ _
  | signed id value => exact writeFieldVarint_congruent _ _ _
  | boolean id value => exact writeFieldVarint_congruent _ _ _
  | fp32 id value => exact writeFixlenUnchecked_congruent _ _ _
  | fp64 id value => exact writeFixlenUnchecked_congruent _ _ _
  | str id text => exact writeFixlenUnchecked_congruent _ _ _
  | blob id data => exact writeFixlenUnchecked_congruent _ _ _
  | fixlen id data subtype => exact writeFixlen_congruent _ _ _
  | arrayUnsigned id data =>
    rw [Field.write, writeArrayUnsigned]
    split
    · exact congruent_fail _
    · exact (writeFieldVarint_congruent _ _ _).bind fun _ =>
        (writeVarintRun_unframed _ _).congruent
  | arraySigned id data =>
    rw [Field.write, writeArraySigned]
    split
    · exact congruent_fail _
    · exact (writeFieldVarint_congruent _ _ _).bind fun _ =>
        (writeVarintRun_unframed _ _).congruent
  | arrayFp32 id data =>
    rw [Field.write, writeArrayFp32]
    split
    · exact congruent_fail _
    · refine (writeFieldVarint_congruent _ _ _).bind fun _ => ?_
      exact (writeVarint_unframed _).congruent.bind fun _ =>
        (writeFixlenRun_unframed _ _ _).congruent
  | arrayFp64 id data =>
    rw [Field.write, writeArrayFp64]
    split
    · exact congruent_fail _
    · refine (writeFieldVarint_congruent _ _ _).bind fun _ => ?_
      exact (writeVarint_unframed _).congruent.bind fun _ =>
        (writeFixlenRun_unframed _ _ _).congruent

/-! ## Sequences -/

/-- Opening a sequence fills the next slot of either twin. -/
theorem writeSequenceBeginLazy_congruent (id : Id) :
    Congruent Twin (writeSequenceBeginLazy id) := by
  refine congruent_self_bind fun os other ⟨held, h⟩ => ?_
  rw [h.depth_eq]
  split
  · exact ⟨rfl, held, h⟩
  · next hopen =>
    split
    · exact ⟨rfl, held, h⟩
    · have hroom : held.length < maxDepth := h.within.trans_lt (Nat.lt_of_not_le hopen)
      have hwithin : (held ++ [id]).length ≤ os.depth + 1 := by
        rw [List.length_append]
        exact Nat.succ_le_succ h.within
      exact ⟨rfl, _, h.reframed (h.left.push hroom) (h.right.push hroom)
        (congrArg Nat.succ h.depth_eq) hwithin⟩

/-- The marker of a sequence that is closed with nothing held back. -/
theorem marker_congruent (h : TwinHolding [] os other) :
    let close : EncodeM Unit := do
      writeSequenceEndMarker
      update fun os => { os with depth := os.depth - 1 }
    (close other).2 = (close os).2 ∧ Twin (close os).1 (close other).1 := by
  have hclosed : Congruent (TwinHolding [])
      (update fun os => { os with depth := os.depth - 1 } : EncodeM Unit) := fun os other h =>
    ⟨rfl, h.reframed h.left h.right (congrArg (· - 1) h.depth_eq) (Nat.zero_le _)⟩
  obtain ⟨hexit, hkept⟩ := ((writeVarint_unframed _).holding.bind fun _ => hclosed) os other h
  exact ⟨hexit, [], hkept⟩

/-- Closing a sequence frees the last slot of either twin, or writes a marker in both. -/
theorem writeSequenceEnd_congruent : Congruent Twin writeSequenceEnd := by
  refine congruent_self_bind fun os other ⟨held, h⟩ => ?_
  rw [h.depth_eq]
  split
  · exact ⟨rfl, held, h⟩
  · rw [self_bind, self_bind]
    have hwithin := h.within
    rcases List.eq_nil_or_concat held with hnil | ⟨init, id, hconcat⟩
    · subst hnil
      rw [h.left.pop_nil, h.right.pop_nil]
      exact marker_congruent h
    · rw [List.concat_eq_append] at hconcat
      subst hconcat
      obtain ⟨run, hpop, hholds⟩ := h.left.pop_concat
      obtain ⟨run', hpop', hholds'⟩ := h.right.pop_concat
      rw [hpop, hpop']
      rw [List.length_append, List.length_singleton] at hwithin
      exact ⟨rfl, init, h.reframed hholds hholds' (congrArg (· - 1) h.depth_eq)
        (Nat.le_sub_of_add_le hwithin)⟩

/-- Closing a sequence that is kept commits the same headers in both. -/
theorem writeSequenceEndKeep_congruent : Congruent Twin writeSequenceEndKeep := by
  refine congruent_self_bind fun os other ⟨held, h⟩ => ?_
  rw [h.depth_eq]
  split
  · exact ⟨rfl, held, h⟩
  · obtain ⟨hexit, rest, hrest, hdone⟩ := commitHeld_holding h
    refine bind_related hexit ⟨rest, hrest⟩ fun _ hok => ?_
    rw [hdone hok] at hrest
    exact marker_congruent hrest

/-- A writer call does the same whatever the stale slots hold. -/
theorem Call.write_congruent (host : Endian) (call : Call) : Congruent Twin (call.write host) := by
  cases call with
  | field f => exact f.write_congruent host
  | sequenceBeginLazy id => exact writeSequenceBeginLazy_congruent id
  | sequenceEnd => exact writeSequenceEnd_congruent
  | sequenceEndKeep => exact writeSequenceEndKeep_congruent

/-- An operation on the buffers leaves the framing alone. -/
theorem Op.run_unframed (host : Endian) {op : Op} (hop : ∀ c, op ≠ .call c) :
    Unframed (op.run host) := by
  cases op with
  | call c => exact absurd rfl (hop c)
  | flush => exact flush_unframed.bind fun _ _ _ => commutes_pure _
  | bufferSet buffer offset => exact bufferSet_unframed buffer offset

/-- No operation tells twins apart. -/
theorem Op.run_congruent (host : Endian) (op : Op) : Congruent Twin (op.run host) := by
  cases op with
  | call c => exact c.write_congruent host
  | flush => exact (Op.run_unframed host (fun _ => Op.noConfusion)).congruent
  | bufferSet buffer offset => exact (Op.run_unframed host (fun _ => Op.noConfusion)).congruent

/-! ## Frames without content -/

/-- The operations on the buffers among operations. -/
def buffersOf : List Op → List Op
  | [] => []
  | .call _ :: ops => buffersOf ops
  | op :: ops => op :: buffersOf ops

/-- The reports of operations whose writer calls succeed, given those of the others. -/
def woven : List Op → List (Exit Error Unit) → List (Exit Error Unit)
  | .call _ :: ops, reports => .ok () :: woven ops reports
  | _ :: ops, report :: reports => report :: woven ops reports
  | _, _ => []

/-- From the one framing the operations lead to the other. Their calls succeed, and those on the
buffers do what they do by themselves. -/
def Reframes (host : Endian) (ops : List Op) (run run' : PendingRun) (depth depth' : ℕ) : Prop :=
  ∀ os, runAll host ops (framed run depth os) =
    (framed run' depth' (runAll host (buffersOf ops) os).1,
      woven ops (runAll host (buffersOf ops) os).2)

/-- The operations on the buffers are those of one list after the other. -/
theorem buffersOf_append (ops more : List Op) :
    buffersOf (ops ++ more) = buffersOf ops ++ buffersOf more := by
  induction ops with
  | nil => rfl
  | cons op ops ih => cases op <;> simp [buffersOf, ih]

/-- Reports are woven one list after the other. -/
theorem woven_append (ops more : List Op) {reports reports' : List (Exit Error Unit)}
    (hlen : reports.length = (buffersOf ops).length) :
    woven (ops ++ more) (reports ++ reports') = woven ops reports ++ woven more reports' := by
  induction ops generalizing reports with
  | nil =>
    rw [List.length_eq_zero_iff.mp hlen]
    cases more <;> rfl
  | cons op ops ih =>
    cases op with
    | call c => exact congrArg _ (ih hlen)
    | flush =>
      obtain ⟨report, reports, rfl⟩ := List.exists_cons_of_length_eq_add_one hlen
      exact congrArg _ (ih (Nat.succ.inj hlen))
    | bufferSet buffer offset =>
      obtain ⟨report, reports, rfl⟩ := List.exists_cons_of_length_eq_add_one hlen
      exact congrArg _ (ih (Nat.succ.inj hlen))

variable {host : Endian} {ops more : List Op} {run run' run'' : PendingRun}
  {depth depth' depth'' : ℕ}

/-- Operations that reframe lead on from one another. -/
theorem Reframes.append (h : Reframes host ops run run' depth depth')
    (hmore : Reframes host more run' run'' depth' depth'') :
    Reframes host (ops ++ more) run run'' depth depth'' := by
  intro os
  rw [buffersOf_append, runAll, runAll, drive_append, drive_append]
  have hfirst := h os
  have hthen := hmore (runAll host (buffersOf ops) os).1
  rw [runAll] at hfirst hthen
  rw [hfirst, hthen, woven_append]
  · rfl
  · exact drive_length _ _ _

/-- An operation on the buffers changes no framing. -/
theorem reframes_buffer (host : Endian) (run : PendingRun) (depth : ℕ) {op : Op}
    (hop : ∀ c, op ≠ .call c) : Reframes host [op] run run depth depth := by
  intro os
  have hrun := Op.run_unframed host hop run depth os
  cases op with
  | call c => exact absurd rfl (hop c)
  | flush =>
    rw [runAll, drive_cons, hrun]
    rfl
  | bufferSet buffer offset =>
    rw [runAll, drive_cons, hrun]
    rfl

/-- Operations on the buffers alone. -/
theorem reframes_buffers (host : Endian) (run : PendingRun) (depth : ℕ)
    (hcalls : callsOf ops = []) : Reframes host ops run run depth depth := by
  induction ops with
  | nil => exact fun os => rfl
  | cons op ops ih =>
    cases op with
    | call c => cases hcalls
    | flush => exact (reframes_buffer host run depth fun _ => Op.noConfusion).append (ih hcalls)
    | bufferSet buffer offset =>
      exact (reframes_buffer host run depth fun _ => Op.noConfusion).append (ih hcalls)

/-- A call that does nothing but change the framing. -/
theorem reframes_call {c : Call}
    (h : ∀ os, c.write host (framed run depth os) = (framed run' depth' os, .ok ())) :
    Reframes host [.call c] run run' depth depth' := by
  intro os
  have hrun : Op.run host (.call c) (framed run depth os) = _ := h os
  rw [runAll, drive_cons, hrun]
  rfl

/-- Opening a sequence holds its id back and makes the depth one more. -/
theorem reframes_begin (host : Endian) (run : PendingRun) {id : Id} (hid : id.toNat ≤ idMax)
    (hopen : depth < maxDepth) :
    Reframes host [.call (.sequenceBeginLazy id)] run (run.push id) depth (depth + 1) := by
  refine reframes_call fun os => ?_
  change (if maxDepth ≤ depth then _ else if idMax < id.toNat then _ else _ : EncodeM Unit) _ = _
  rw [if_neg (Nat.not_le.mpr hopen), if_neg (Nat.not_lt.mpr hid)]
  rfl

/-- A sequence that is held back when it is closed vanishes. -/
theorem reframes_end (host : Endian) (depth : ℕ) {id : Id} (h : run.Holds (held ++ [id])) :
    ∃ run', run'.Holds held ∧ Reframes host [.call .sequenceEnd] run run' (depth + 1) depth := by
  obtain ⟨run', hpop, hholds⟩ := h.pop_concat
  refine ⟨run', hholds, reframes_call fun os => ?_⟩
  change writeSequenceEnd _ = _
  rw [writeSequenceEnd, self_bind]
  change (if depth + 1 = 0 then _ else _ : EncodeM Unit) _ = _
  have hpending : (framed run (depth + 1) os).pending.pop = (run', some id) := hpop
  rw [if_neg (Nat.succ_ne_zero depth), self_bind, hpending]
  rfl

/-- The calls of a run are those of one list after the other. -/
theorem callsOf_append (ops more : List Op) :
    callsOf (ops ++ more) = callsOf ops ++ callsOf more := by
  induction ops with
  | nil => rfl
  | cons op ops ih => cases op <;> simp [callsOf, ih]

/-- The operations up to the first call and behind it. -/
theorem callsOf_eq_cons {c : Call} {calls : List Call} (h : callsOf ops = c :: calls) :
    ∃ buffers rest, ops = buffers ++ ([.call c] ++ rest) ∧ callsOf buffers = [] ∧
      callsOf rest = calls := by
  induction ops with
  | nil => cases h
  | cons op ops ih =>
    cases op with
    | call c' =>
      cases h
      exact ⟨[], ops, rfl, rfl, rfl⟩
    | flush =>
      obtain ⟨buffers, rest, hops, hbuffers, hrest⟩ := ih h
      exact ⟨.flush :: buffers, rest, congrArg _ hops, hbuffers, hrest⟩
    | bufferSet buffer offset =>
      obtain ⟨buffers, rest, hops, hbuffers, hrest⟩ := ih h
      exact ⟨.bufferSet buffer offset :: buffers, rest, congrArg _ hops, hbuffers, hrest⟩

/-- Where the calls of a run are cut, the run can be cut too. -/
theorem callsOf_eq_append {calls calls' : List Call} (h : callsOf ops = calls ++ calls') :
    ∃ first rest, ops = first ++ rest ∧ callsOf first = calls ∧ callsOf rest = calls' := by
  induction calls generalizing ops with
  | nil => exact ⟨[], ops, rfl, rfl, h⟩
  | cons c calls ih =>
    obtain ⟨buffers, after, hops, hbuffers, hafter⟩ := callsOf_eq_cons h
    obtain ⟨first, rest, hafter', hfirst, hrest⟩ := ih hafter
    refine ⟨buffers ++ ([.call c] ++ first), rest, ?_, ?_, hrest⟩
    · rw [hops, hafter']
      simp
    · rw [callsOf_append, callsOf_append, hbuffers, hfirst]
      rfl

/-- The calls of a message without content open and close sequences that are held back, and lead
back to where they started, whatever is done to the buffers meanwhile. -/
theorem Message.reframes (host : Endian) {m : Message} (hvalid : m.Valid)
    (hempty : m.hasContent = false) (hcalls : callsOf ops = m.calls) (hholds : run.Holds held)
    (hwithin : held.length ≤ depth) (hfits : depth + m.height ≤ maxDepth) :
    ∃ run', run'.Holds held ∧ Reframes host ops run run' depth depth := by
  induction m generalizing ops run held depth with
  | done => exact ⟨run, hholds, reframes_buffers host run depth hcalls⟩
  | field f rest ih => cases hempty
  | frame id body keep rest ihBody ihRest =>
    obtain ⟨hid, hbody, hrest⟩ := hvalid
    rw [Message.hasContent, Bool.or_eq_false_iff, Bool.or_eq_false_iff] at hempty
    obtain ⟨⟨hlazy, hemptyBody⟩, hemptyRest⟩ := hempty
    rw [Message.height] at hfits
    have hopen : depth < maxDepth := by omega
    subst hlazy
    obtain ⟨lead, inside, rfl, hlead, hinside⟩ := callsOf_eq_cons hcalls
    obtain ⟨bodyOps, behind, rfl, hbodyOps, hbehind⟩ := callsOf_eq_append hinside
    obtain ⟨trail, restOps, rfl, htrail, hrestOps⟩ := callsOf_eq_cons hbehind
    have hpushed : (run.push id).Holds (held ++ [id]) := hholds.push (hwithin.trans_lt hopen)
    have hdeeper : (held ++ [id]).length ≤ depth + 1 := by
      rw [List.length_append]
      exact Nat.succ_le_succ hwithin
    obtain ⟨run₁, hholds₁, hframesBody⟩ :=
      ihBody hbody hemptyBody hbodyOps hpushed hdeeper (by omega)
    obtain ⟨run₂, hholds₂, hframesEnd⟩ := reframes_end host depth hholds₁
    obtain ⟨run₃, hholds₃, hframesRest⟩ :=
      ihRest hrest hemptyRest hrestOps hholds₂ hwithin (by omega)
    refine ⟨run₃, hholds₃, (reframes_buffers host run depth hlead).append ?_⟩
    refine (reframes_begin host run hid hopen).append (hframesBody.append ?_)
    exact (reframes_buffers host run₁ (depth + 1) htrail).append (hframesEnd.append hframesRest)

/-- Operations on the buffers keep the framing. -/
theorem buffersOf_kept (host : Endian) (ops : List Op) (os : OStream) :
    (runAll host (buffersOf ops) os).1.pending = os.pending ∧
      (runAll host (buffersOf ops) os).1.depth = os.depth := by
  have hnone : callsOf (buffersOf ops) = [] := by
    induction ops with
    | nil => rfl
    | cons op ops ih => cases op <;> exact ih
  have hrun := reframes_buffers host os.pending os.depth hnone os
  change runAll host (buffersOf ops) os = _ at hrun
  rw [hrun]
  exact ⟨rfl, rfl⟩

/-- Writer calls that come to sequences without content, put in anywhere into a run of operations
on a new stream, with whatever is done to the buffers between them, all succeed. Every other
operation reports what it reports without them, and the stream at the end is the same but for
slots of the run of held-back ids that are not in use. -/
theorem vanished_frames_leave_no_trace (host : Endian) (hopen : Opened os)
    (before ops after : List Op) {m : Message} (hvalid : m.Valid) (hempty : m.hasContent = false)
    (hcalls : callsOf ops = m.calls)
    (hfits : (runAll host before os).1.depth + m.height ≤ maxDepth) :
    ∃ reports reports' reports'',
      (runAll host (before ++ (buffersOf ops ++ after)) os).2 =
        reports ++ (reports' ++ reports'') ∧
      (runAll host (before ++ (ops ++ after)) os).2 =
        reports ++ (woven ops reports' ++ reports'') ∧
      reports.length = before.length ∧ reports'.length = (buffersOf ops).length ∧
      Twin (runAll host (before ++ (buffersOf ops ++ after)) os).1
        (runAll host (before ++ (ops ++ after)) os).1 := by
  have hreached := (congruent_drive (Op.run_congruent host) before
    (twin_self hopen.written.framed)).2
  rcases hstart : runAll host before os with ⟨reached, reports⟩
  rw [runAll] at hstart
  rw [runAll, hstart] at hfits
  rw [hstart] at hreached
  obtain ⟨held, hheld⟩ := hreached
  obtain ⟨run, hholds, hframes⟩ :=
    Message.reframes host hvalid hempty hcalls hheld.left hheld.within hfits
  have hmiddle := hframes reached
  obtain ⟨hpending, hdepth⟩ := buffersOf_kept host ops reached
  change runAll host ops reached = _ at hmiddle
  rcases hplain : runAll host (buffersOf ops) reached with ⟨left, reports'⟩
  rw [hplain] at hmiddle hpending hdepth
  rw [runAll] at hplain hmiddle
  have htwin : Twin left (framed run reached.depth left) := by
    refine ⟨held, ?_, ?_, hholds, ?_⟩
    · rw [hdepth]
      rfl
    · rw [hpending]
      exact hheld.left
    · rw [hdepth]
      exact hheld.within
  obtain ⟨hafter, hend⟩ := congruent_drive (Op.run_congruent host) after htwin
  refine ⟨reports, reports', (drive (Op.run host) after left).2, ?_, ?_, ?_, ?_, ?_⟩
  · rw [runAll, drive_append, hstart, drive_append, hplain]
  · rw [runAll, drive_append, hstart, drive_append, hmiddle, hafter]
  · rw [← drive_length (Op.run host) before os, hstart]
  · rw [← drive_length (Op.run host) (buffersOf ops) reached, hplain]
  · rw [runAll, runAll, drive_append, hstart, drive_append, hplain, drive_append, hstart,
      drive_append, hmiddle]
    exact hend

/-- Two nested sequences that vanish around a flush hand nothing else to the sink. -/
theorem vanished_frames_leave_no_trace_flushed :
    ∃ os, withFlush [0, 0] 0 .copying = .ok os ∧
      (runAll .little [.call (.field (.unsigned 1 2)), .call (.sequenceBeginLazy 1), .flush,
        .call (.sequenceBeginLazy 2), .call .sequenceEnd, .call .sequenceEnd,
        .call (.field (.unsigned 5 700))] os).1.handed =
      (runAll .little [.call (.field (.unsigned 1 2)), .flush,
        .call (.field (.unsigned 5 700))] os).1.handed := by
  refine ⟨_, rfl, ?_⟩
  have hvalid : (Message.frame 1 (.frame 2 .done false .done) false .done).Valid :=
    ⟨by decide, ⟨by decide, trivial, trivial⟩, trivial⟩
  obtain ⟨_, _, _, _, _, _, _, held, htwin⟩ :=
    vanished_frames_leave_no_trace .little (@Opened.withFlush [0, 0] 0 .copying _ rfl rfl)
      [.call (.field (.unsigned 1 2))]
      [.call (.sequenceBeginLazy 1), .flush, .call (.sequenceBeginLazy 2), .call .sequenceEnd,
        .call .sequenceEnd]
      [.call (.field (.unsigned 5 700))] hvalid rfl rfl (by decide +kernel)
  have hhanded := congrArg OStream.handed htwin.same
  exact hhanded

end Sofab
