import Sofab.Framing
import Sofab.Pushing

/-!
# Every call emits what the framing says

The held-back headers go out in front of the first content behind them. A writer call whose
arguments are refused leaves the stream as it was; any other emits exactly the bytes of
`Call.emit`.
-/

namespace Sofab

open Steps Step OStream

/-- The stream stands for a lawful framing. -/
structure Framed (os : OStream) (φ : Framing) : Prop where
  lawful : φ.Lawful
  depth : os.depth = φ.depth
  pending : os.pending.Holds φ.held

/-- The stream stands for some framing. -/
def SomeFraming (os : OStream) : Prop := ∃ φ, Framed os φ

variable {os os' : OStream} {φ φ' : Framing} {bytes more : List UInt8}

/-- A framing that is kept is stood for still. -/
theorem SameFraming.framed (same : SameFraming os os') (h : Framed os φ) : Framed os' φ where
  lawful := h.lawful
  depth := same.depth.trans h.depth
  pending := by
    rw [same.pending]
    exact h.pending

/-- Once the run is committed no header is held back. -/
theorem Framing.Lawful.committed (h : φ.Lawful) : (⟨φ.depth, []⟩ : Framing).Lawful :=
  ⟨Nat.zero_le _, h.depth⟩

/-- What was written stops short in a call: the headers complete in it are no longer held
back. -/
def Torn (os : OStream) (φ : Framing) (os' : OStream) : Prop :=
  ∃ bytes, os'.message = os.message ++ bytes ∧
    Framed os' ⟨φ.depth, φ.held.drop (completed φ.held bytes)⟩

/-- A call that stops short leaves some framing. -/
theorem Torn.someFraming (h : Torn os φ os') : SomeFraming os' :=
  let ⟨_, _, hframed⟩ := h
  ⟨_, hframed⟩

/-- What is torn behind the held-back headers has none of them held back. -/
theorem torn_behind (bytes : List UInt8) (hframed : Framed os' ⟨φ.depth, []⟩)
    (hmessage : os'.message = os.message ++ (startHeaders φ.held ++ bytes)) : Torn os φ os' := by
  refine ⟨_, hmessage, ?_⟩
  rw [completed_append, List.drop_length]
  exact hframed

/-- What a stopped step has written is known where it stops. -/
theorem Emits.stopping {done stop : OStream → Prop} {result : OStream × Exit Error Unit}
    (h : Emits os bytes done stop result) :
    Emits os bytes done (fun os' => stop os' ∧ ∃ k, os'.message = os.message ++ bytes.take k)
      result := by
  cases h with
  | ok reached dead ending => exact .ok reached dead ending
  | stopped k reached short spent ending =>
    exact .stopped k reached short spent ⟨ending, k, reached.message⟩
  | unwound broken => exact .unwound broken

/-- What is pushed behind the held-back headers leaves the framing. -/
theorem Emits.push {m : EncodeM Unit} {f : Unit → EncodeM Unit}
    (h : Emits os (startHeaders φ.held ++ bytes) (Framed · ⟨φ.depth, []⟩) (Torn os φ) (m os))
    (hpush : Pushes more (f ())) :
    Emits os (startHeaders φ.held ++ (bytes ++ more)) (Framed · ⟨φ.depth, []⟩) (Torn os φ)
      ((m >>= f) os) := by
  rw [← List.append_assoc]
  refine h.bind (fun os₁ reached framed => ?_) fun _ torn => torn
  refine (hpush os₁ reached.sound).stopping.imp (fun _ same => same.framed framed) ?_
  rintro os₂ ⟨same, k, hmessage⟩
  refine torn_behind (bytes ++ more.take k) (same.framed framed) ?_
  rw [hmessage, reached.message, List.append_assoc, List.append_assoc]

/-- Only the framing of a stream is changed. -/
theorem reached_framing (hsound : Sound os) (depth : ℕ) (pending : PendingRun) :
    Reached os { os with depth := depth, pending := pending } [] where
  sound := ⟨hsound.end_eq, hsound.kept, hsound.handed, hsound.capacity, hsound.dead,
    hsound.answered⟩
  message := (List.append_nil _).symm
  answer := rfl
  sinkless _ := rfl
  dead hdead := ⟨hdead, rfl⟩
  adopted := (Reached.refl hsound).adopted
  installs _ _ h := h

/-- What is done to the framing after a call. -/
theorem Emits.reframe {m : EncodeM Unit} (f : OStream → OStream)
    {stop : OStream → Prop} (h : Emits os bytes (Framed · φ) stop (m os))
    (hf : ∀ os₁, Sound os₁ → Framed os₁ φ →
      Reached os₁ (f os₁) [] ∧ (f os₁).dead = os₁.dead ∧ Framed (f os₁) φ') :
    Emits os bytes (Framed · φ') stop ((m >>= fun _ => update f) os) := by
  have hall : Emits os (bytes ++ []) (Framed · φ') stop ((m >>= fun _ => update f) os) :=
    h.bind (fun os₁ reached framed => by
      obtain ⟨reached', dead, framed'⟩ := hf os₁ reached.sound framed
      exact .ok reached' dead framed') fun _ torn => torn
  rwa [List.append_nil] at hall

/-! ## Headers and words -/

/-- A tag of three bits below a number that leaves them free. -/
theorem tagged_toNat {value : UInt64} {tag : UInt8} (hvalue : value.toNat < 2 ^ 61)
    (htag : tag.toNat < 8) : (value <<< 3 ||| tag.toUInt64).toNat = value.toNat * 8 + tag.toNat := by
  have hshift : (value <<< 3).toNat = 2 ^ 3 * value.toNat := by
    rw [UInt64.toNat_shiftLeft, Nat.shiftLeft_eq]
    change value.toNat * 2 ^ 3 % 2 ^ 64 = _
    rw [Nat.mod_eq_of_lt (by omega), Nat.mul_comm]
  rw [UInt64.toNat_or, hshift, UInt8.toNat_toUInt64, ← Nat.two_pow_add_eq_or_of_lt htag]
  omega

/-- The header that is written is the canonical one. -/
theorem fieldHeader_bytes (id : Id) (wireType : UInt8) (htype : wireType.toNat < 8) :
    varintBytes (fieldHeader id wireType) = headerBytes id wireType.toNat := by
  have hid : id.toUInt64.toNat < 2 ^ 61 := by
    rw [UInt32.toNat_toUInt64]
    exact id.toNat_lt.trans (by decide)
  rw [varintBytes, headerBytes, fieldHeader, tagged_toNat hid htype, UInt32.toNat_toUInt64]

/-- The fixlen word that is written is the canonical one. -/
theorem fixlenWord_bytes {len : ℕ} (subtype : FixlenType) (hlen : len ≤ fixlenMax) :
    varintBytes (fixlenWord len subtype) = Leb128.encode (len * 8 + subtype.tag.toNat) := by
  have hmax : fixlenMax = 2147483647 := rfl
  have hval : (UInt64.ofNat len).toNat = len := UInt64.toNat_ofNat_of_lt' (by
    change len < 2 ^ 64
    omega)
  have htag : subtype.tag.toNat < 8 := by cases subtype <;> decide
  rw [varintBytes, fixlenWord, tagged_toNat (by omega) htag, hval]

/-- The count that is written is the canonical one. -/
theorem count_bytes {count : ℕ} (hcount : count ≤ arrayMax) :
    varintBytes (UInt64.ofNat count) = Leb128.encode count := by
  have hmax : arrayMax = 2147483647 := rfl
  have hval : (UInt64.ofNat count).toNat = count := UInt64.toNat_ofNat_of_lt' (by
    change count < 2 ^ 64
    omega)
  rw [varintBytes, hval]

/-! ## Committing -/

/-- The loop over the held-back headers from the `i`th on. -/
inductive Commits (os : OStream) (held : List Id) (i : ℕ) :
    OStream × Exit Error (ℕ × Except Error Unit) → Prop
  | ok {os' : OStream} (reached : Reached os os' (startHeaders (held.drop i)))
      (dead : os'.dead = os.dead) (same : SameFraming os os') :
      Commits os held i (os', .ok (held.length, .ok ()))
  | stopped {os' : OStream} (k written : ℕ)
      (reached : Reached os os' ((startHeaders (held.drop i)).take k))
      (short : k < (startHeaders (held.drop i)).length) (spent : os'.Spent)
      (same : SameFraming os os')
      (torn : written = i + completed (held.drop i) ((startHeaders (held.drop i)).take k)) :
      Commits os held i (os', .ok (written, .error os'.stopError))
  | unwound {os' : OStream} (broken : Broken os os') : Commits os held i (os', .unwound)

/-- The word written for a header held back. -/
theorem heldHeader_bytes {held : List Id} (hpending : os.pending.Holds held) {i : ℕ}
    (hi : i < held.length) :
    varintBytes ((os.pending.get i).toUInt64 <<< 3 ||| tSequenceStart.toUInt64) =
      startHeader held[i] := by
  rw [hpending.get hi]
  exact fieldHeader_bytes held[i] tSequenceStart (by decide)

/-- The held-back headers from one on begin with it. -/
theorem startHeaders_drop {held : List Id} {i : ℕ} (hi : i < held.length) :
    startHeaders (held.drop i) = startHeader held[i] ++ startHeaders (held.drop (i + 1)) := by
  rw [List.drop_eq_getElem_cons hi, startHeaders, List.flatMap_cons]
  rfl

/-- The loop commits the headers from the `i`th on. -/
theorem commitLoop_commits (held : List Id) (left : ℕ) {i : ℕ} (hsum : i + left = held.length)
    (hsound : Sound os) (hpending : os.pending.Holds held) :
    Commits os held i (commitLoop i left os) := by
  induction left generalizing i os with
  | zero =>
    have hi : i = held.length := hsum
    subst hi
    refine .ok ?_ rfl (.refl os)
    rw [List.drop_length]
    exact .refl hsound
  | succ left ih =>
    have hi : i < held.length := by omega
    have hheaders := startHeaders_drop hi
    have hwrite := (writeVarint_performs
      ((os.pending.get i).toUInt64 <<< 3 ||| tSequenceStart.toUInt64)).pushes os hsound
    rw [heldHeader_bytes hpending hi] at hwrite
    rw [commitLoop, self_bind]
    generalize hrun : writeVarint
      ((os.pending.get i).toUInt64 <<< 3 ||| tSequenceStart.toUInt64) os = result at hwrite
    cases hwrite with
    | @ok os₁ reached dead same =>
      rw [bind_ok (attempt_ok hrun)]
      have hrest : Commits os₁ held (i + 1) (commitLoop (i + 1) left os₁) :=
        ih (by omega) reached.sound (by rw [same.pending]; exact hpending)
      change Commits os held i (commitLoop (i + 1) left os₁)
      generalize commitLoop (i + 1) left os₁ = result' at hrest
      cases hrest with
      | ok reached' dead' same' =>
        refine .ok ?_ (dead'.trans dead) (same.trans same')
        rw [hheaders]
        exact reached.trans reached'
      | stopped k written reached' short spent same' torn =>
        refine .stopped ((startHeader held[i]).length + k) written ?_ ?_ spent
          (same.trans same') ?_
        · rw [hheaders, List.take_length_add_append]
          exact reached.trans reached'
        · rw [hheaders, List.length_append]
          exact Nat.add_lt_add_left short _
        · rw [hheaders, List.take_length_add_append, List.drop_eq_getElem_cons hi,
            completed_cons, torn]
          omega
      | unwound broken => exact .unwound (broken.behind reached)
    | @stopped os₁ k reached short spent same =>
      rw [bind_ok (attempt_err hrun)]
      refine .stopped k i ?_ ?_ spent same ?_
      · rw [hheaders, List.take_append_of_le_length short.le]
        exact reached
      · rw [hheaders, List.length_append]
        exact short.trans_le (Nat.le_add_right _ _)
      · rw [List.drop_eq_getElem_cons hi, completed_of_lt, Nat.add_zero]
        rw [List.length_take]
        omega
    | unwound broken =>
      rw [bind_unwound (attempt_unwound hrun)]
      exact .unwound broken

/-- Committing writes the held-back headers, outermost first. -/
theorem commitHeld_emits (hsound : Sound os) (hframed : Framed os φ) :
    Emits os (startHeaders φ.held) (Framed · ⟨φ.depth, []⟩) (Torn os φ) (commitHeld os) := by
  have hheld := hframed.lawful.held
  rw [commitHeld]
  by_cases hempty : os.pending.isEmpty = true
  · have hnil := hframed.pending.isEmpty_iff.mp hempty
    rw [if_pos hempty, hnil]
    refine emits_pure hsound ⟨hframed.lawful.committed, hframed.depth, ?_⟩
    rw [← hnil]
    exact hframed.pending
  · have hloop := commitLoop_commits φ.held φ.held.length (Nat.zero_add _) hsound
      hframed.pending
    rw [if_neg hempty, commitPending, self_bind, PendingRun.len, hframed.pending.len]
    rw [← hframed.pending.len] at hloop ⊢
    generalize hrun : commitLoop 0 os.pending.n os = result at hloop
    have hdrop {os₁ : OStream} (same : SameFraming os os₁) {written : ℕ}
        (hwritten : written ≤ φ.held.length) :
        Framed { os₁ with pending := os₁.pending.dropFront written }
          ⟨φ.depth, φ.held.drop written⟩ := by
      refine ⟨⟨?_, hframed.lawful.depth⟩, same.depth.trans hframed.depth, ?_⟩
      · rw [List.length_drop]
        exact (Nat.sub_le _ _).trans hheld
      · have hpending := (same.framed hframed).pending
        exact hpending.dropFront hwritten
    cases hloop with
    | @ok os₁ reached dead same =>
      have hall := reached.trans (reached_framing reached.sound os₁.depth
        (os₁.pending.dropFront φ.held.length))
      rw [List.append_nil, List.drop_zero] at hall
      rw [bind_ok hrun]
      change Emits os _ _ _ ({ os₁ with pending := os₁.pending.dropFront φ.held.length }, .ok ())
      refine .ok hall dead ?_
      have hframed' := hdrop same (Nat.le_refl _)
      rwa [List.drop_length] at hframed'
    | @stopped os₁ k written reached short spent same torn =>
      have hall := reached.trans (reached_framing reached.sound os₁.depth
        (os₁.pending.dropFront written))
      rw [List.append_nil, List.drop_zero] at hall
      rw [List.drop_zero] at short
      rw [bind_ok hrun]
      change Emits os _ _ _ ({ os₁ with pending := os₁.pending.dropFront written }, .err _)
      rw [List.drop_zero, Nat.zero_add] at torn
      refine .stopped k hall short spent ⟨_, hall.message, ?_⟩
      rw [← torn]
      exact hdrop same (torn ▸ completed_le _ _)
    | unwound broken =>
      rw [bind_unwound hrun]
      exact .unwound broken

/-! ## Fields -/

/-- A writer whose bytes are content: they go out behind the held-back headers. -/
def Contents (bytes : List UInt8) (m : EncodeM Unit) : Prop :=
  ∃ body, m = (commitHeld >>= fun _ => body) ∧ Performs bytes body

/-- More content follows without another look at the held-back headers. -/
theorem Contents.bind {m : EncodeM Unit} {f : Unit → EncodeM Unit} (h : Contents bytes m)
    (hnext : Performs more (f ())) : Contents (bytes ++ more) (m >>= f) := by
  obtain ⟨body, rfl, hbody⟩ := h
  exact ⟨body >>= f, Step.bind_assoc _ _ _, hbody.bind hnext⟩

/-- A scalar field is content, by its canonical bytes. -/
theorem writeFieldVarint_contents {id : Id} (wireType : UInt8) (value : Unsigned)
    (hid : id.toNat ≤ idMax) (htype : wireType.toNat < 8) :
    Contents (headerBytes id wireType.toNat ++ varintBytes value)
      (writeFieldVarint id wireType value) := by
  rw [writeFieldVarint, if_neg (Nat.not_lt.mpr hid), ← fieldHeader_bytes id wireType htype]
  exact ⟨_, rfl, writeHeaderValue_performs _ _⟩

/-- An id out of range is refused before anything is written. -/
theorem writeFieldVarint_refused {id : Id} (wireType : UInt8) (value : Unsigned)
    (hid : ¬id.toNat ≤ idMax) : writeFieldVarint id wireType value = fail .argument :=
  if_pos (Nat.lt_of_not_le hid)

/-- A fixlen field is content, by its canonical bytes. -/
theorem writeFixlenUnchecked_contents {id : Id} {data : List UInt8} (subtype : FixlenType)
    (hid : id.toNat ≤ idMax) (hlen : data.length ≤ fixlenMax) :
    Contents (fixlenBytes id data subtype) (writeFixlenUnchecked id data subtype) := by
  have hheader := fieldHeader_bytes id tFixlen (by decide)
  have hword := fixlenWord_bytes subtype hlen
  have hpush := writeHeaderWordData_performs (fieldHeader id tFixlen)
    (fixlenWord data.length subtype) data
  rw [hheader, hword] at hpush
  rw [writeFixlenUnchecked, if_neg (Nat.not_lt.mpr hlen), if_neg (Nat.not_lt.mpr hid)]
  exact ⟨_, rfl, hpush⟩

/-- An id or a length out of range is refused before anything is written. -/
theorem writeFixlenUnchecked_refused {id : Id} {data : List UInt8} (subtype : FixlenType)
    (h : ¬(id.toNat ≤ idMax ∧ data.length ≤ fixlenMax)) :
    writeFixlenUnchecked id data subtype = fail .argument := by
  rw [writeFixlenUnchecked]
  split
  · rfl
  split
  · rfl
  · exact absurd ⟨Nat.not_lt.mp ‹_›, Nat.not_lt.mp ‹_›⟩ h

/-- An array whose elements are pushed behind its header and count. -/
theorem array_contents {id : Id} (wireType : UInt8) {count : ℕ} {body : EncodeM Unit}
    (hid : id.toNat ≤ idMax) (htype : wireType.toNat < 8) (hcount : count ≤ arrayMax)
    (hbody : Performs bytes body) :
    Contents (headerBytes id wireType.toNat ++ Leb128.encode count ++ bytes)
      (writeFieldVarint id wireType (UInt64.ofNat count) >>= fun _ => body) := by
  have hhead := writeFieldVarint_contents wireType (UInt64.ofNat count) hid htype
  rw [count_bytes hcount] at hhead
  exact hhead.bind (f := fun _ => body) hbody

/-- An array with an id or a length out of bounds is refused. -/
theorem array_refused {id : Id} (wireType : UInt8) {count : ℕ} (body : EncodeM Unit)
    (h : ¬(id.toNat ≤ idMax ∧ count ≤ arrayMax)) :
    (if arrayMax < count then fail .argument
      else writeFieldVarint id wireType (UInt64.ofNat count) >>= fun _ => body) =
      (fail .argument : EncodeM Unit) := by
  split
  · rfl
  · next hcount =>
    rw [writeFieldVarint_refused _ _ fun hid => h ⟨hid, Nat.not_lt.mp hcount⟩]
    rfl

/-- An integer array is content, by its canonical bytes. -/
theorem integers_contents {α : Type} {id : Id} (wireType : UInt8) {data : List α}
    (toWire : α → Unsigned) (hid : id.toNat ≤ idMax) (htype : wireType.toNat < 8)
    (hlen : data.length ≤ arrayMax) :
    Contents (integersBytes id wireType.toNat (data.map toWire))
      (writeFieldVarint id wireType (UInt64.ofNat data.length) >>= fun _ =>
        writeVarintRun data toWire) := by
  have hall := array_contents wireType hid htype hlen (writeVarintRun_performs toWire data)
  rw [integersBytes, List.length_map]
  exact hall

/-- A float array is content, by its canonical bytes. -/
theorem floats_contents {α : Type} {id : Id} {data : List α} {width : ℕ} {subtype : FixlenType}
    (host : Endian) (toLe : α → List UInt8) (hid : id.toNat ≤ idMax)
    (hlen : data.length ≤ arrayMax) (hwidth : width ≤ fixlenMax) :
    Contents (floatsBytes id data.length width subtype (data.flatMap toLe))
      (writeFieldVarint id tFixlenArray (UInt64.ofNat data.length) >>= fun _ =>
        writeVarint (fixlenWord width subtype) >>= fun _ => writeFixlenRun host data toLe) := by
  have hword := writeVarint_performs (fixlenWord width subtype)
  rw [fixlenWord_bytes subtype hwidth] at hword
  have hbody := hword.bind (f := fun _ => writeFixlenRun host data toLe)
    (writeFixlenRun_performs host data toLe)
  have hall := array_contents tFixlenArray hid (by decide) hlen hbody
  rw [floatsBytes, List.append_assoc (headerBytes id 5 ++ Leb128.encode data.length)]
  exact hall

/-- A field write with valid arguments writes the field as content. -/
theorem Field.write_contents (host : Endian) {field : Field} (hvalid : field.Valid) :
    Contents field.bytes (field.write host) := by
  obtain ⟨hid, hfits⟩ := hvalid
  cases field with
  | unsigned id value => exact writeFieldVarint_contents tVarintUnsigned value hid (by decide)
  | signed id value => exact writeFieldVarint_contents tVarintSigned _ hid (by decide)
  | boolean id value =>
    have hall := writeFieldVarint_contents tVarintUnsigned value.toUInt64 hid (by decide)
    have hval : value.toUInt64.toNat = value.toNat := by cases value <;> rfl
    rw [varintBytes, hval] at hall
    exact hall
  | fp32 id value => exact writeFixlenUnchecked_contents .fp32 hid (by simp [fixlenMax])
  | fp64 id value => exact writeFixlenUnchecked_contents .fp64 hid (by simp [fixlenMax])
  | str id text => exact writeFixlenUnchecked_contents .str hid hfits
  | blob id data => exact writeFixlenUnchecked_contents .blob hid hfits
  | fixlen id data subtype =>
    obtain ⟨hagrees, hlen⟩ := hfits
    have hall := writeFixlenUnchecked_contents subtype hid hlen
    have hchecked : writeFixlen id data subtype = writeFixlenUnchecked id data subtype := by
      cases subtype with
      | fp32 => exact if_neg (not_not.mpr hagrees)
      | fp64 => exact if_neg (not_not.mpr hagrees)
      | str => exact if_pos hagrees
      | blob => rfl
    rw [write, hchecked]
    exact hall
  | arrayUnsigned id data =>
    rw [write, writeArrayUnsigned, if_neg (Nat.not_lt.mpr hfits)]
    exact integers_contents tVarintArrayUnsigned _ hid (by decide) hfits
  | arraySigned id data =>
    rw [write, writeArraySigned, if_neg (Nat.not_lt.mpr hfits)]
    exact integers_contents tVarintArraySigned _ hid (by decide) hfits
  | arrayFp32 id data =>
    rw [write, writeArrayFp32, if_neg (Nat.not_lt.mpr hfits)]
    exact floats_contents host f32LeBytes hid hfits (by decide)
  | arrayFp64 id data =>
    rw [write, writeArrayFp64, if_neg (Nat.not_lt.mpr hfits)]
    exact floats_contents host f64LeBytes hid hfits (by decide)

/-- Content goes out behind the held-back headers. -/
theorem Contents.emits {m : EncodeM Unit} (h : Contents bytes m) (hsound : Sound os)
    (hframed : Framed os φ) :
    Emits os (startHeaders φ.held ++ bytes) (Framed · ⟨φ.depth, []⟩) (Torn os φ) (m os) := by
  obtain ⟨body, rfl, hbody⟩ := h
  have hcommit := commitHeld_emits hsound hframed
  rw [← List.append_nil (startHeaders φ.held)] at hcommit
  exact hcommit.push (f := fun _ => body) hbody.pushes

/-- A field write with other arguments is refused. -/
theorem Field.write_refused (host : Endian) {field : Field} (hinvalid : ¬field.Valid) :
    field.write host = fail .argument := by
  have hid {id : Id} (h : ¬(id.toNat ≤ idMax ∧ True)) : ¬id.toNat ≤ idMax := fun hid => h ⟨hid, trivial⟩
  cases field with
  | unsigned id value => exact writeFieldVarint_refused _ _ (hid hinvalid)
  | signed id value => exact writeFieldVarint_refused _ _ (hid hinvalid)
  | boolean id value => exact writeFieldVarint_refused _ _ (hid hinvalid)
  | fp32 id value =>
    have hrefused : writeFixlenUnchecked id (f32LeBytes value) .fp32 = fail .argument :=
      writeFixlenUnchecked_refused _ fun h => hinvalid ⟨h.1, trivial⟩
    exact hrefused
  | fp64 id value =>
    have hrefused : writeFixlenUnchecked id (f64LeBytes value) .fp64 = fail .argument :=
      writeFixlenUnchecked_refused _ fun h => hinvalid ⟨h.1, trivial⟩
    exact hrefused
  | str id text => exact writeFixlenUnchecked_refused _ hinvalid
  | blob id data => exact writeFixlenUnchecked_refused _ hinvalid
  | fixlen id data subtype =>
    by_cases hagrees : Agrees data subtype
    · have hrefused : writeFixlenUnchecked id data subtype = fail .argument :=
        writeFixlenUnchecked_refused subtype fun h => hinvalid ⟨h.1, hagrees, h.2⟩
      cases subtype with
      | fp32 => exact (if_neg (not_not.mpr hagrees)).trans hrefused
      | fp64 => exact (if_neg (not_not.mpr hagrees)).trans hrefused
      | str => exact (if_pos hagrees).trans hrefused
      | blob => exact hrefused
    · cases subtype with
      | fp32 => exact if_pos hagrees
      | fp64 => exact if_pos hagrees
      | str => exact if_neg hagrees
      | blob => exact absurd trivial hagrees
  | arrayUnsigned id data => exact array_refused _ _ hinvalid
  | arraySigned id data => exact array_refused _ _ hinvalid
  | arrayFp32 id data => exact array_refused _ _ hinvalid
  | arrayFp64 id data => exact array_refused _ _ hinvalid

/-! ## Calls -/

/-- The end marker is filled in as its one byte. -/
theorem writeSequenceEndMarker_performs : Performs endMarker writeSequenceEndMarker := by
  have hmarker : varintBytes tSequenceEnd.toUInt64 = endMarker := Leb128.encode_of_lt (by decide)
  rw [← hmarker]
  exact writeVarint_performs _

/-- The end marker of a sequence that is kept is content. -/
theorem endMarker_contents :
    Contents endMarker (commitHeld >>= fun _ => writeSequenceEndMarker) :=
  ⟨_, rfl, writeSequenceEndMarker_performs⟩

/-- One sequence less is open, and none is held back. -/
theorem closed_framed (hφ : φ.Lawful) (hsound : Sound os) (hframed : Framed os ⟨φ.depth, []⟩) :
    Reached os { os with depth := os.depth - 1 } [] ∧
      { os with depth := os.depth - 1 }.dead = os.dead ∧
      Framed { os with depth := os.depth - 1 } ⟨φ.depth - 1, []⟩ :=
  ⟨reached_framing hsound (os.depth - 1) os.pending, rfl,
    ⟨Nat.zero_le _, (Nat.sub_le _ _).trans hφ.depth⟩, congrArg (· - 1) hframed.depth,
    hframed.pending⟩

/-- A call emits its bytes, or is refused and leaves the stream as it was. -/
inductive Wrote (os : OStream) (φ : Framing) (call : Call) : OStream × Exit Error Unit → Prop
  | emitted {φ' : Framing} {bytes : List UInt8} {result : OStream × Exit Error Unit}
      (emit : call.emit φ = .ok (φ', bytes))
      (emits : Emits os bytes (Framed · φ') SomeFraming result) : Wrote os φ call result
  | refused (emit : call.emit φ = .error .argument) : Wrote os φ call (os, .err .argument)

/-- A call that the framing refuses leaves the stream as it was. -/
theorem Call.write_refused (host : Endian) {call : Call} {e : Error} (hframed : Framed os φ)
    (hrefused : call.emit φ = .error e) : call.write host os = (os, .err .argument) := by
  cases call with
  | field f =>
    have hinvalid : ¬f.Valid := fun hvalid => by
      rw [emit_field φ hvalid] at hrefused
      cases hrefused
    rw [write, Field.write_refused host hinvalid]
    rfl
  | sequenceBeginLazy id =>
    rw [write, writeSequenceBeginLazy, self_bind, hframed.depth]
    by_cases hdepth : maxDepth ≤ φ.depth
    · rw [if_pos hdepth]
      rfl
    by_cases hid : idMax < id.toNat
    · rw [if_neg hdepth, if_pos hid]
      rfl
    · rw [emit_begin φ (Nat.lt_of_not_le hdepth) (Nat.not_lt.mp hid)] at hrefused
      cases hrefused
  | sequenceEnd =>
    by_cases hdepth : φ.depth = 0
    · rw [write, writeSequenceEnd, self_bind, hframed.depth, if_pos hdepth]
      rfl
    · rw [emit, if_neg hdepth] at hrefused
      split at hrefused <;> cases hrefused
  | sequenceEndKeep =>
    by_cases hdepth : φ.depth = 0
    · rw [write, writeSequenceEndKeep, self_bind, hframed.depth, if_pos hdepth]
      rfl
    · rw [emit_keep φ hdepth] at hrefused
      cases hrefused

/-- What a call that the framing accepts comes to: a content writer, a change of the framing
state, or the marker of a sequence with the headers held back in front of it. -/
inductive Accepted (host : Endian) (os : OStream) (φ : Framing) :
    Call → Framing → List UInt8 → OStream × Exit Error Unit → Prop
  | field {f : Field} (valid : f.Valid) :
    Accepted host os φ (.field f) ⟨φ.depth, []⟩ (startHeaders φ.held ++ f.bytes) (f.write host os)
  | opened {id : Id} (room : φ.depth < maxDepth) :
    Accepted host os φ (.sequenceBeginLazy id) ⟨φ.depth + 1, φ.held ++ [id]⟩ []
      ({ os with depth := os.depth + 1, pending := os.pending.push id }, .ok ())
  | closed (nil : φ.held = []) :
    Accepted host os φ .sequenceEnd ⟨φ.depth - 1, []⟩ endMarker
      ((writeSequenceEndMarker >>= fun _ =>
        update fun os => { os with depth := os.depth - 1 }) os)
  | vanished {run : PendingRun} (holds : run.Holds φ.held.dropLast) :
    Accepted host os φ .sequenceEnd ⟨φ.depth - 1, φ.held.dropLast⟩ []
      ({ os with depth := os.depth - 1, pending := run }, .ok ())
  | kept :
    Accepted host os φ .sequenceEndKeep ⟨φ.depth - 1, []⟩ (startHeaders φ.held ++ endMarker)
      (((commitHeld >>= fun _ => writeSequenceEndMarker) >>= fun _ =>
        update fun os => { os with depth := os.depth - 1 }) os)

/-- A call that the framing accepts comes to one of these things. -/
theorem Call.write_accepted (host : Endian) {call : Call} (hframed : Framed os φ)
    (hemit : call.emit φ = .ok (φ', bytes)) :
    Accepted host os φ call φ' bytes (call.write host os) := by
  have hpending := hframed.pending
  cases Call.emitted hemit with
  | field hvalid => exact .field hvalid
  | opened hroom hid =>
    rw [write, writeSequenceBeginLazy, self_bind, hframed.depth,
      if_neg (Nat.not_le.mpr hroom), if_neg (Nat.not_lt.mpr hid)]
    exact .opened hroom
  | closed hopen hnil =>
    rw [hnil] at hpending
    rw [write, writeSequenceEnd, self_bind, hframed.depth, if_neg hopen, self_bind,
      hpending.pop_nil]
    exact .closed hnil
  | vanished hopen hheld =>
    rw [← List.dropLast_append_getLast hheld] at hpending
    obtain ⟨run, hpop, hrun⟩ := hpending.pop_concat
    rw [write, writeSequenceEnd, self_bind, hframed.depth, if_neg hopen, self_bind, hpop]
    exact .vanished hrun
  | kept hopen =>
    rw [write, writeSequenceEndKeep, self_bind, hframed.depth, if_neg hopen, ← Step.bind_assoc]
    exact .kept

/-- With none held back, a marker that is torn leaves a torn stream. -/
theorem torn_marker (hnil : φ.held = []) (hframed : Framed os ⟨φ.depth, []⟩) (os₁ : OStream)
    (hstopped : SameFraming os os₁ ∧ ∃ k, os₁.message = os.message ++ endMarker.take k) :
    Torn os φ os₁ := by
  obtain ⟨same, k, hmessage⟩ := hstopped
  refine torn_behind (endMarker.take k) (same.framed hframed) ?_
  rw [hnil]
  exact hmessage

/-- A call that the framing accepts emits the bytes that it says. -/
theorem Call.write_emits (host : Endian) {call : Call} (hsound : Sound os) (hframed : Framed os φ)
    (hemit : call.emit φ = .ok (φ', bytes)) :
    Emits os bytes (Framed · φ') (Torn os φ) (call.write host os) := by
  have hlawful := hframed.lawful
  have hlawful' := emit_lawful hlawful hemit
  have haccepted := call.write_accepted host hframed hemit
  generalize call.write host os = result at haccepted
  cases haccepted with
  | field hvalid => exact (Field.write_contents host hvalid).emits hsound hframed
  | opened hroom =>
    exact .ok (reached_framing hsound _ _) rfl ⟨hlawful', congrArg (· + 1) hframed.depth,
      hframed.pending.push (hlawful.held.trans_lt hroom)⟩
  | closed hnil =>
    have hnone : Framed os ⟨φ.depth, []⟩ :=
      ⟨hlawful.committed, hframed.depth, hnil ▸ hframed.pending⟩
    have hmarker := (writeSequenceEndMarker_performs.pushes os hsound).stopping.imp
      (fun _ same => same.framed hnone) (torn_marker hnil hnone)
    exact hmarker.reframe _ fun _ hsound' => closed_framed hlawful hsound'
  | vanished hrun =>
    exact .ok (reached_framing hsound _ _) rfl ⟨hlawful', congrArg (· - 1) hframed.depth, hrun⟩
  | kept =>
    have hmarker := endMarker_contents.emits hsound hframed
    exact hmarker.reframe _ fun _ hsound' => closed_framed hlawful hsound'

/-- Every writer call does what the framing says. -/
theorem Call.write_wrote (host : Endian) (call : Call) (hsound : Sound os) (hframed : Framed os φ) :
    Wrote os φ call (call.write host os) := by
  rcases hemit : call.emit φ with e | ⟨φ', bytes⟩
  · rw [Call.write_refused host hframed hemit]
    rw [Call.emit_error hemit] at hemit
    exact .refused hemit
  · exact .emitted hemit ((call.write_emits host hsound hframed hemit).imp (fun _ framed => framed)
      fun _ torn => torn.someFraming)

end Sofab
