import Sofab.Events
import Sofab.Session

/-!
# The contract of a visitor is exact

Not only is no callback out of turn: every list of callbacks that is in turn, tells each payload
in one piece and comes back to where it began is what some message decodes to. A visitor can
rely on the contract, and on nothing beyond it.
-/

namespace Sofab

open Reading Reading.Reader

/-! ## Turns -/

/-- The turns of a session. -/
inductive Heard : Session → Callback → Session → Prop
  | number {depth : ℕ} (signed : Bool) {id : Id} (value : Unsigned) (legal : id.toNat ≤ idMax) :
    Heard ⟨depth, .nothing⟩ (.integer signed id value) ⟨depth, .nothing⟩
  | fixlen {depth : ℕ} {id : Id} {subtype : FixlenType} {total : ℕ} {owed : Owed}
    (legal : id.toNat ≤ idMax) (bounded : total ≤ fixlenMax)
    (owes : Owed.ofFixlen id total subtype = some owed) :
    Heard ⟨depth, .nothing⟩ (.fixlenBegin id subtype total) ⟨depth, owed⟩
  | array {depth : ℕ} {id : Id} (kind : ArrayKind) {count : ℕ} (legal : id.toNat ≤ idMax)
    (bounded : count ≤ arrayMax) :
    Heard ⟨depth, .nothing⟩ (.arrayBegin id kind count) ⟨depth, .ofArray id count kind⟩
  | opened {depth : ℕ} {id : Id} (legal : id.toNat ≤ idMax) (room : depth < maxDepth) :
    Heard ⟨depth, .nothing⟩ (.sequenceBegin id) ⟨depth + 1, .nothing⟩
  | closed {depth : ℕ} (isOpen : 0 < depth) :
    Heard ⟨depth, .nothing⟩ .sequenceEnd ⟨depth - 1, .nothing⟩
  | piece {depth : ℕ} {isBlob : Bool} {id : Id} {total offset : ℕ} {chunk : List UInt8}
    (proper : chunk = [] → total = 0) (fits : offset + chunk.length ≤ total) :
    Heard ⟨depth, .payload isBlob id total offset⟩ (.payload isBlob id total offset chunk)
      ⟨depth, .ofPayload isBlob id total (offset + chunk.length)⟩
  | integer {depth : ℕ} {signed : Bool} {id : Id} {later : ℕ} (value : Unsigned) :
    Heard ⟨depth, .integers signed id later⟩ (.integer signed id value)
      ⟨depth, .ofIntegers signed id later⟩
  | float {depth : ℕ} {fp64 : Bool} {id : Id} {later : ℕ} {bytes : List UInt8}
    (width : bytes.length = elemLen fp64) :
    Heard ⟨depth, .floats fp64 id later⟩ (.float fp64 id bytes) ⟨depth, .ofFloats fp64 id later⟩

namespace Session

variable {s s' : Session} {id : Id}

/-- An integer that a session hears is one of its turns. -/
theorem heard_integer {signed : Bool} {value : Unsigned}
    (h : s.hears (.integer signed id value) = some s') : Heard s (.integer signed id value) s' := by
  obtain ⟨depth, owed⟩ := s
  rw [hears_integer] at h
  obtain ⟨owed', howed, rfl⟩ := Option.map_eq_some_iff.mp h
  cases owed with
  | nothing =>
    rw [Owed.integer] at howed
    split at howed
    · next hid =>
      cases howed
      exact .number signed value hid
    · cases howed
  | integers signed' id' later =>
    rw [Owed.integer] at howed
    split at howed
    · next hturn =>
      obtain ⟨rfl, rfl⟩ := hturn
      cases howed
      exact .integer value
    · cases howed
  | payload => cases howed
  | floats => cases howed

/-- A float of its width that a session hears is one of its turns. -/
theorem heard_float {fp64 : Bool} {bytes : List UInt8} (hwidth : bytes.length = elemLen fp64)
    (h : s.hears (.float fp64 id bytes) = some s') : Heard s (.float fp64 id bytes) s' := by
  obtain ⟨depth, owed⟩ := s
  rw [hears_float] at h
  obtain ⟨owed', howed, rfl⟩ := Option.map_eq_some_iff.mp h
  cases owed with
  | floats fp64' id' later =>
    rw [Owed.float] at howed
    split at howed
    · next hturn =>
      obtain ⟨rfl, rfl⟩ := hturn
      cases howed
      exact .float hwidth
    · cases howed
  | _ => cases howed

/-- A piece of a payload that a session hears is one of its turns. -/
theorem heard_payload {isBlob : Bool} {total offset : ℕ} {chunk : List UInt8}
    (h : s.hears (.payload isBlob id total offset chunk) = some s') :
    Heard s (.payload isBlob id total offset chunk) s' := by
  obtain ⟨depth, owed⟩ := s
  obtain ⟨howed, hproper, hfits, rfl⟩ := owed_of_hears h
  obtain rfl : owed = .payload isBlob id total offset := howed
  exact .piece hproper hfits

/-- A callback in turn takes one of the turns. -/
theorem heard {c : Callback} (h : s.hears c = some s') : Heard s c s' := by
  cases c with
  | unsigned id value => exact @heard_integer _ _ _ false _ h
  | signed id value =>
    have hturn := @heard_integer s s' id true (zigzagEncode value)
    rw [Callback.integer, if_pos rfl, zigzagDecode_encode] at hturn
    exact hturn h
  | fp32 id value =>
    have hturn := @heard_float s s' id false (Digits.leBytes 4 value.toNat) (Digits.leBytes_length 4 _)
    rw [float_f32] at hturn
    exact hturn h
  | fp64 id value =>
    have hturn := @heard_float s s' id true (Digits.leBytes 8 value.toNat) (Digits.leBytes_length 8 _)
    rw [float_f64] at hturn
    exact hturn h
  | string id total offset chunk => exact @heard_payload _ _ _ false _ _ _ h
  | blob id total offset chunk => exact @heard_payload _ _ _ true _ _ _ h
  | fixlenBegin id subtype total =>
    obtain ⟨depth, owed⟩ := s
    rw [hears] at h
    split at h
    · next hturn =>
      obtain ⟨rfl, hid, hlen⟩ := hturn
      obtain ⟨owed', howed, rfl⟩ := Option.map_eq_some_iff.mp h
      exact .fixlen hid hlen howed
    · cases h
  | arrayBegin id kind count =>
    obtain ⟨depth, owed⟩ := s
    rw [hears] at h
    split at h
    · next hturn =>
      obtain ⟨rfl, hid, hcount⟩ := hturn
      cases h
      exact .array kind hid hcount
    · cases h
  | sequenceBegin id =>
    obtain ⟨depth, owed⟩ := s
    rw [hears] at h
    split at h
    · next hturn =>
      obtain ⟨rfl, hid, hroom⟩ := hturn
      cases h
      exact .opened hid hroom
    · cases h
  | sequenceEnd =>
    obtain ⟨depth, owed⟩ := s
    rw [hears] at h
    split at h
    · next hturn =>
      obtain ⟨rfl, hopen⟩ := hturn
      cases h
      exact .closed hopen
    · cases h

end Session

/-! ## A message for every script -/

/-- The body that is owed. -/
def Owed.body : Owed → Resume
  | .nothing => .none
  | .payload isBlob id total offset => .payload id isBlob total (total - offset)
  | .integers signed id later => .arrayInt id signed (later + 1)
  | .floats fp64 id later => .arrayFix id fp64 (later + 1)

/-- Some bytes tell a visitor what it is owed and then the fields of the rest, and leave `depth'`
sequences open. -/
def Scripted (s : Session) (cs : List Callback) (depth' : ℕ) : Prop :=
  ∃ bs mid made more, Makes (readBody s.owed.body) bs made () mid ∧
    Makes (readFields s.depth) mid more depth' [] ∧ cs = made ++ more

section Scripts

variable {depth depth₁ depth' : ℕ} {id : Id} {bs mid tail : List UInt8} {made more : List Callback}
  {cs : List Callback}

/-- A field is told in front of the fields behind it. -/
theorem Scripted.behind_head {c : Callback} {owed : Owed} {body : Resume}
    (h : Scripted ⟨depth₁, owed⟩ cs depth') (howed : readBody owed.body = readBody body)
    (hhead : ∀ tail, ∃ bs, Makes (readHead depth) bs [c] (depth₁, body) tail) :
    Scripted ⟨depth, .nothing⟩ (c :: cs) depth' := by
  obtain ⟨bs, mid, made, more, ⟨first, hbody, rfl⟩, ⟨second, hfields, rfl⟩, rfl⟩ := h
  rw [howed] at hbody
  obtain ⟨whole, notes, hread, hcall⟩ := hhead bs
  refine ⟨whole, whole, [], c :: (calls first ++ calls second), makes_pure () whole,
    ⟨notes ++ (first ++ second), ?_, ?_⟩, rfl⟩
  · rw [readFields_of_head hread, readRest_of_done hbody, hfields]
    simp [Report.after]
  · rw [calls_append, calls_append, hcall]
    rfl

/-- What is owed is told in front of the fields. -/
theorem Scripted.behind_body {c : Callback} {owed owed' : Owed}
    (h : Scripted ⟨depth, owed'⟩ cs depth')
    (hbody : ∀ bs made mid, Makes (readBody owed'.body) bs made () mid →
      ∃ bs', Makes (readBody owed.body) bs' (c :: made) () mid) :
    Scripted ⟨depth, owed⟩ (c :: cs) depth' := by
  obtain ⟨bs, mid, made, more, hrest, hfields, rfl⟩ := h
  obtain ⟨bs', hall⟩ := hbody bs made mid hrest
  exact ⟨bs', mid, c :: made, more, hall, hfields, rfl⟩

/-- The body of an array. -/
def arrayBody (id : Id) (count : ℕ) : ArrayKind → Resume
  | .unsigned => .arrayInt id false count
  | .signed => .arrayInt id true count
  | .fp32 => .arrayFix id false count
  | .fp64 => .arrayFix id true count

/-- Integers that are owed are read as elements. -/
theorem readBody_ofIntegers (signed : Bool) (id : Id) (n : ℕ) :
    readBody (Owed.ofIntegers signed id n).body = integers id signed n := by
  cases n <;> rfl

/-- Floats that are owed are read as elements. -/
theorem readBody_ofFloats (fp64 : Bool) (id : Id) (n : ℕ) :
    readBody (Owed.ofFloats fp64 id n).body = floats id fp64 n := by
  cases n <;> rfl

/-- The elements of an announced array are read as its body. -/
theorem readBody_ofArray (id : Id) (count : ℕ) (kind : ArrayKind) :
    readBody (Owed.ofArray id count kind).body = readBody (arrayBody id count kind) := by
  cases kind with
  | unsigned => exact readBody_ofIntegers false id count
  | signed => exact readBody_ofIntegers true id count
  | fp32 => exact readBody_ofFloats false id count
  | fp64 => exact readBody_ofFloats true id count

/-- The head of a number that is a field of its own. -/
theorem makes_numberHead (depth : ℕ) (signed : Bool) (value : Unsigned) (hid : id.toNat ≤ idMax)
    (tail : List UInt8) :
    ∃ bs, Makes (readHead depth) bs [.integer signed id value] (depth, .none) tail := by
  have hword := makes_word value.toNat_lt tail
  cases signed with
  | false =>
    refine ⟨_, makes_readHead 0 hid (by decide) (.next hword ?_)⟩
    rw [UInt64.ofNat_toNat]
    exact makes_announce _ _ _ tail
  | true =>
    refine ⟨_, makes_readHead 1 hid (by decide) (.next hword ?_)⟩
    rw [UInt64.ofNat_toNat]
    exact makes_announce _ _ _ tail

/-- The head of a fixlen field that owes something. -/
theorem makes_owingHead (depth : ℕ) {subtype : FixlenType} {total : ℕ} {owed : Owed}
    (hid : id.toNat ≤ idMax) (hlen : total ≤ fixlenMax)
    (howes : Owed.ofFixlen id total subtype = some owed) (tail : List UInt8) :
    ∃ bs, Makes (readHead depth) bs [.fixlenBegin id subtype total] (depth, owed.body) tail := by
  have hdata : (List.replicate total (0 : UInt8)).length = total := List.length_replicate
  have hsized : Sized (List.replicate total 0) subtype ∧ fixlenBody id total subtype = owed.body := by
    cases subtype with
    | fp32 =>
      rw [Owed.ofFixlen] at howes
      split at howes
      · next hwidth =>
        cases howes
        exact ⟨hdata.trans hwidth, rfl⟩
      · cases howes
    | fp64 =>
      rw [Owed.ofFixlen] at howes
      split at howes
      · next hwidth =>
        cases howes
        exact ⟨hdata.trans hwidth, rfl⟩
      · cases howes
    | str =>
      cases howes
      exact ⟨trivial, rfl⟩
    | blob =>
      cases howes
      exact ⟨trivial, rfl⟩
  have hhead := makes_fixlenHead depth id (hdata.trans_le hlen) hsized.1 tail
  rw [hdata, hsized.2] at hhead
  exact ⟨_, makes_readHead 2 hid (by decide) hhead⟩

/-- The head of an array. -/
theorem makes_arrayHead (depth : ℕ) (kind : ArrayKind) {count : ℕ} (hid : id.toNat ≤ idMax)
    (hcount : count ≤ arrayMax) (tail : List UInt8) :
    ∃ bs, Makes (readHead depth) bs [.arrayBegin id kind count] (depth, arrayBody id count kind)
      tail := by
  have hmax : arrayMax = 2147483647 := rfl
  have hword (tail : List UInt8) := makes_word (by omega : count < 2 ^ 64) tail
  cases kind with
  | unsigned =>
    exact ⟨_, makes_readHead 3 hid (by decide)
      (.next (hword tail) (.demand hcount (makes_announce _ _ _ tail)))⟩
  | signed =>
    exact ⟨_, makes_readHead 4 hid (by decide)
      (.next (hword tail) (.demand hcount (makes_announce _ _ _ tail)))⟩
  | fp32 =>
    exact ⟨_, makes_readHead 5 hid (by decide) (.next (hword _) (.demand hcount
      (.next (makes_word (show 32 < 2 ^ 64 by decide) tail) (makes_announce _ _ _ tail))))⟩
  | fp64 =>
    exact ⟨_, makes_readHead 5 hid (by decide) (.next (hword _) (.demand hcount
      (.next (makes_word (show 65 < 2 ^ 64 by decide) tail) (makes_announce _ _ _ tail))))⟩

/-- A payload in the middle is told by a callback that does not start it. -/
theorem offset_eq_zero {isBlob : Bool} {total offset : ℕ}
    (h : heed Session.hears ⟨depth, .payload isBlob id total offset⟩ cs = some ⟨depth', .nothing⟩)
    (hstart : ∀ c ∈ cs, FromStart c) : offset = 0 := by
  cases cs with
  | nil => cases h
  | cons c cs =>
    obtain ⟨s₁, hfirst, -⟩ := exists_of_heed_cons h
    cases Session.heard hfirst with
    | piece => exact fromStart_payload.mp (hstart _ List.mem_cons_self)

/-- Every list of callbacks that is in turn and tells each payload in one piece is told by some
bytes. -/
theorem scripted {s : Session} (h : heed Session.hears s cs = some ⟨depth', .nothing⟩)
    (hstart : ∀ c ∈ cs, FromStart c) : Scripted s cs depth' := by
  induction cs generalizing s with
  | nil =>
    cases h
    exact ⟨[], [], [], [], makes_pure () [], ⟨[], readFields_nil _, rfl⟩, rfl⟩
  | cons c cs ih =>
    obtain ⟨s₁, hfirst, hlater⟩ := exists_of_heed_cons h
    obtain ⟨hc, hcs⟩ := List.forall_mem_cons.mp hstart
    have hrest := ih hlater hcs
    cases Session.heard hfirst with
    | number signed value hid =>
      exact hrest.behind_head rfl (makes_numberHead _ signed value hid)
    | fixlen hid hlen howes => exact hrest.behind_head rfl (makes_owingHead _ hid hlen howes)
    | array kind hid hcount =>
      exact hrest.behind_head (readBody_ofArray _ _ kind) (makes_arrayHead _ kind hid hcount)
    | @opened depth id hid hroom =>
      refine hrest.behind_head (show readBody _ = readBody .none from rfl) fun tail => ?_
      exact ⟨_, makes_readHead 6 hid (by decide) (.demand hroom (makes_announce _ _ _ tail))⟩
    | @closed depth hopen =>
      refine hrest.behind_head (show readBody _ = readBody .none from rfl) fun tail => ?_
      exact ⟨_, makes_readHead 7 (show (0 : Id).toNat ≤ idMax by decide) (by decide)
        (.demand hopen (makes_announce _ _ _ tail))⟩
    | @piece depth isBlob id total offset chunk hproper hfits =>
      obtain rfl : offset = 0 := fromStart_payload.mp hc
      rw [Nat.zero_add] at hfits hlater hrest
      have hall : chunk.length = total := by
        by_contra hshort
        rw [Owed.ofPayload, if_neg hshort] at hlater
        have hzero := offset_eq_zero hlater hcs
        exact hshort (hzero.trans (hproper (List.length_eq_zero_iff.mp hzero)).symm)
      subst hall
      rw [Owed.ofPayload, if_pos rfl] at hrest
      refine hrest.behind_body fun bs made mid hmade => ⟨chunk ++ bs, ?_⟩
      obtain ⟨notes, hread, rfl⟩ := hmade
      cases hread
      exact makes_payload id isBlob chunk bs
    | @integer depth signed id later value =>
      refine hrest.behind_body fun bs made mid hmade => ?_
      rw [readBody_ofIntegers] at hmade
      refine ⟨_, .next (makes_word value.toNat_lt bs) ?_⟩
      rw [UInt64.ofNat_toNat]
      exact .cons hmade
    | @float depth fp64 id later bytes hwidth =>
      refine hrest.behind_body fun bs made mid hmade => ?_
      rw [readBody_ofFloats] at hmade
      have hraw := makes_rawBytes bytes bs
      rw [hwidth] at hraw
      exact ⟨_, .next hraw (.cons hmade)⟩

end Scripts

/-- A list of callbacks is what some complete message decodes to exactly when no callback of it is
out of turn, no payload of it is in pieces, and it comes back to where it began. -/
theorem visitor_contract_exact (cs : List Callback) :
    (∃ bs, (decode bs).calls = cs ∧ (decode bs).result = .ok .complete) ↔
      heed Session.hears .start cs = some .start ∧ ∀ c ∈ cs, FromStart c := by
  constructor
  · rintro ⟨bs, rfl, hcomplete⟩
    obtain ⟨s, hheard, hdone⟩ := Session.heed_readFields 0 bs
    have hcalls : (decode bs).calls = calls (readFields 0 bs).notes := decode_calls bs
    rw [hcalls]
    refine ⟨?_, fun c hc => (readFields_whole 0 bs c hc).2⟩
    rw [decode_result, verdict] at hcomplete
    split at hcomplete
    · next depth rest houtcome =>
      have hs := hdone depth rest houtcome
      split at hcomplete
      · next hzero =>
        rw [hs, hzero] at hheard
        exact hheard
      · cases hcomplete
    · cases hcomplete
    · cases hcomplete
  · rintro ⟨hheard, hstart⟩
    obtain ⟨bs, mid, made, more, ⟨first, hbody, rfl⟩, ⟨second, hfields, rfl⟩, rfl⟩ :=
      scripted hheard hstart
    cases hbody
    have hread : readMessage bs = ⟨second, .done 0 []⟩ := hfields
    refine ⟨bs, (decode_calls bs).trans ?_, (decode_result bs).trans ?_⟩
    · rw [hread]
      rfl
    · rw [verdict, hread]
      rfl

end Sofab
