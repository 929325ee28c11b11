import Sofab.Lib.Monitor
import Sofab.Payload

/-!
# What a visitor can rely on

A visitor is told a field at a time. An announcement owes it the payload from its beginning, in
pieces without a gap, or that many elements of that kind; nothing else comes before these are
there. Sequences nest, and no callback has an argument that the format does not allow.

A session is how far a visitor is in this. Whatever bytes a decoder is fed, in whatever chunks,
no callback is out of turn, and a complete message brings the session back to where it began.
-/

namespace Sofab

open Reading Reading.Reader IStream

/-- What a visitor is owed of the field it was told of last: nothing, the rest of a payload, or
an element and some later ones. -/
inductive Owed
  | nothing
  | payload (isBlob : Bool) (id : Id) (total offset : ℕ)
  | integers (signed : Bool) (id : Id) (later : ℕ)
  | floats (fp64 : Bool) (id : Id) (later : ℕ)
  deriving DecidableEq, Repr

namespace Owed

/-- Some integer elements. -/
def ofIntegers (signed : Bool) (id : Id) : ℕ → Owed
  | 0 => nothing
  | n + 1 => integers signed id n

/-- Some float elements. -/
def ofFloats (fp64 : Bool) (id : Id) : ℕ → Owed
  | 0 => nothing
  | n + 1 => floats fp64 id n

/-- A payload of which some bytes were delivered. -/
def ofPayload (isBlob : Bool) (id : Id) (total offset : ℕ) : Owed :=
  if offset = total then nothing else payload isBlob id total offset

/-- What the announcement of a fixlen field owes, if its length fits its subtype. -/
def ofFixlen (id : Id) (total : ℕ) : FixlenType → Option Owed
  | .fp32 => if total = 4 then some (floats false id 0) else none
  | .fp64 => if total = 8 then some (floats true id 0) else none
  | .str => some (payload false id total 0)
  | .blob => some (payload true id total 0)

/-- What the announcement of an array owes. -/
def ofArray (id : Id) (count : ℕ) : ArrayKind → Owed
  | .unsigned => ofIntegers false id count
  | .signed => ofIntegers true id count
  | .fp32 => ofFloats false id count
  | .fp64 => ofFloats true id count

/-- An integer is a field of its own or the next element. -/
def integer (signed : Bool) (id : Id) : Owed → Option Owed
  | nothing => if id.toNat ≤ idMax then some nothing else none
  | integers signed' id' later =>
    if signed' = signed ∧ id' = id then some (ofIntegers signed id later) else none
  | _ => none

/-- A float was announced, or is the next element. -/
def float (fp64 : Bool) (id : Id) : Owed → Option Owed
  | floats fp64' id' later =>
    if fp64' = fp64 ∧ id' = id then some (ofFloats fp64 id later) else none
  | _ => none

/-- A piece of a payload begins where the last one ended, and is empty only if the payload is. -/
def piece (isBlob : Bool) (id : Id) (total offset : ℕ) (chunk : List UInt8) : Owed → Option Owed
  | payload isBlob' id' total' offset' =>
    if (isBlob' = isBlob ∧ id' = id ∧ total' = total ∧ offset' = offset) ∧
        (chunk = [] → total = 0) ∧ offset + chunk.length ≤ total then
      some (ofPayload isBlob id total (offset + chunk.length))
    else
      none
  | _ => none

/-- What the body of a field owes. -/
def ofBody : Resume → Owed
  | .none => nothing
  | .payload id isBlob total remaining => payload isBlob id total (total - remaining)
  | .arrayInt id signed remaining => ofIntegers signed id remaining
  | .arrayFix id fp64 remaining => ofFloats fp64 id remaining

end Owed

/-- How far a visitor is: the open sequences, and what it is owed. -/
structure Session where
  depth : ℕ
  owed : Owed
  deriving DecidableEq, Repr

namespace Session

/-- Between two messages. -/
def start : Session := ⟨0, .nothing⟩

/-- Where a callback takes a session, unless it is out of turn. -/
def hears (s : Session) : Callback → Option Session
  | .unsigned id _ => (s.owed.integer false id).map (Session.mk s.depth)
  | .signed id _ => (s.owed.integer true id).map (Session.mk s.depth)
  | .fp32 id _ => (s.owed.float false id).map (Session.mk s.depth)
  | .fp64 id _ => (s.owed.float true id).map (Session.mk s.depth)
  | .string id total offset chunk =>
    (s.owed.piece false id total offset chunk).map (Session.mk s.depth)
  | .blob id total offset chunk =>
    (s.owed.piece true id total offset chunk).map (Session.mk s.depth)
  | .fixlenBegin id subtype total =>
    if s.owed = .nothing ∧ id.toNat ≤ idMax ∧ total ≤ fixlenMax then
      (Owed.ofFixlen id total subtype).map (Session.mk s.depth)
    else
      none
  | .arrayBegin id kind count =>
    if s.owed = .nothing ∧ id.toNat ≤ idMax ∧ count ≤ arrayMax then
      some ⟨s.depth, .ofArray id count kind⟩
    else
      none
  | .sequenceBegin id =>
    if s.owed = .nothing ∧ id.toNat ≤ idMax ∧ s.depth < maxDepth then some ⟨s.depth + 1, .nothing⟩
    else none
  | .sequenceEnd =>
    if s.owed = .nothing ∧ 0 < s.depth then some ⟨s.depth - 1, .nothing⟩ else none

/-- A session goes over notes by the callbacks among them. -/
def noted (s : Session) : Note → Option Session
  | .call c => s.hears c
  | _ => some s

variable {s s' : Session} {depth : ℕ} {id : Id}

/-- Going over notes is going over the callbacks among them. -/
theorem heed_noted (s : Session) (notes : List Note) :
    heed noted s notes = heed hears s (calls notes) := by
  induction notes generalizing s with
  | nil => rfl
  | cons note notes ih =>
    cases note with
    | call c =>
      rw [calls_call, heed_cons, heed_cons]
      exact congrArg _ (funext ih)
    | _ => exact ih s

/-- An integer is either a field of its own or an element that is owed. -/
@[simp] theorem hears_integer (signed : Bool) (id : Id) (value : Unsigned) :
    s.hears (.integer signed id value) = (s.owed.integer signed id).map (Session.mk s.depth) := by
  cases signed <;> rfl

/-- A float is the value of a fixlen field or an element that is owed. -/
@[simp] theorem hears_float (fp64 : Bool) (id : Id) (bytes : List UInt8) :
    s.hears (.float fp64 id bytes) = (s.owed.float fp64 id).map (Session.mk s.depth) := by
  cases fp64 <;> rfl

/-- A piece of a payload goes toward the payload that is owed. -/
@[simp] theorem hears_payload (isBlob : Bool) (id : Id) (total offset : ℕ) (chunk : List UInt8) :
    s.hears (.payload isBlob id total offset chunk) =
      (s.owed.piece isBlob id total offset chunk).map (Session.mk s.depth) := by
  cases isBlob <;> rfl

/-! ## Bodies -/

/-- Reading a varint leaves a session where it is. -/
theorem upholds_readWord (s : Session) : Upholds noted s readWord fun _ => s := by
  intro bs
  refine ⟨s, ?_, fun _ _ _ => rfl⟩
  rw [readWord]
  split <;> rfl

/-- A varint leaves a session where it is if its note is none that a session hears. -/
theorem upholds_notedWord (s : Session) {spelled : List UInt8 → ℕ → Note}
    (h : ∀ spelling value, s.noted (spelled spelling value) = some s) :
    Upholds noted s (notedWord spelled) fun _ => s :=
  (upholds_readWord s).bind fun _ => .behind_note (h _ _) (upholds_pure (f := fun _ => s) _)

/-- A varint noted as it is spelled leaves a session where it is. -/
theorem upholds_word (s : Session) : Upholds noted s word fun _ => s :=
  upholds_notedWord s fun _ _ => rfl

/-- A header leaves a session where it is. -/
theorem upholds_header (s : Session) : Upholds noted s header fun _ => s := by
  refine upholds_notedWord s fun spelling h => ?_
  rw [headerNote]
  split <;> rfl

/-- Bytes taken as they are leave a session where it is. -/
theorem upholds_rawBytes (s : Session) (n : ℕ) : Upholds noted s (rawBytes n) fun _ => s := by
  intro bs
  refine ⟨s, ?_, fun _ _ _ => rfl⟩
  rw [rawBytes]
  split <;> rfl

/-- Integer elements are told one after the other. -/
theorem upholds_integers (depth : ℕ) (id : Id) (signed : Bool) (n : ℕ) :
    Upholds noted ⟨depth, .ofIntegers signed id n⟩ (integers id signed n)
      fun _ => ⟨depth, .nothing⟩ := by
  induction n with
  | zero => exact upholds_pure (f := fun _ => (⟨depth, .nothing⟩ : Session)) ()
  | succ n ih =>
    refine (upholds_word _).bind fun value => .behind_note ?_ ih
    exact (hears_integer ..).trans (by simp [Owed.ofIntegers, Owed.integer])

/-- Float elements are told one after the other. -/
theorem upholds_floats (depth : ℕ) (id : Id) (fp64 : Bool) (n : ℕ) :
    Upholds noted ⟨depth, .ofFloats fp64 id n⟩ (floats id fp64 n) fun _ => ⟨depth, .nothing⟩ := by
  induction n with
  | zero => exact upholds_pure (f := fun _ => (⟨depth, .nothing⟩ : Session)) ()
  | succ n ih =>
    refine (upholds_rawBytes _ _).bind fun value => .behind_note ?_ ih
    exact (hears_float ..).trans (by simp [Owed.ofFloats, Owed.float])

/-- A payload is told from its beginning, as far as it is there. -/
theorem upholds_payload (depth : ℕ) (id : Id) (isBlob : Bool) (total : ℕ) :
    Upholds noted ⟨depth, .payload isBlob id total 0⟩ (payload id isBlob total total)
      fun _ => ⟨depth, .nothing⟩ := by
  have hheard {chunk : List UInt8} (hempty : chunk = [] → total = 0) (hlen : chunk.length ≤ total) :
      heed noted ⟨depth, .payload isBlob id total 0⟩
        [.raw chunk, .call (.payload isBlob id total (total - total) chunk)] =
          some ⟨depth, .ofPayload isBlob id total chunk.length⟩ := by
    rw [Nat.sub_self, heed_cons_of_some rfl]
    refine heed_cons_of_some ((hears_payload ..).trans ?_) []
    simpa [Owed.piece, hlen] using hempty
  intro bs
  rw [payload]
  split
  · next hle =>
    have hlen : (bs.take total).length = total := List.length_take_of_le hle
    refine ⟨_, hheard (fun hnil => ?_) hlen.le, fun _ _ _ => by rw [hlen, Owed.ofPayload, if_pos rfl]⟩
    rw [← hlen, hnil]
    rfl
  · next hlt =>
    split
    · exact ⟨_, rfl, fun _ _ h => by cases h⟩
    · next hne =>
      exact ⟨_, hheard (fun hnil => absurd hnil hne) (Nat.le_of_not_le hlt), fun _ _ h => by cases h⟩

/-- A body is what its head owes. -/
theorem upholds_readBody (depth : ℕ) {body : Resume} (hfresh : Fresh body) :
    Upholds noted ⟨depth, .ofBody body⟩ (readBody body) fun _ => ⟨depth, .nothing⟩ := by
  cases body with
  | none => exact upholds_pure (f := fun _ => (⟨depth, .nothing⟩ : Session)) ()
  | payload id isBlob total remaining =>
    obtain rfl : remaining = total := hfresh
    rw [Owed.ofBody, Nat.sub_self]
    exact upholds_payload depth id isBlob remaining
  | arrayInt id signed remaining => exact upholds_integers depth id signed remaining
  | arrayFix id fp64 remaining => exact upholds_floats depth id fp64 remaining

/-! ## Heads -/

/-- Where a head leaves a session. -/
def ofHead (a : ℕ × Resume) : Session := ⟨a.1, .ofBody a.2⟩

/-- Behind an announcement a session is owed the body it asks for. -/
theorem upholds_announce {call : Callback} {body : Resume}
    (h : s.hears call = some ⟨depth, .ofBody body⟩) :
    Upholds noted s (announce depth call body) ofHead := by
  have hnoted : s.noted (.call call) = some ⟨depth, .ofBody body⟩ := h
  exact .behind_note hnoted (upholds_pure (f := ofHead) (depth, body))

/-- The head of a fixlen field announces in turn, with a valid id. -/
theorem upholds_fixlenHead (depth : ℕ) (hid : id.toNat ≤ idMax) :
    Upholds noted ⟨depth, .nothing⟩ (fixlenHead depth id) ofHead := by
  refine (upholds_word _).bind fun w => upholds_demand fun hlen => ?_
  have hannounce {subtype : FixlenType} {body : Resume}
      (howed : Owed.ofFixlen id (w / 8) subtype = some (.ofBody body)) :
      Upholds noted ⟨depth, .nothing⟩ (announce depth (.fixlenBegin id subtype (w / 8)) body)
        ofHead := by
    refine upholds_announce ?_
    rw [hears, if_pos ⟨rfl, hid, hlen⟩, howed]
    rfl
  split
  · exact upholds_demand fun hwidth => hannounce (if_pos hwidth)
  · exact upholds_demand fun hwidth => hannounce (if_pos hwidth)
  · exact hannounce (by simp [Owed.ofFixlen, Owed.ofBody])
  · exact hannounce (by simp [Owed.ofFixlen, Owed.ofBody])
  · exact upholds_reject

/-- An array of an allowed count is announced in turn. -/
theorem upholds_arrayBegin (depth : ℕ) (hid : id.toNat ≤ idMax) {kind : ArrayKind} {count : ℕ}
    (hcount : count ≤ arrayMax) {body : Resume} (howed : Owed.ofArray id count kind = .ofBody body) :
    Upholds noted ⟨depth, .nothing⟩ (announce depth (.arrayBegin id kind count) body) ofHead := by
  refine upholds_announce ?_
  rw [hears, if_pos ⟨rfl, hid, hcount⟩, howed]

/-- The head of an integer array announces in turn. -/
theorem upholds_integersHead (depth : ℕ) (hid : id.toNat ≤ idMax) (signed : Bool) :
    Upholds noted ⟨depth, .nothing⟩ (integersHead depth id signed) ofHead := by
  refine (upholds_word _).bind fun count => upholds_demand fun hcount => ?_
  refine upholds_arrayBegin depth hid hcount ?_
  cases signed <;> rfl

/-- The head of a float array announces in turn. -/
theorem upholds_floatsHead (depth : ℕ) (hid : id.toNat ≤ idMax) :
    Upholds noted ⟨depth, .nothing⟩ (floatsHead depth id) ofHead := by
  refine (upholds_word _).bind fun count => upholds_demand fun hcount => ?_
  refine (upholds_word _).bind fun w => ?_
  rw [floatsOf]
  split
  · exact upholds_arrayBegin depth hid hcount rfl
  · exact upholds_arrayBegin depth hid hcount rfl
  · exact upholds_reject

/-- A head announces a field when nothing is owed. -/
theorem upholds_readHead (depth : ℕ) : Upholds noted ⟨depth, .nothing⟩ (readHead depth) ofHead := by
  refine (upholds_header _).bind fun h => upholds_demand fun hid => ?_
  have hidMax : idMax < 2 ^ 32 := by decide
  have hlegal : (UInt32.ofNat (h / 8)).toNat ≤ idMax := by
    rw [UInt32.toNat_ofNat_of_lt' (hid.trans_lt hidMax)]
    exact hid
  generalize UInt32.ofNat (h / 8) = id at hlegal
  unfold typedHead
  split
  · exact (upholds_word _).bind fun _ =>
      upholds_announce (by simp [hears, Owed.integer, hlegal, Owed.ofBody])
  · exact (upholds_word _).bind fun _ =>
      upholds_announce (by simp [hears, Owed.integer, hlegal, Owed.ofBody])
  · exact upholds_fixlenHead depth hlegal
  · exact upholds_integersHead depth hlegal false
  · exact upholds_integersHead depth hlegal true
  · exact upholds_floatsHead depth hlegal
  · exact upholds_demand fun hroom => upholds_announce (if_pos ⟨rfl, hlegal, hroom⟩)
  · exact upholds_demand fun hopen => upholds_announce (if_pos ⟨rfl, hopen⟩)

/-! ## Messages -/

/-- A field that is read whole leaves nothing owed. -/
theorem upholds_readField (depth : ℕ) :
    Upholds noted ⟨depth, .nothing⟩ (readField depth) fun depth => ⟨depth, .nothing⟩ :=
  (upholds_readHead depth).bind_of_returning (returning_readHead depth) fun a hfresh =>
    (upholds_readBody a.1 hfresh).bind fun _ =>
      upholds_pure (f := fun depth => (⟨depth, .nothing⟩ : Session)) a.1

/-- No callback of a reading is out of turn, and at the end of its fields nothing is owed. -/
theorem heed_readFields (depth : ℕ) (bs : List UInt8) :
    ∃ s, heed hears ⟨depth, .nothing⟩ (calls (readFields depth bs).notes) = some s ∧
      ∀ depth' rest, (readFields depth bs).outcome = .done depth' rest → s = ⟨depth', .nothing⟩ := by
  obtain ⟨s, hall, hdone⟩ := exhaust_upholds upholds_readField depth bs
  exact ⟨s, (heed_noted _ _).symm.trans hall, hdone⟩

/-- A piece of a payload is in turn only where the payload was announced and told so far. -/
theorem owed_of_hears {isBlob : Bool} {total offset : ℕ} {chunk : List UInt8}
    (h : s.hears (.payload isBlob id total offset chunk) = some s') :
    s.owed = .payload isBlob id total offset ∧ (chunk = [] → total = 0) ∧
      offset + chunk.length ≤ total ∧
      s' = ⟨s.depth, .ofPayload isBlob id total (offset + chunk.length)⟩ := by
  rw [hears_payload] at h
  obtain ⟨owed, hpiece, rfl⟩ := Option.map_eq_some_iff.mp h
  cases howed : s.owed with
  | payload isBlob' id' total' offset' =>
    rw [howed, Owed.piece] at hpiece
    split at hpiece
    · next hturn =>
      obtain ⟨⟨rfl, rfl, rfl, rfl⟩, hempty, hfits⟩ := hturn
      cases hpiece
      exact ⟨rfl, hempty, hfits, rfl⟩
    · cases hpiece
  | _ =>
    rw [howed] at hpiece
    cases hpiece

/-- A piece at the offset that is owed, and within the total, is heard in turn. -/
theorem hears_of_owed {isBlob : Bool} {total offset : ℕ} {chunk : List UInt8}
    (howed : s.owed = .payload isBlob id total offset) (hempty : chunk = [] → total = 0)
    (hfits : offset + chunk.length ≤ total) :
    s.hears (.payload isBlob id total offset chunk) =
      some ⟨s.depth, .ofPayload isBlob id total (offset + chunk.length)⟩ := by
  rw [hears_payload, howed, Owed.piece, if_pos ⟨⟨rfl, rfl, rfl, rfl⟩, hempty, hfits⟩]
  rfl

/-- A payload that is in turn is so piece by piece. -/
theorem hears_split {isBlob : Bool} {total offset : ℕ} {chunk chunk' : List UInt8}
    (hne : chunk ≠ []) (hne' : chunk' ≠ [])
    (h : s.hears (.payload isBlob id total offset (chunk ++ chunk')) = some s') :
    ∃ s₁, s.hears (.payload isBlob id total offset chunk) = some s₁ ∧
      s₁.hears (.payload isBlob id total (offset + chunk.length) chunk') = some s' := by
  obtain ⟨howed, -, hfits, rfl⟩ := owed_of_hears h
  have hpos := List.length_pos_iff.mpr hne'
  rw [List.length_append] at hfits ⊢
  have hmore : offset + chunk.length ≠ total := by omega
  refine ⟨_, hears_of_owed howed (fun hnil => absurd hnil hne) (by omega), ?_⟩
  rw [hears_of_owed (if_neg hmore) (fun hnil => absurd hnil hne') (by omega), Nat.add_assoc]

/-- Behind a piece that is not the last one some bytes are left. -/
theorem ne_nil_of_hears {isBlob : Bool} {total offset : ℕ} {chunk chunk' : List UInt8}
    (hne : chunk ≠ []) (hproper : Proper (.payload isBlob id total (offset + chunk.length) chunk'))
    (h : s.hears (.payload isBlob id total offset (chunk ++ chunk')) = some s') : chunk' ≠ [] := by
  obtain ⟨-, -, hfits, -⟩ := owed_of_hears h
  have hpos := List.length_pos_iff.mpr hne
  intro hnil
  have hzero := proper_payload.mp hproper hnil
  rw [List.length_append] at hfits
  omega

/-- Where a whole payload is in turn its pieces are. -/
theorem heed_joined {run whole : List Callback} (h : Joined run whole)
    (hwhole : heed hears s whole = some s') : heed hears s run = some s' := by
  induction h generalizing s with
  | nil => exact hwhole
  | call _ _ ih =>
    obtain ⟨s₁, hfirst, hrest⟩ := exists_of_heed_cons hwhole
    rw [heed_cons_of_some hfirst]
    exact ih hrest
  | @piece isBlob id total offset chunk chunk' run whole hne hjoined ih =>
    obtain ⟨s₂, hall, hrest⟩ := exists_of_heed_cons hwhole
    have hrest' := ne_nil_of_hears hne (hjoined.whole_proper _ List.mem_cons_self) hall
    obtain ⟨s₁, hfirst, hsecond⟩ := hears_split hne hrest' hall
    rw [heed_cons_of_some hfirst]
    exact ih ((heed_cons_of_some hsecond _).trans hrest)

end Session

/-- Whatever a decoder is fed, in whatever chunks, no callback is out of turn. Once the message is
complete the visitor is owed nothing and every sequence it was told of is closed. -/
theorem visitor_never_misled (chunk : List UInt8) (rest : List (List UInt8)) :
    ∃ s, heed Session.hears .start (feedAll IStream.new chunk rest).calls = some s ∧
      ((feedAll IStream.new chunk rest).result = .ok .complete → s = .start) := by
  obtain ⟨hresult, hjoined⟩ := feedAll_new_reads chunk rest
  obtain ⟨s, hheard, hdone⟩ := Session.heed_readFields 0 (chunk :: rest).flatten
  refine ⟨s, Session.heed_joined hjoined hheard, fun hcomplete => ?_⟩
  rw [hcomplete, verdict] at hresult
  split at hresult
  · next depth bs houtcome =>
    have hs := hdone depth bs houtcome
    split at hresult
    · next hzero => rw [hs, hzero]; rfl
    · cases hresult
  · cases hresult
  · cases hresult

end Sofab
