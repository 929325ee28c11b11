import Sofab.RoundTrip

/-!
# Both ends have the same limits

The encoder checks identifiers, lengths, counts and the depth of sequences before it writes, and
the decoder checks them as it reads. They agree: a call is refused exactly when the bytes that it
stands for would be rejected. The one check that the encoder makes alone is that text is UTF-8.
-/

namespace Sofab

open Reading Reading.Reader Steps IStream

/-- A reader rejects some input. -/
def Refuses {α : Type} (r : WireReader α) (bs : List UInt8) : Prop :=
  ∃ notes, r bs = ⟨notes, .invalid⟩

section Rejecting

variable {α β : Type} {bs mid : List UInt8} {made : List Callback}

/-- What follows a rejection is not read. -/
theorem Refuses.bind {r : WireReader α} (h : Refuses r bs) (next : α → WireReader β) :
    Refuses (r >>= next) bs := by
  obtain ⟨notes, hread⟩ := h
  exact ⟨notes, bind_of_invalid hread next⟩

/-- A rejection behind what is read. -/
theorem Makes.refuses {r : WireReader α} {next : α → WireReader β} {a : α}
    (h : Makes r bs made a mid) (hnext : Refuses (next a) mid) : Refuses (r >>= next) bs := by
  obtain ⟨notes, hread, -⟩ := h
  obtain ⟨notes', hread'⟩ := hnext
  exact ⟨notes ++ notes', by rw [bind_of_done hread, hread']; rfl⟩

/-- A condition that fails rejects. -/
theorem refuses_demand {p : Prop} [Decidable p] (hp : ¬p) (next : Unit → WireReader β)
    (bs : List UInt8) : Refuses (demand p >>= next) bs := by
  rw [demand_of_neg hp, reject_bind]
  exact ⟨[], rfl⟩

/-- A rejection behind a condition that holds. -/
theorem Refuses.demand {p : Prop} [Decidable p] {next : Unit → WireReader β} (hp : p)
    (h : Refuses (next ()) bs) : Refuses (Reader.demand p >>= next) bs := by
  rw [demand_of_pos hp, pure_bind]
  exact h

/-- A word is read and then rejected, whatever follows, if it is too wide or the reader behind it
rejects. -/
theorem refuses_word {value : ℕ} {next : ℕ → WireReader β} {tail : List UInt8}
    (h : value < 2 ^ 64 → Refuses (next value) tail) :
    Refuses (word >>= next) (Leb128.encode value ++ tail) := by
  by_cases hvalue : value < 2 ^ 64
  · exact (makes_word hvalue tail).refuses (h hvalue)
  · have hread : readWord (Leb128.encode value ++ tail) = ⟨[], .invalid⟩ := by
      rw [readWord, Leb128.read_encode_overflow (Nat.le_of_not_lt hvalue)]
    exact Refuses.bind ⟨[], bind_of_invalid hread _⟩ next

/-- A field is refused if its id is out of range, or its head is refused behind a header in
range. -/
theorem refuses_readField {depth : ℕ} {id : Id} {wireType : ℕ} (htype : wireType < 8)
    (h : id.toNat ≤ idMax → Refuses (typedHead depth id wireType) bs) :
    Refuses (readField depth) (headerBytes id wireType ++ bs) := by
  have hheader : id.toNat * 8 + wireType < 2 ^ 64 := by
    have hlt := id.toNat_lt
    omega
  have hfield : Refuses (fieldHead depth (id.toNat * 8 + wireType)) bs := by
    by_cases hid : id.toNat ≤ idMax
    · rw [fieldHead_eq depth hid htype]
      exact h hid
    · refine refuses_demand ?_ _ bs
      omega
  exact ((makes_header hheader bs).refuses hfield).bind _

end Rejecting

/-! ## Fields -/

/-- The bytes that a text field is given are UTF-8. -/
def Field.IsText : Field → Prop
  | .fixlen _ data .str => OStream.isUtf8 data = true
  | _ => True

section Fields

variable {depth : ℕ} {id : Id} {tail : List UInt8}

/-- A payload that is too long, or not of the size of its subtype. -/
theorem refuses_fixlen {data : List UInt8} {subtype : FixlenType}
    (h : ¬(Sized data subtype ∧ data.length ≤ fixlenMax)) :
    Refuses (readField depth) (fixlenBytes id data subtype ++ tail) := by
  have htag : subtype.tag.toNat < 8 := by cases subtype <;> decide
  have hdiv : (data.length * 8 + subtype.tag.toNat) / 8 = data.length := by omega
  have hmod : (data.length * 8 + subtype.tag.toNat) % 8 = subtype.tag.toNat := by omega
  rw [fixlenBytes, List.append_assoc, List.append_assoc]
  refine refuses_readField (by decide) fun _ => refuses_word fun _ => ?_
  rw [hdiv, hmod]
  by_cases hlen : data.length ≤ fixlenMax
  · refine .demand hlen ?_
    have hsize : ¬Sized data subtype := fun hsize => h ⟨hsize, hlen⟩
    cases subtype with
    | fp32 => exact refuses_demand (p := data.length = 4) hsize _ _
    | fp64 => exact refuses_demand (p := data.length = 8) hsize _ _
    | str => exact absurd trivial hsize
    | blob => exact absurd trivial hsize
  · exact refuses_demand hlen _ _

/-- An array of too many integers. -/
theorem refuses_integers (signed : Bool) {values : List Unsigned} (h : ¬values.length ≤ arrayMax) :
    Refuses (readField depth) (integersBytes id (if signed then 4 else 3) values ++ tail) := by
  have hhead (tail : List UInt8) :
      Refuses (integersHead depth id signed) (Leb128.encode values.length ++ tail) :=
    refuses_word fun _ => refuses_demand h _ _
  rw [integersBytes, List.append_assoc, List.append_assoc]
  cases signed with
  | false => exact refuses_readField (by decide) fun _ => hhead _
  | true => exact refuses_readField (by decide) fun _ => hhead _

/-- An array of too many floats. -/
theorem refuses_floats {count : ℕ} (width : ℕ) (subtype : FixlenType) (data : List UInt8)
    (h : ¬count ≤ arrayMax) :
    Refuses (readField depth) (floatsBytes id count width subtype data ++ tail) := by
  rw [floatsBytes, List.append_assoc, List.append_assoc, List.append_assoc]
  exact refuses_readField (by decide) fun _ => refuses_word fun _ => refuses_demand h _ _

/-- The bytes of a field begin with a header of its identifier. -/
theorem Field.bytes_eq (f : Field) :
    ∃ wireType more, wireType < 8 ∧ f.bytes = headerBytes f.id wireType ++ more := by
  have hfixlen (id : Id) (data : List UInt8) (subtype : FixlenType) :
      ∃ wireType more, wireType < 8 ∧
        fixlenBytes id data subtype = headerBytes id wireType ++ more :=
    ⟨2, _, by decide, List.append_assoc ..⟩
  have hintegers (id : Id) (wireType : ℕ) (htype : wireType < 8) (values : List Unsigned) :
      ∃ wireType' more, wireType' < 8 ∧
        integersBytes id wireType values = headerBytes id wireType' ++ more :=
    ⟨wireType, _, htype, List.append_assoc ..⟩
  have hfloats (id : Id) (count width : ℕ) (subtype : FixlenType) (data : List UInt8) :
      ∃ wireType more, wireType < 8 ∧
        floatsBytes id count width subtype data = headerBytes id wireType ++ more := by
    refine ⟨5, Leb128.encode count ++ (Leb128.encode (width * 8 + subtype.tag.toNat) ++ data),
      by decide, ?_⟩
    simp [floatsBytes]
  cases f with
  | unsigned id value => exact ⟨0, _, by decide, rfl⟩
  | signed id value => exact ⟨1, _, by decide, rfl⟩
  | boolean id value => exact ⟨0, _, by decide, rfl⟩
  | fp32 id value => exact hfixlen id _ _
  | fp64 id value => exact hfixlen id _ _
  | str id text => exact hfixlen id _ _
  | blob id data => exact hfixlen id _ _
  | fixlen id data subtype => exact hfixlen id _ _
  | arrayUnsigned id data => exact hintegers id 3 (by decide) _
  | arraySigned id data => exact hintegers id 4 (by decide) _
  | arrayFp32 id data => exact hfloats id _ _ _ _
  | arrayFp64 id data => exact hfloats id _ _ _ _

/-- What the encoder refuses of a field is rejected by the decoder, or is no text. -/
theorem Field.refuses {f : Field} (htext : f.IsText) (hinvalid : ¬f.Valid) (tail : List UInt8) :
    Refuses (readField depth) (f.bytes ++ tail) := by
  by_cases hid : f.id.toNat ≤ idMax
  · have hfits : ¬f.Fits := fun hfits => hinvalid ⟨hid, hfits⟩
    cases f with
    | str id text => exact refuses_fixlen fun h => hfits h.2
    | blob id data => exact refuses_fixlen fun h => hfits h.2
    | fixlen id data subtype =>
      refine refuses_fixlen fun h => hfits ⟨?_, h.2⟩
      cases subtype with
      | fp32 => exact h.1
      | fp64 => exact h.1
      | str => exact htext
      | blob => trivial
    | arrayUnsigned id data =>
      exact refuses_integers false fun h => hfits (by rwa [List.length_map] at h)
    | arraySigned id data =>
      exact refuses_integers true fun h => hfits (by rwa [List.length_map] at h)
    | arrayFp32 id data => exact refuses_floats 4 .fp32 _ hfits
    | arrayFp64 id data => exact refuses_floats 8 .fp64 _ hfits
    | _ => exact absurd trivial hfits
  · obtain ⟨wireType, more, htype, hbytes⟩ := f.bytes_eq
    rw [hbytes, List.append_assoc]
    exact refuses_readField htype fun h => absurd h hid

end Fields

/-! ## Calls -/

/-- What a call is given for text is UTF-8. -/
def Call.IsText : Call → Prop
  | .field f => f.IsText
  | _ => True

/-- An allowed call writes strings that are text. -/
theorem Call.Allowed.isText {call : Call} {depth : ℕ} (h : call.Allowed depth) : call.IsText := by
  cases call with
  | field f =>
    cases f with
    | fixlen id data subtype =>
      cases subtype with
      | str => exact h.2.1
      | _ => trivial
    | _ => trivial
  | _ => trivial

/-- What the encoder refuses of a call is rejected by the decoder, or is no text. -/
theorem Call.refuses {call : Call} {depth : ℕ} (htext : call.IsText)
    (hrefused : ¬call.Allowed depth) (tail : List UInt8) :
    Refuses (readField depth) (call.wire ++ tail) := by
  have hend (hdepth : ¬depth ≠ 0) : Refuses (readField depth) (endMarker ++ tail) := by
    obtain rfl := not_not.mp hdepth
    exact ⟨_, rfl⟩
  cases call with
  | field f => exact Field.refuses htext hrefused tail
  | sequenceBeginLazy id =>
    refine refuses_readField (by decide) fun hid => refuses_demand ?_ _ tail
    exact fun hroom => hrefused ⟨hroom, hid⟩
  | sequenceEnd => exact hend hrefused
  | sequenceEndKeep => exact hend hrefused

/-- Calls are allowed as far as the decoder can tell when their bytes are not rejected. -/
theorem allowed_iff_not_rejected (cs : List Call) (depth : ℕ) :
    Allowed depth cs ↔ (readFields depth (cs.flatMap Call.wire)).outcome ≠ .invalid ∧
      ∀ call ∈ cs, call.IsText := by
  induction cs generalizing depth with
  | nil => simp [Allowed]
  | cons call cs ih =>
    rw [List.flatMap_cons, List.forall_mem_cons]
    by_cases hallowed : call.Allowed depth
    · obtain ⟨notes, hread, -⟩ := hallowed.makes (cs.flatMap Call.wire)
      rw [readFields, exhaust_of_done hread]
      exact ⟨fun h => ⟨((ih _).mp h.2).1, hallowed.isText, ((ih _).mp h.2).2⟩,
        fun h => ⟨hallowed, (ih _).mpr ⟨h.1, h.2.2⟩⟩⟩
    · refine ⟨fun h => absurd h.1 hallowed, fun h => ?_⟩
      obtain ⟨notes, hread⟩ := Call.refuses h.2.1 hallowed (cs.flatMap Call.wire)
      have hne : call.wire ++ cs.flatMap Call.wire ≠ [] := fun hnil => by
        rw [hnil, readField_nil] at hread
        cases hread
      rw [readFields, exhaust_of_invalid hne hread] at h
      exact absurd rfl h.1

/-- A call that goes through is allowed. -/
theorem Call.allowed_of_record {call : Call} {tape : Tape} (h : (call.record tape).2 = .ok ()) :
    call.Allowed tape.framing.depth := by
  rcases hemit : call.emit tape.framing with e | ⟨φ, bytes⟩
  · rw [record_error hemit] at h
    cases h
  · cases Call.emitted hemit with
    | field valid => exact valid
    | opened room inRange => exact ⟨room, inRange⟩
    | closed isOpen nil => exact isOpen
    | vanished isOpen held => exact isOpen
    | kept isOpen => exact isOpen

/-- The encoder lets calls through exactly when they are allowed. -/
theorem recorded_iff_allowed (cs : List Call) (tape : Tape) :
    (∀ exit ∈ (drive Call.record cs tape).2, exit = .ok ()) ↔
      Allowed tape.framing.depth cs := by
  induction cs generalizing tape with
  | nil => simp [Allowed]
  | cons call cs ih =>
    rw [drive_cons, List.forall_mem_cons]
    by_cases hallowed : call.Allowed tape.framing.depth
    · obtain ⟨hok, hdepth⟩ := hallowed.recorded
      rw [ih, hdepth]
      exact ⟨fun h => ⟨hallowed, h.2⟩, fun h => ⟨hok, h.2⟩⟩
    · exact ⟨fun h => absurd (Call.allowed_of_record h.1) hallowed, fun h => absurd h.1 hallowed⟩

/-- For every list of writer calls, the encoder refuses none of them exactly when the decoder does
not reject the bytes that they stand for and every text among them is UTF-8. -/
theorem refused_iff_rejected (host : Endian) (cs : List Call) :
    (∀ exit ∈ (unlimited host cs).2, exit = .ok ()) ↔
      (decode (cs.flatMap Call.wire)).result ≠ .error .invalidMsg ∧ ∀ call ∈ cs, call.IsText := by
  have hrejected (bs : List UInt8) : (decode bs).result ≠ .error .invalidMsg ↔
      (readFields 0 bs).outcome ≠ .invalid := by
    rw [decode_result, verdict, readMessage]
    cases (readFields 0 bs).outcome <;> simp
  rw [unlimited_reports, record, recorded_iff_allowed, hrejected]
  exact allowed_iff_not_rejected cs 0

end Sofab
