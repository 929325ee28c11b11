import Sofab.Generated.Reusing
import Sofab.Visitor

/-!
# Booleans

A boolean has no wire type of its own: it is an unsigned number, and an array of booleans one of
unsigned numbers. What the code generator emits to read it takes every number other than zero for
true, and what it emits to write it writes one.
-/

namespace Sofab.Generated

open IStream Steps Step OStream

/-- The destination of a boolean field, and what was seen besides. -/
structure BooleanField where
  id : Id
  dest : List Bool
  stored : ℕ
  overflowed : ℕ
  raw : List Unsigned
  announced : Option (ArrayKind × ℕ)
  foreign : ℕ
  deriving DecidableEq, Repr

namespace BooleanField

/-- A destination that holds the complement of what is expected. -/
def poisoned (id : Id) (expected : List Bool) : BooleanField :=
  ⟨id, expected.map (!·), 0, 0, [], none, 0⟩

/-- Keep the number, and store whether it is other than zero while there is a slot for it. -/
def unsigned (field : BooleanField) (id : Id) (value : Unsigned) : BooleanField :=
  if id ≠ field.id then { field with foreign := field.foreign + 1 }
  else
    let field := { field with raw := field.raw ++ [value] }
    if field.stored < field.dest.length then
      -- the number is tested, not masked into the destination
      { field with dest := field.dest.set field.stored (value != 0), stored := field.stored + 1 }
    else
      { field with overflowed := field.overflowed + 1 }

/-- An array for the field begins. -/
def arrayBegin (field : BooleanField) (id : Id) (kind : ArrayKind) (count : ℕ) : BooleanField :=
  if id ≠ field.id then { field with foreign := field.foreign + 1 }
  else { field with announced := some (kind, count) }

/-- What the field does not listen to counts as foreign. -/
def hears (field : BooleanField) : Callback → BooleanField
  | .unsigned id value => field.unsigned id value
  | .arrayBegin id kind count => field.arrayBegin id kind count
  -- not overridden
  | .fixlenBegin _ _ _ => field
  | _ => { field with foreign := field.foreign + 1 }

end BooleanField

/-- One boolean is written as a scalar, any other number of them as an array. -/
def writeBooleans (id : Id) : List Bool → EncodeM Unit
  | [value] => writeBoolean id value
  | values => writeArrayUnsigned id (values.map Bool.toUInt8)

/-- Encode booleans again, or panic. -/
def reencode (id : Id) (values : List Bool) : Option (List UInt8) :=
  let written : EncodeM ℕ := do
    writeBooleans id values
    flush
  match written (.new (List.replicate (16 + values.length) 0)) with
  | (os, .ok flushed) => if flushed = os.bytesUsed then some (os.buffer.take os.bytesUsed) else none
  | _ => none

/-! ## What is read -/

/-- The number that a callback brings for a field. -/
def numberOf (id : Id) : Callback → Option Unsigned
  | .unsigned id' value => if id' = id then some value else none
  | _ => none

/-- The numbers that callbacks bring for a field. -/
def numbers (id : Id) (cs : List Callback) : List Unsigned := cs.filterMap (numberOf id)

/-- A callback that a boolean field has no use for. -/
def Stray (id : Id) : Callback → Prop
  | .unsigned id' _ => id' ≠ id
  | .arrayBegin id' _ _ => id' ≠ id
  | .fixlenBegin _ _ _ => False
  | _ => True

/-- A destination with the booleans that some numbers are, from the first on. -/
def normalised (dest : List Bool) (values : List Unsigned) : List Bool :=
  (values.map (· != 0)).take dest.length ++ dest.drop values.length

/-- Normalising leaves the length of the destination as it is. -/
theorem length_normalised (dest : List Bool) (values : List Unsigned) :
    (normalised dest values).length = dest.length := by
  simp [normalised]
  omega

/-- One more number is stored behind the others, if there is room. -/
theorem normalised_append (dest : List Bool) (values : List Unsigned) (value : Unsigned) :
    normalised dest (values ++ [value]) =
      (normalised dest values).set values.length (value != 0) := by
  have hlen : (values.map (· != 0)).length = values.length := List.length_map _
  by_cases hroom : values.length < dest.length
  · have hbefore : normalised dest values = values.map (· != 0) ++ dest.drop values.length := by
      rw [normalised, List.take_of_length_le (by omega)]
    rw [hbefore, List.set_append_right _ _ hlen.le, hlen, Nat.sub_self,
      List.drop_eq_getElem_cons hroom, List.set_cons_zero]
    simp [normalised, List.take_of_length_le, Nat.succ_le_of_lt hroom]
  · have hfull : dest.length ≤ values.length := Nat.le_of_not_lt hroom
    rw [List.set_eq_of_length_le (by rwa [length_normalised])]
    simp [normalised, List.take_append_of_le_length, List.drop_eq_nil_of_le, hfull,
      Nat.le_succ_of_le hfull]

/-- What a callback announces of a field. -/
def announcementOf (id : Id) : Callback → Option (ArrayKind × ℕ)
  | .arrayBegin id' kind count => if id' = id then some (kind, count) else none
  | _ => none

namespace BooleanField

/-- What whole callbacks make of a destination, apart from how many were stray. -/
def after (own : Id) (start : List Bool) (cs : List Callback) (foreign : ℕ) : BooleanField where
  id := own
  dest := normalised start (numbers own cs)
  stored := min (numbers own cs).length start.length
  overflowed := (numbers own cs).length - start.length
  raw := numbers own cs
  announced := (cs.filterMap (announcementOf own)).getLast?
  foreign := foreign

variable {own : Id} {start : List Bool} {cs : List Callback} {foreign : ℕ}

/-- A callback that is no number and no announcement for the field leaves the rest as it is. -/
theorem after_quiet {c : Callback} (hnumber : numberOf own c = none)
    (hannounced : announcementOf own c = none) (start : List Bool) (cs : List Callback)
    (foreign : ℕ) : after own start (cs ++ [c]) foreign = after own start cs foreign := by
  simp [after, numbers, List.filterMap_append, hnumber, hannounced]

/-- A number for the field is stored, or overflows. -/
theorem unsigned_after (own : Id) (start : List Bool) (cs : List Callback) (foreign : ℕ)
    (value : Unsigned) : (after own start cs foreign).unsigned own value =
      after own start (cs ++ [.unsigned own value]) foreign := by
  have hnumbers : numbers own (cs ++ [.unsigned own value]) = numbers own cs ++ [value] := by
    simp [numbers, numberOf]
  have hannounced : (cs ++ [Callback.unsigned own value]).filterMap (announcementOf own) =
      cs.filterMap (announcementOf own) := by
    rw [List.filterMap_append, List.filterMap_cons_none rfl, List.filterMap_nil, List.append_nil]
  have hown : ¬own ≠ (after own start cs foreign).id := not_not.mpr rfl
  rw [unsigned, if_neg hown]
  simp only [after, hnumbers, hannounced, length_normalised, normalised_append, List.length_append,
    List.length_singleton]
  by_cases hroom : (numbers own cs).length < start.length
  · rw [Nat.min_eq_left hroom.le, if_pos hroom, Nat.min_eq_left (Nat.succ_le_of_lt hroom),
      Nat.sub_eq_zero_of_le hroom.le, Nat.sub_eq_zero_of_le (Nat.succ_le_of_lt hroom)]
  · have hfull : start.length ≤ (numbers own cs).length := Nat.le_of_not_lt hroom
    have hset : (normalised start (numbers own cs)).length ≤ (numbers own cs).length := by
      rwa [length_normalised]
    rw [Nat.min_eq_right hfull, if_neg (Nat.lt_irrefl _), Nat.min_eq_right (Nat.le_succ_of_le hfull),
      List.set_eq_of_length_le hset, Nat.sub_add_comm hfull]

/-- An announcement of the field replaces the one before. -/
theorem arrayBegin_after (own : Id) (start : List Bool) (cs : List Callback) (foreign : ℕ)
    (kind : ArrayKind) (count : ℕ) : (after own start cs foreign).arrayBegin own kind count =
      after own start (cs ++ [.arrayBegin own kind count]) foreign := by
  have hnumbers : numbers own (cs ++ [.arrayBegin own kind count]) = numbers own cs := by
    rw [numbers, List.filterMap_append, List.filterMap_cons_none rfl, List.filterMap_nil,
      List.append_nil, numbers]
  have hannounced : (cs ++ [Callback.arrayBegin own kind count]).filterMap (announcementOf own) =
      cs.filterMap (announcementOf own) ++ [(kind, count)] := by
    simp [announcementOf]
  have hown : ¬own ≠ (after own start cs foreign).id := not_not.mpr rfl
  rw [arrayBegin, if_neg hown]
  simp only [after, hnumbers, hannounced, List.getLast?_concat]

/-- A field is what whole callbacks make of it, and has met a stray one if there was one. -/
structure Heard (own : Id) (start : List Bool) (field : BooleanField) (cs : List Callback) :
    Prop where
  made : field = after own start cs field.foreign
  foreign : field.foreign = 0 ↔ ∀ c ∈ cs, ¬Stray own c

variable {field : BooleanField}

/-- A stray callback is only counted. -/
theorem Heard.stray (h : field = after own start cs field.foreign) {c : Callback}
    (hstray : Stray own c) (hnumber : numberOf own c = none)
    (hannounced : announcementOf own c = none) :
    Heard own start { field with foreign := field.foreign + 1 } (cs ++ [c]) where
  made := by
    rw [after_quiet hnumber hannounced, h]
    rfl
  foreign := iff_of_false (Nat.succ_ne_zero _) fun hall =>
    hall c (List.mem_append_right _ (List.mem_singleton_self c)) hstray

/-- Any other is what it brings for the field. -/
theorem Heard.kept (h : Heard own start field cs) {c : Callback} {field' : BooleanField}
    (hmade : field' = after own start (cs ++ [c]) field.foreign) (hown : ¬Stray own c) :
    Heard own start field' (cs ++ [c]) where
  made := by
    rw [hmade]
    rfl
  foreign := by
    rw [hmade]
    change field.foreign = 0 ↔ _
    simpa [or_imp, forall_and, hown] using h.foreign

/-- What is made of callbacks follows them one by one. -/
theorem Heard.hears (h : Heard own start field cs) (c : Callback) :
    Heard own start (field.hears c) (cs ++ [c]) := by
  cases c with
  | unsigned id value =>
    by_cases hid : id = own
    · subst hid
      refine h.kept ?_ (fun hstray => hstray rfl)
      rw [BooleanField.hears, h.made, unsigned_after]
      rfl
    · have hother : id ≠ field.id := by
        rw [h.made]
        exact hid
      rw [BooleanField.hears, unsigned, if_pos hother]
      exact Heard.stray h.made hid (if_neg hid) rfl
  | arrayBegin id kind count =>
    by_cases hid : id = own
    · subst hid
      refine h.kept ?_ (fun hstray => hstray rfl)
      rw [BooleanField.hears, h.made, arrayBegin_after]
      rfl
    · have hother : id ≠ field.id := by
        rw [h.made]
        exact hid
      rw [BooleanField.hears, arrayBegin, if_pos hother]
      exact Heard.stray h.made hid rfl (if_neg hid)
  | fixlenBegin id subtype total =>
    refine h.kept ?_ (fun hstray => hstray)
    rw [BooleanField.hears, after_quiet rfl rfl]
    exact h.made
  | _ => exact Heard.stray h.made trivial rfl rfl

/-- A payload is stray in pieces as in one. -/
theorem seamless : Seamless BooleanField.hears (fun cs c => cs ++ [c]) (Heard own start)
    fun _ _ _ _ field cs => field = after own start cs field.foreign ∧ field.foreign ≠ 0 where
  call h _ _ := h.hears _
  first {_ _ isBlob _ _ _} h _ _ := by
    cases isBlob <;> exact ⟨h.made ▸ rfl, Nat.succ_ne_zero _⟩
  next {_ _ isBlob _ _ _ _} held _ _ _ := by
    cases isBlob <;> exact ⟨held.1 ▸ rfl, Nat.succ_ne_zero _⟩
  last {_ _ isBlob _ _ _ _} held _ _ _ := by
    cases isBlob <;> exact Heard.stray held.1 trivial rfl rfl

/-- In whatever chunks the bytes come, a destination has what one-shot decoding gives it. -/
theorem heard_fed (id : Id) (expected : List Bool) (chunk : List UInt8) (rest : List (List UInt8)) :
    Heard id (expected.map (!·))
      (listen hears (poisoned id expected) (feedAll IStream.new chunk rest).calls)
      (decode (chunk :: rest).flatten).calls := by
  have hstart : Heard id (expected.map (!·)) (poisoned id expected) [] := by
    refine ⟨?_, by simp [poisoned]⟩
    simp [poisoned, after, numbers, normalised]
  have hfed := seamless.fed hstart chunk rest
  rwa [listen_snoc, List.nil_append] at hfed

end BooleanField

/-! ## What is written -/

/-- The field that booleans are written as. -/
def booleans (id : Id) : List Bool → Field
  | [value] => .boolean id value
  | values => .arrayUnsigned id (values.map Bool.toUInt8)

section Written

variable {id : Id} {values : List Bool}

/-- The booleans are written as an array of zeros and ones. -/
theorem writeBooleans_eq (id : Id) (values : List Bool) :
    writeBooleans id values = (booleans id values).write .little := by
  unfold writeBooleans booleans
  split <;> rfl

/-- An array of booleans is valid with an id in range and few enough of them. -/
theorem booleans_valid (hid : id.toNat ≤ idMax) (hlen : values.length ≤ arrayMax) :
    (booleans id values).Valid := by
  unfold booleans
  split
  · exact ⟨hid, trivial⟩
  · refine ⟨hid, ?_⟩
    change (values.map Bool.toUInt8).length ≤ arrayMax
    rwa [List.length_map]

/-- There is room for them. -/
theorem booleans_bytes_le (hid : id.toNat ≤ idMax) (hlen : values.length ≤ arrayMax) :
    (booleans id values).bytes.length ≤ 16 + values.length := by
  have hidMax : idMax = 2147483647 := rfl
  have harrayMax : arrayMax = 2147483647 := rfl
  have hheader (wireType : ℕ) (htype : wireType < 8) : (headerBytes id wireType).length ≤ 6 :=
    Leb128.encode_length_le 5 (by omega)
  have hbit (value : Bool) : (Leb128.encode (UnsignedElem.widen value.toUInt8).toNat).length ≤ 1 :=
    Leb128.encode_length_le 0 (by cases value <;> decide)
  unfold booleans
  split
  · next value =>
    have hvalue : (Leb128.encode value.toNat).length ≤ 1 :=
      Leb128.encode_length_le 0 (by cases value <;> decide)
    have hfirst := hheader 0 (by decide)
    rw [Field.bytes, List.length_append]
    omega
  · have hbits (values : List Bool) : (((values.map Bool.toUInt8).map UnsignedElem.widen).flatMap
        fun value => Leb128.encode value.toNat).length ≤ values.length := by
      induction values with
      | nil => exact Nat.le_refl 0
      | cons value values ih =>
        have hfirst := hbit value
        rw [List.map_cons, List.map_cons, List.flatMap_cons, List.length_append, List.length_cons]
        omega
    have hfirst := hheader 3 (by decide)
    have hcount : (Leb128.encode values.length).length ≤ 6 := Leb128.encode_length_le 5 (by omega)
    have hrest := hbits values
    rw [Field.bytes, integersBytes, List.length_append, List.length_append, List.length_map,
      List.length_map]
    omega

/-- Re-encoding booleans fits the buffer and writes them as an array, or as a scalar where there is
one. -/
theorem reencode_eq (hid : id.toNat ≤ idMax) (hlen : values.length ≤ arrayMax) :
    reencode id values = some (booleans id values).bytes := by
  have hvalid : (Message.field (booleans id values) .done).Valid :=
    ⟨booleans_valid hid hlen, trivial⟩
  have hencode : (Message.field (booleans id values) .done).prune.encode =
      (booleans id values).bytes := List.append_nil _
  have hopen : withOffset (List.replicate (16 + values.length) 0) 0 =
      .ok (.new (List.replicate (16 + values.length) 0)) := by
    rw [withOffset, checkOffsetInRange, if_pos (Nat.zero_le _)]
    rfl
  obtain ⟨hreports, hstored⟩ := Message.written .little hvalid (Nat.zero_le _) hopen (by
    rw [hencode, List.length_replicate]
    exact booleans_bytes_le hid hlen)
  rw [hencode, List.take_zero, List.nil_append] at hstored
  have hrun : inOrder (Call.write .little) [.field (booleans id values)]
      (.new (List.replicate (16 + values.length) 0)) =
        ((writeAll .little [.field (booleans id values)]
          (.new (List.replicate (16 + values.length) 0))).1, .ok ()) := by
    rw [inOrder_singleton]
    exact Prod.ext rfl (hreports _ List.mem_cons_self)
  have hwrite : writeBooleans id values =
      inOrder (Call.write .little) [.field (booleans id values)] := by
    rw [inOrder_singleton, writeBooleans_eq]
    rfl
  simp only [reencode, hwrite, bind_ok hrun, written_flush hrun, if_true]
  exact congrArg some hstored

/-- Encoded booleans are told as zeros and ones, and complete the message. -/
theorem booleans_told (hid : id.toNat ≤ idMax) (hlen : values.length ≤ arrayMax) :
    numbers id (decode (booleans id values).bytes).calls = values.map Bool.toUInt64 ∧
      (decode (booleans id values).bytes).result = .ok .complete := by
  have hbalanced : Balanced [.field (booleans id values)] :=
    ⟨⟨booleans_valid hid hlen, trivial⟩, rfl⟩
  obtain ⟨hcalls, hresult⟩ := hbalanced.decodes
  rw [List.flatMap_singleton] at hcalls hresult
  refine ⟨?_, hresult⟩
  change (decode (booleans id values).bytes).calls = _ at hcalls
  rw [hcalls, List.flatMap_singleton]
  unfold booleans
  split
  · next value => cases value <;> simp [Call.events, Field.events, numbers, numberOf]
  · have hnumbers (values : List Bool) : ((values.map Bool.toUInt8).map fun e =>
        Callback.unsigned id (UnsignedElem.widen e)).filterMap (numberOf id) =
          values.map Bool.toUInt64 := by
      induction values with
      | nil => rfl
      | cons value values ih =>
        have hfirst : numberOf id (.unsigned id (UnsignedElem.widen value.toUInt8)) =
            some value.toUInt64 := by
          cases value <;> exact if_pos rfl
        rw [List.map_cons, List.map_cons, List.filterMap_cons_some hfirst, ih, List.map_cons]
    exact hnumbers values

end Written

/-- Booleans that are zeros and ones are read as they were. -/
theorem normalised_booleans {dest values : List Bool} (hlen : values.length = dest.length) :
    normalised dest (values.map Bool.toUInt64) = values := by
  have hread : (values.map Bool.toUInt64).map (· != 0) = values := by
    rw [List.map_map]
    refine (List.map_congr_left fun value _ => ?_).trans (List.map_id values)
    cases value <;> rfl
  rw [normalised, hread, List.length_map, ← hlen, List.take_length, hlen, List.drop_length,
    List.append_nil]

/-- Tolerant on decode and canonical on encode: whatever the numbers of a field and however they
are spelled and cut into chunks, the destination holds for each whether it is other than zero, up
to its length, and keeps the rest. What it holds is encoded again as zeros and ones, and comes back
as it is. -/
theorem boolean_tolerant {id : Id} (hid : id.toNat ≤ idMax) {expected : List Bool}
    (hfits : expected.length ≤ arrayMax) (chunk : List UInt8) (rest : List (List UInt8)) :
    let field := listen BooleanField.hears (.poisoned id expected)
      (feedAll IStream.new chunk rest).calls
    let whole := (decode (chunk :: rest).flatten).calls
    field.dest = normalised (expected.map (!·)) (numbers id whole) ∧
      field.raw = numbers id whole ∧
      field.overflowed = (numbers id whole).length - expected.length ∧
      (field.foreign = 0 ↔ ∀ c ∈ whole, ¬Stray id c) ∧
      ∃ wire, reencode id field.dest = some wire ∧
        numbers id (decode wire).calls = field.dest.map Bool.toUInt64 ∧
        ∀ (chunk' : List UInt8) (rest' : List (List UInt8)), (chunk' :: rest').flatten = wire →
          (feedAll IStream.new chunk' rest').result = .ok .complete ∧
            (listen BooleanField.hears (.poisoned id expected)
              (feedAll IStream.new chunk' rest').calls).dest = field.dest := by
  intro field whole
  have hheard : BooleanField.Heard id (expected.map (!·)) field whole :=
    BooleanField.heard_fed id expected chunk rest
  have hlen : field.dest.length = expected.length := by
    rw [hheard.made]
    exact (length_normalised _ _).trans (List.length_map _)
  have hdest : field.dest.length ≤ arrayMax := hlen.trans_le hfits
  obtain ⟨htold, hcomplete⟩ := booleans_told hid hdest
  refine ⟨congrArg BooleanField.dest hheard.made, congrArg BooleanField.raw hheard.made, ?_,
    hheard.foreign, _, reencode_eq hid hdest, htold, fun chunk' rest' hwire => ?_⟩
  · have hoverflowed := congrArg BooleanField.overflowed hheard.made
    rwa [BooleanField.after, List.length_map] at hoverflowed
  · have hagain := BooleanField.heard_fed id expected chunk' rest'
    rw [hwire] at hagain
    refine ⟨?_, ?_⟩
    · rw [(feedAll_new_reads chunk' rest').1, hwire, ← decode_result]
      exact hcomplete
    · rw [hagain.made]
      change normalised (expected.map (!·)) (numbers id _) = field.dest
      rw [htold]
      exact normalised_booleans (hlen.trans (List.length_map _).symm)

/-- Numbers that are no canonical booleans, one of them overlong and torn. -/
theorem boolean_tolerant_overlong :
    ∃ wire, reencode 4 [true, false, true] = some wire ∧
      numbers 4 (decode wire).calls = [1, 0, 1] := by
  have hlaw := @boolean_tolerant 4 (by decide) [true, false, true] (by decide)
    [0x23, 0x03, 0x80] [[0x02, 0x80], [0x00, 0x05]]
  have hdest : (listen BooleanField.hears (.poisoned 4 [true, false, true])
      (feedAll IStream.new [0x23, 0x03, 0x80] [[0x02, 0x80], [0x00, 0x05]]).calls).dest =
        [true, false, true] := by decide +kernel
  simp only [hdest] at hlaw
  obtain ⟨-, -, -, -, wire, hwire, hnumbers, -⟩ := hlaw
  exact ⟨wire, hwire, hnumbers⟩

end Sofab.Generated
