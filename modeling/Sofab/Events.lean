import Sofab.Completion
import Sofab.Message

/-!
# What a message says

The events of a writer call are the callbacks that a decoder owes for its canonical bytes.
The reference reading makes exactly those, field by field, whatever follows.
-/

namespace Sofab

open Reading Reading.Reader

/-- The callback for a float of which the payload is given. -/
def fixlenEvents (id : Id) (data : List UInt8) (subtype : FixlenType) : List Callback :=
  .fixlenBegin id subtype data.length ::
    match subtype with
    | .fp32 => [.float false id data]
    | .fp64 => [.float true id data]
    | .str => [.string id data.length 0 data]
    | .blob => [.blob id data.length 0 data]

/-- The events of a field. -/
def Field.events : Field → List Callback
  | .unsigned id value => [.unsigned id value]
  | .signed id value => [.signed id value]
  | .boolean id value => [.unsigned id value.toUInt64]
  | .fp32 id value => [.fixlenBegin id .fp32 4, .fp32 id value]
  | .fp64 id value => [.fixlenBegin id .fp64 8, .fp64 id value]
  | .str id text => fixlenEvents id text.toUTF8.data.toList .str
  | .blob id data => fixlenEvents id data .blob
  | .fixlen id data subtype => fixlenEvents id data subtype
  | @Field.arrayUnsigned _ _ id data =>
    .arrayBegin id .unsigned data.length :: data.map fun e => .unsigned id (UnsignedElem.widen e)
  | @Field.arraySigned _ _ id data =>
    .arrayBegin id .signed data.length :: data.map fun e => .signed id (SignedElem.widen e)
  | .arrayFp32 id data => .arrayBegin id .fp32 data.length :: data.map (.fp32 id)
  | .arrayFp64 id data => .arrayBegin id .fp64 data.length :: data.map (.fp64 id)

/-- The events of a call, if it is not dropped. -/
def Call.events : Call → List Callback
  | .field f => f.events
  | .sequenceBeginLazy id => [.sequenceBegin id]
  | .sequenceEnd => [.sequenceEnd]
  | .sequenceEndKeep => [.sequenceEnd]

/-- The canonical bytes of a call, if it is not dropped. -/
def Call.wire : Call → List UInt8
  | .field f => f.bytes
  | .sequenceBeginLazy id => startHeader id
  | .sequenceEnd => endMarker
  | .sequenceEndKeep => endMarker

/-- A reader makes callbacks and finishes on some input. -/
def Makes {α : Type} (r : WireReader α) (bs : List UInt8) (made : List Callback) (a : α)
    (tail : List UInt8) : Prop :=
  ∃ notes, r bs = ⟨notes, .done a tail⟩ ∧ calls notes = made

section Making

variable {α β : Type} {bs mid tail : List UInt8} {made more : List Callback}

/-- Readings in a row make their callbacks one after the other. -/
theorem Makes.bind {r : WireReader α} {next : α → WireReader β} {a : α} {b : β}
    (h : Makes r bs made a mid) (hnext : Makes (next a) mid more b tail) :
    Makes (r >>= next) bs (made ++ more) b tail := by
  obtain ⟨notes, hread, rfl⟩ := h
  obtain ⟨notes', hread', rfl⟩ := hnext
  refine ⟨notes ++ notes', ?_, calls_append _ _⟩
  rw [bind_of_done hread, hread']
  rfl

/-- What makes no callback does not show. -/
theorem Makes.next {r : WireReader α} {next : α → WireReader β} {a : α} {b : β}
    (h : Makes r bs [] a mid) (hnext : Makes (next a) mid made b tail) :
    Makes (r >>= next) bs made b tail :=
  h.bind hnext

/-- A callback in front of others. -/
theorem Makes.cons {c : Callback} {next : Unit → WireReader β} {b : β}
    (hnext : Makes (next ()) bs made b tail) :
    Makes (note (.call c) >>= next) bs (c :: made) b tail := by
  obtain ⟨notes, hread, rfl⟩ := hnext
  refine ⟨.call c :: notes, ?_, rfl⟩
  rw [note_bind_apply, hread]
  rfl

/-- A condition that holds does not show. -/
theorem Makes.demand {p : Prop} [Decidable p] {next : Unit → WireReader β} {b : β} (hp : p)
    (hnext : Makes (next ()) bs made b tail) : Makes (Reader.demand p >>= next) bs made b tail := by
  rw [demand_of_pos hp, pure_bind]
  exact hnext

/-- Reading nothing makes no callback. -/
theorem makes_pure (a : α) (bs : List UInt8) : Makes (pure a : WireReader α) bs [] a bs :=
  ⟨[], rfl, rfl⟩

/-- The shortest spelling of a varint is read back, and no callback is made. -/
theorem makes_word {value : ℕ} (hvalue : value < 2 ^ 64) (tail : List UInt8) :
    Makes word (Leb128.encode value ++ tail) [] value tail :=
  ⟨_, notedWord_encode _ hvalue tail, rfl⟩

/-- An announcement makes its callback. -/
theorem makes_announce (depth : ℕ) (call : Callback) (body : Resume) (bs : List UInt8) :
    Makes (announce depth call body) bs [call] (depth, body) bs :=
  .cons (makes_pure _ bs)

/-- The shortest spelling of a header is read back, and no callback is made. -/
theorem makes_header {h : ℕ} (hh : h < 2 ^ 64) (tail : List UInt8) :
    Makes header (Leb128.encode h ++ tail) [] h tail := by
  refine ⟨_, notedWord_encode _ hh tail, ?_⟩
  rw [headerNote]
  split <;> rfl

/-! ## Bodies -/

/-- A payload that is there as a whole is told in one callback. -/
theorem makes_payload (id : Id) (isBlob : Bool) (data tail : List UInt8) :
    Makes (payload id isBlob data.length data.length) (data ++ tail)
      [.payload isBlob id data.length 0 data] () tail := by
  have hread := @payload_of_le id isBlob data.length data.length (data ++ tail) (by simp)
  rw [List.take_left, List.drop_left, Nat.sub_self] at hread
  exact ⟨_, hread, rfl⟩

/-- Bytes taken as they are make no callback. -/
theorem makes_rawBytes (data tail : List UInt8) :
    Makes (rawBytes data.length) (data ++ tail) [] data tail := by
  have hread := @rawBytes_of_le data.length (data ++ tail) (by simp)
  rw [List.take_left, List.drop_left] at hread
  exact ⟨_, hread, rfl⟩

/-- The elements of an integer array are told one by one. -/
theorem makes_integers (id : Id) (signed : Bool) (values : List Unsigned) (tail : List UInt8) :
    Makes (integers id signed values.length)
      (values.flatMap (fun value => Leb128.encode value.toNat) ++ tail)
      (values.map (.integer signed id)) () tail := by
  induction values with
  | nil => exact makes_pure () tail
  | cons value values ih =>
    rw [List.flatMap_cons, List.append_assoc, List.length_cons, List.map_cons, integers]
    refine .next (makes_word value.toNat_lt _) ?_
    rw [UInt64.ofNat_toNat]
    exact .cons ih

/-- The elements of a float array are told one by one. -/
theorem makes_floats (id : Id) (fp64 : Bool) {payloads : List (List UInt8)} (tail : List UInt8)
    (hlen : ∀ data ∈ payloads, data.length = elemLen fp64) :
    Makes (floats id fp64 payloads.length) (payloads.flatten ++ tail)
      (payloads.map (.float fp64 id)) () tail := by
  induction payloads with
  | nil => exact makes_pure () tail
  | cons data payloads ih =>
    obtain ⟨hfirst, hrest⟩ := List.forall_mem_cons.mp hlen
    rw [List.flatten_cons, List.append_assoc, List.length_cons, List.map_cons, floats, ← hfirst]
    exact .next (makes_rawBytes data _) (.cons (ih hrest))

/-! ## Fixlen fields -/

/-- A payload is as long as a subtype asks for. -/
def Sized (data : List UInt8) : FixlenType → Prop
  | .fp32 => data.length = 4
  | .fp64 => data.length = 8
  | _ => True

/-- The body that the head of a fixlen field asks for. -/
def fixlenBody (id : Id) (len : ℕ) : FixlenType → Resume
  | .fp32 => .arrayFix id false 1
  | .fp64 => .arrayFix id true 1
  | .str => .payload id false len len
  | .blob => .payload id true len len

/-- The head of a fixlen field announces its subtype and its length. -/
theorem makes_fixlenHead (depth : ℕ) (id : Id) {data : List UInt8} {subtype : FixlenType}
    (hlen : data.length ≤ fixlenMax) (hsized : Sized data subtype) (tail : List UInt8) :
    Makes (fixlenHead depth id) (Leb128.encode (data.length * 8 + subtype.tag.toNat) ++ tail)
      [.fixlenBegin id subtype data.length] (depth, fixlenBody id data.length subtype) tail := by
  have hmax : fixlenMax = 2147483647 := rfl
  have htag : subtype.tag.toNat < 8 := by cases subtype <;> decide
  have hdiv : (data.length * 8 + subtype.tag.toNat) / 8 = data.length := by omega
  have hmod : (data.length * 8 + subtype.tag.toNat) % 8 = subtype.tag.toNat := by omega
  refine .next (makes_word (by omega) tail) ?_
  rw [hdiv, hmod]
  refine .demand hlen ?_
  cases subtype with
  | fp32 => exact .demand hsized (makes_announce _ _ _ _)
  | fp64 => exact .demand hsized (makes_announce _ _ _ _)
  | str => exact makes_announce _ _ _ _
  | blob => exact makes_announce _ _ _ _

/-- The body of a fixlen field is told as its subtype has it. -/
theorem makes_fixlenBody (id : Id) {data : List UInt8} {subtype : FixlenType}
    (hsized : Sized data subtype) (tail : List UInt8) :
    Makes (readBody (fixlenBody id data.length subtype)) (data ++ tail)
      (fixlenEvents id data subtype).tail () tail := by
  have hone (fp64 : Bool) (hsize : data.length = elemLen fp64) :
      Makes (floats id fp64 1) (data ++ tail) [.float fp64 id data] () tail := by
    have hfloats := @makes_floats id fp64 [data] tail (by simpa using hsize)
    rwa [List.flatten_cons, List.flatten_nil, List.append_nil] at hfloats
  cases subtype with
  | fp32 => exact hone false hsized
  | fp64 => exact hone true hsized
  | str => exact makes_payload id false data tail
  | blob => exact makes_payload id true data tail

/-! ## Fields -/

/-- A header with a legal id is followed by the head of its wire type. -/
theorem fieldHead_eq (depth : ℕ) {id : Id} {wireType : ℕ} (hid : id.toNat ≤ idMax)
    (htype : wireType < 8) :
    fieldHead depth (id.toNat * 8 + wireType) = typedHead depth id wireType := by
  have hdiv : (id.toNat * 8 + wireType) / 8 = id.toNat := by omega
  have hmod : (id.toNat * 8 + wireType) % 8 = wireType := by omega
  rw [fieldHead, hdiv, hmod, demand_of_pos hid, pure_bind, UInt32.ofNat_toNat]

/-- The head of a field is its header and what its wire type asks for. -/
theorem makes_readHead {depth depth' : ℕ} {id : Id} {body : Resume} (wireType : ℕ)
    (hid : id.toNat ≤ idMax) (htype : wireType < 8)
    (hhead : Makes (typedHead depth id wireType) bs made (depth', body) tail) :
    Makes (readHead depth) (headerBytes id wireType ++ bs) made (depth', body) tail := by
  have hheader : id.toNat * 8 + wireType < 2 ^ 64 := by
    have hlt := id.toNat_lt
    omega
  rw [← fieldHead_eq depth hid htype] at hhead
  exact .next (makes_header hheader bs) hhead

/-- A field is its header, its head and its body. -/
theorem makes_readField {depth depth' : ℕ} {id : Id} {body : Resume} (wireType : ℕ)
    (hid : id.toNat ≤ idMax) (htype : wireType < 8)
    (hhead : Makes (typedHead depth id wireType) bs made (depth', body) mid)
    (hbody : Makes (readBody body) mid more () tail) :
    Makes (readField depth) (headerBytes id wireType ++ bs) (made ++ more) depth' tail := by
  have hlast : Makes (readBody body >>= fun _ => pure depth') mid (more ++ []) depth' tail :=
    hbody.bind (makes_pure depth' tail)
  rw [List.append_nil] at hlast
  exact (makes_readHead wireType hid htype hhead).bind hlast

section Fielding

variable {id : Id} (hid : id.toNat ≤ idMax) (depth : ℕ) (tail : List UInt8)

include hid

/-- A written unsigned value is told as it is. -/
theorem makes_unsigned (value : Unsigned) :
    Makes (readField depth) (headerBytes id 0 ++ Leb128.encode value.toNat ++ tail)
      [.unsigned id value] depth tail := by
  have hhead : Makes (typedHead depth id 0) (Leb128.encode value.toNat ++ tail)
      [.unsigned id value] (depth, .none) tail := by
    refine .next (makes_word value.toNat_lt tail) ?_
    rw [UInt64.ofNat_toNat]
    exact makes_announce _ _ _ tail
  rw [List.append_assoc]
  exact makes_readField 0 hid (by decide) hhead (makes_pure () tail)

/-- A written signed value is told as it is, its zigzag undone. -/
theorem makes_signed (value : Signed) :
    Makes (readField depth) (headerBytes id 1 ++ Leb128.encode (zigzagEncode value).toNat ++ tail)
      [.signed id value] depth tail := by
  have hhead : Makes (typedHead depth id 1) (Leb128.encode (zigzagEncode value).toNat ++ tail)
      [.signed id value] (depth, .none) tail := by
    refine .next (makes_word (zigzagEncode value).toNat_lt tail) ?_
    rw [UInt64.ofNat_toNat, zigzagDecode_encode]
    exact makes_announce _ _ _ tail
  rw [List.append_assoc]
  exact makes_readField 1 hid (by decide) hhead (makes_pure () tail)

/-- A fixlen field whose payload is as long as its subtype asks for. -/
theorem makes_fixlen {data : List UInt8} {subtype : FixlenType} (hlen : data.length ≤ fixlenMax)
    (hsized : Sized data subtype) :
    Makes (readField depth) (fixlenBytes id data subtype ++ tail) (fixlenEvents id data subtype)
      depth tail := by
  rw [fixlenBytes, List.append_assoc, List.append_assoc]
  exact makes_readField 2 hid (by decide) (makes_fixlenHead depth id hlen hsized (data ++ tail))
    (makes_fixlenBody id hsized tail)

/-- An integer array of the given wire values. -/
theorem makes_integerArray (signed : Bool) {values : List Unsigned}
    (hlen : values.length ≤ arrayMax) :
    Makes (readField depth) (integersBytes id (if signed then 4 else 3) values ++ tail)
      (.arrayBegin id (if signed then .signed else .unsigned) values.length ::
        values.map (.integer signed id)) depth tail := by
  have hmax : arrayMax = 2147483647 := rfl
  have hhead : Makes (integersHead depth id signed)
      (Leb128.encode values.length ++ (values.flatMap (fun value => Leb128.encode value.toNat) ++ tail))
      [.arrayBegin id (if signed then .signed else .unsigned) values.length]
      (depth, .arrayInt id signed values.length)
      (values.flatMap (fun value => Leb128.encode value.toNat) ++ tail) :=
    .next (makes_word (by omega) _) (.demand hlen (makes_announce _ _ _ _))
  rw [integersBytes, List.append_assoc, List.append_assoc]
  cases signed with
  | false => exact makes_readField 3 hid (by decide) hhead (makes_integers id false values tail)
  | true => exact makes_readField 4 hid (by decide) hhead (makes_integers id true values tail)

/-- A float array of the given payloads. -/
theorem makes_floatArray (fp64 : Bool) {payloads : List (List UInt8)}
    (hlen : payloads.length ≤ arrayMax) (hsize : ∀ data ∈ payloads, data.length = elemLen fp64) :
    Makes (readField depth)
      (floatsBytes id payloads.length (elemLen fp64) (if fp64 then .fp64 else .fp32)
        payloads.flatten ++ tail)
      (.arrayBegin id (if fp64 then .fp64 else .fp32) payloads.length ::
        payloads.map (.float fp64 id)) depth tail := by
  have hmax : arrayMax = 2147483647 := rfl
  have hhead : Makes (floatsHead depth id)
      (Leb128.encode payloads.length ++
        (Leb128.encode (elemLen fp64 * 8 + (if fp64 then FixlenType.fp64 else .fp32).tag.toNat) ++
          (payloads.flatten ++ tail)))
      [.arrayBegin id (if fp64 then .fp64 else .fp32) payloads.length]
      (depth, .arrayFix id fp64 payloads.length) (payloads.flatten ++ tail) := by
    refine .next (makes_word (by omega) _) (.demand hlen ?_)
    cases fp64 with
    | false => exact .next (makes_word (by decide) _) (makes_announce _ _ _ _)
    | true => exact .next (makes_word (by decide) _) (makes_announce _ _ _ _)
  rw [floatsBytes, List.append_assoc, List.append_assoc, List.append_assoc]
  exact makes_readField 5 hid (by decide) hhead (makes_floats id fp64 tail hsize)

end Fielding

end Making

/-! ## Calls -/

/-- The bit pattern of a float comes back. -/
theorem float_f32 (id : Id) (value : F32) :
    Callback.float false id (Digits.leBytes 4 value.toNat) = .fp32 id value := by
  change Callback.fp32 id (UInt32.ofNat (Digits.leNat (Digits.leBytes 4 value.toNat))) = _
  rw [Digits.leNat_leBytes 4 value.toNat value.toNat_lt, UInt32.ofNat_toNat]

/-- The eight bytes of a float are told as its bit pattern. -/
theorem float_f64 (id : Id) (value : F64) :
    Callback.float true id (Digits.leBytes 8 value.toNat) = .fp64 id value := by
  change Callback.fp64 id (UInt64.ofNat (Digits.leNat (Digits.leBytes 8 value.toNat))) = _
  rw [Digits.leNat_leBytes 8 value.toNat value.toNat_lt, UInt64.ofNat_toNat]

/-- A payload that agrees with its subtype is as long as it asks for. -/
theorem Agrees.sized {data : List UInt8} {subtype : FixlenType} (h : Agrees data subtype) :
    Sized data subtype := by
  cases subtype with
  | fp32 => exact h
  | fp64 => exact h
  | str => trivial
  | blob => trivial

/-- The canonical bytes of a field make its events. -/
theorem Field.makes {f : Field} (hvalid : f.Valid) (depth : ℕ) (tail : List UInt8) :
    Makes (readField depth) (f.bytes ++ tail) f.events depth tail := by
  obtain ⟨hid, hfits⟩ := hvalid
  have hmax : fixlenMax = 2147483647 := rfl
  cases f with
  | unsigned id value => exact makes_unsigned hid depth tail value
  | signed id value => exact makes_signed hid depth tail value
  | boolean id value =>
    have hvalue : value.toUInt64.toNat = value.toNat := by cases value <;> rfl
    have hall := makes_unsigned hid depth tail value.toUInt64
    rw [hvalue] at hall
    exact hall
  | fp32 id value =>
    have hlen : (Digits.leBytes 4 value.toNat).length = 4 := Digits.leBytes_length 4 _
    have hall := makes_fixlen hid depth tail (by omega : (Digits.leBytes 4 value.toNat).length ≤ _)
      (show Sized _ .fp32 from hlen)
    rw [fixlenEvents, hlen] at hall
    simp only [float_f32] at hall
    exact hall
  | fp64 id value =>
    have hlen : (Digits.leBytes 8 value.toNat).length = 8 := Digits.leBytes_length 8 _
    have hall := makes_fixlen hid depth tail (by omega : (Digits.leBytes 8 value.toNat).length ≤ _)
      (show Sized _ .fp64 from hlen)
    rw [fixlenEvents, hlen] at hall
    simp only [float_f64] at hall
    exact hall
  | str id text => exact makes_fixlen hid depth tail hfits trivial
  | blob id data => exact makes_fixlen hid depth tail hfits trivial
  | fixlen id data subtype => exact makes_fixlen hid depth tail hfits.2 hfits.1.sized
  | arrayUnsigned id data =>
    have hlen : (data.map UnsignedElem.widen).length ≤ arrayMax := by
      rw [List.length_map]
      exact hfits
    have hall := @makes_integerArray id hid depth tail false _ hlen
    rw [List.map_map, List.length_map] at hall
    exact hall
  | @arraySigned α _ id data =>
    have hlen : (data.map fun e => zigzagEncode (SignedElem.widen e)).length ≤ arrayMax := by
      rw [List.length_map]
      exact hfits
    have hall := @makes_integerArray id hid depth tail true _ hlen
    have hback : (Callback.integer true id ∘ fun e : α => zigzagEncode (SignedElem.widen e)) =
        fun e => Callback.signed id (SignedElem.widen e) := by
      funext e
      exact congrArg (Callback.signed id) (zigzagDecode_encode _)
    rw [List.map_map, List.length_map, hback] at hall
    exact hall
  | arrayFp32 id data =>
    have hlen : (data.map fun e => Digits.leBytes 4 e.toNat).length ≤ arrayMax := by
      rw [List.length_map]
      exact hfits
    have hall := @makes_floatArray id hid depth tail false _ hlen (by simp [elemLen])
    have hback : (Callback.float false id ∘ fun e : F32 => Digits.leBytes 4 e.toNat) =
        Callback.fp32 id := funext (float_f32 id)
    rw [List.map_map, List.length_map, hback] at hall
    exact hall
  | arrayFp64 id data =>
    have hlen : (data.map fun e => Digits.leBytes 8 e.toNat).length ≤ arrayMax := by
      rw [List.length_map]
      exact hfits
    have hall := @makes_floatArray id hid depth tail true _ hlen (by simp [elemLen])
    have hback : (Callback.float true id ∘ fun e : F64 => Digits.leBytes 8 e.toNat) =
        Callback.fp64 id := funext (float_f64 id)
    rw [List.map_map, List.length_map, hback] at hall
    exact hall

/-- The canonical bytes of an allowed call make its events. -/
theorem Call.Allowed.makes {call : Call} {depth : ℕ} (h : call.Allowed depth)
    (tail : List UInt8) :
    Makes (readField depth) (call.wire ++ tail) call.events (call.depthAfter depth) tail := by
  have hend (hdepth : depth ≠ 0) :
      Makes (readField depth) (endMarker ++ tail) [.sequenceEnd] (depth - 1) tail := by
    obtain ⟨depth, rfl⟩ := Nat.exists_eq_succ_of_ne_zero hdepth
    exact ⟨_, readField_end depth tail, rfl⟩
  cases call with
  | field f => exact Field.makes h depth tail
  | sequenceBeginLazy id =>
    have hhead : Makes (typedHead depth id 6) tail [.sequenceBegin id] (depth + 1, .none) tail :=
      .demand h.1 (makes_announce _ _ _ _)
    exact makes_readField 6 h.2 (by decide) hhead (makes_pure () tail)
  | sequenceEnd => exact hend h
  | sequenceEndKeep => exact hend h

/-- The canonical bytes of allowed calls make their events. -/
theorem Allowed.reads {cs : List Call} {depth : ℕ} (h : Allowed depth cs) :
    (readFields depth (cs.flatMap Call.wire)).outcome = .done (depthAfter depth cs) [] ∧
      calls (readFields depth (cs.flatMap Call.wire)).notes = cs.flatMap Call.events := by
  induction cs generalizing depth with
  | nil =>
    rw [List.flatMap_nil, readFields_nil]
    exact ⟨rfl, rfl⟩
  | cons call cs ih =>
    obtain ⟨notes, hread, hcalls⟩ := h.1.makes (cs.flatMap Call.wire)
    obtain ⟨houtcome, hrest⟩ := ih h.2
    rw [List.flatMap_cons, List.flatMap_cons, readFields, exhaust_of_done hread]
    refine ⟨houtcome, ?_⟩
    rw [Report.after_notes, calls_append, hcalls]
    exact congrArg _ hrest

/-- The canonical bytes of calls that close what they open are a complete message. -/
theorem Balanced.decodes {cs : List Call} (h : Balanced cs) :
    (decode (cs.flatMap Call.wire)).calls = cs.flatMap Call.events ∧
      (decode (cs.flatMap Call.wire)).result = .ok .complete := by
  obtain ⟨houtcome, hcalls⟩ := h.allowed.reads
  refine ⟨(decode_calls _).trans hcalls, ?_⟩
  rw [decode_result, verdict, readMessage, houtcome, h.closed]
  rfl

end Sofab
