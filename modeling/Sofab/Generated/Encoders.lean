import Sofab.Slices
import Sofab.Transport
import Sofab.Generated.Decoder

/-!
# The generated encoders

What the code generator emits to write the message: `serialize` over a stream it does not own, and
`encode` into one buffer or through a scratch buffer. Whatever the writes report is dropped, so it
is the decoder at the other end that has to tell an encoding that did not fit.
-/

namespace Sofab.Generated

open Steps Step OStream IStream Reading Reading.Reader

/-- A message with an unbounded field. -/
structure Unbounded where
  x : Unsigned
  tag : String
  deriving DecidableEq, Repr

/-- What both messages serialize to. What the writes report is dropped. -/
def serializeFields (x : Unsigned) (tag : String) : EncodeM Unit := do
  let _ ← attempt (writeUnsigned 1 x)
  let _ ← attempt (writeStr 2 tag)
  pure ()

namespace Bounded

/-- Worst-case encoded size of the message. -/
def maxSize : ℕ := 64

/-- Write the fields of a bounded message. -/
def serialize (m : Bounded) : EncodeM Unit := serializeFields m.x m.tag

/-- Encode into one buffer of the worst-case size. -/
def encode (m : Bounded) : List UInt8 :=
  let os := (m.serialize (OStream.new (List.replicate maxSize 0))).1
  os.buffer.take os.bytesUsed

end Bounded

namespace Unbounded

/-- Write the fields of an unbounded message. -/
def serialize (m : Unbounded) : EncodeM Unit := serializeFields m.x m.tag

/-- Serialize through a scratch buffer into a sink that appends what it is handed. A scratch
buffer that cannot be installed panics. -/
def encodeThrough (m : Unbounded) (scratch : List UInt8) : Option (List UInt8) :=
  match withFlush scratch 0 Sink.copying with
  | .ok os =>
    let streamed : EncodeM Unit := do
      m.serialize
      let _ ← attempt flush
      pure ()
    some ((streamed os).1.handed.flatMap Handover.slice)
  | .error _ => none

/-- Encode through a scratch buffer of 512 bytes. -/
def encode (m : Unbounded) : Option (List UInt8) := m.encodeThrough (List.replicate 512 0)

end Unbounded

/-! ## What the encoders leave -/

/-- The message that both shapes write. -/
def content (x : Unsigned) (tag : String) : Message :=
  .field (.unsigned 1 x) (.field (.str 2 tag) .done)

section Content

variable (x : Unsigned) {tag : String} (hlen : tag.toUTF8.data.toList.length ≤ fixlenMax)

/-- The content opens no sequence. -/
theorem content_height : (content x tag).height ≤ maxDepth := Nat.zero_le _

include hlen

/-- The content is valid with a tag short enough. -/
theorem content_valid : (content x tag).Valid := by
  have hx : (1 : Id).toNat ≤ idMax := by decide
  have htag : (2 : Id).toNat ≤ idMax := by decide
  exact ⟨⟨hx, trivial⟩, ⟨htag, hlen⟩, trivial⟩

/-- The content leaves no sequence open. -/
theorem content_balanced : Balanced (content x tag).calls :=
  (balanced_iff _).mpr ⟨_, content_valid x hlen, content_height x, rfl⟩

/-- The calls of the content record its encoding. -/
theorem content_bytes : (record (content x tag).calls).1.bytes = (content x tag).encode :=
  Message.record_bytes (content_valid x hlen) (content_height x)

end Content

/-- Unless a write unwinds, serializing makes the writer calls. -/
theorem serializeFields_eq (host : Endian) {x : Unsigned} {tag : String} {os : OStream}
    (h : ∀ exit ∈ (writeAll host (content x tag).calls os).2, exit ≠ .unwound) :
    serializeFields x tag os = ((writeAll host (content x tag).calls os).1, .ok ()) := by
  have hx : (writeUnsigned 1 x os).2 ≠ .unwound := h _ List.mem_cons_self
  have htag : (writeStr 2 tag (writeUnsigned 1 x os).1).2 ≠ .unwound :=
    h _ (List.mem_cons_of_mem _ List.mem_cons_self)
  rw [serializeFields, attempt_bind hx, attempt_bind htag]
  rfl

/-- Without a sink a field write returns. -/
theorem returns_of_sinkless {os : OStream} {installed : Installation} {tape : Tape}
    (h : Sofab.Bounded os installed tape) (host : Endian) {f : Field} (hvalid : f.Valid) :
    (f.write host os).2 ≠ .unwound := by
  have hcapped : Capped os installed tape (.field f) (f.write host os) := h.capped host (.field f)
  have hrecorded := (show (Call.field f).Allowed tape.framing.depth from hvalid).recorded.1
  generalize f.write host os = result at hcapped
  cases hcapped with
  | written before bounded after => simp [hrecorded]
  | stops before bounded after => simp
  | mute before bounded reached field => simp [field f rfl hvalid]

namespace Bounded

/-- The buffer keeps of the encoding what fits. -/
theorem encode_eq (m : Bounded) (hlen : m.tag.toUTF8.data.toList.length ≤ fixlenMax) :
    m.encode = (content m.x m.tag).encode.take maxSize := by
  have hbounded := bounded_over (Nat.zero_le (List.replicate maxSize (0 : UInt8)).length)
  have hvalid := content_valid m.x hlen
  have hfirst := hbounded.after .little [.field (.unsigned 1 m.x)]
  have hlast := hbounded.after .little (content m.x m.tag).calls
  have hreturns : ∀ exit ∈ (writeAll .little (content m.x m.tag).calls
      (.ofBuffer (List.replicate maxSize 0) 0 none)).2, exit ≠ .unwound := by
    intro exit hmem
    rcases List.mem_cons.mp hmem with rfl | hmem
    · exact returns_of_sinkless hbounded .little hvalid.1
    · obtain rfl := List.mem_singleton.mp hmem
      exact returns_of_sinkless hfirst .little hvalid.2.1
  have hmessage := hlast.message_eq
  rw [message_of_flush_none hlast.sinkless, OStream.active, hlast.installed_eq, List.drop_zero,
    ← record, content_bytes m.x hlen] at hmessage
  rw [encode, serialize, OStream.new, serializeFields_eq .little hreturns]
  simpa [Installation.capacity, bytesUsed] using hmessage

end Bounded

namespace Unbounded

/-- Through any scratch buffer of at least a byte the sink gets the encoding. -/
theorem encodeThrough_eq (m : Unbounded) (hlen : m.tag.toUTF8.data.toList.length ≤ fixlenMax)
    {scratch : List UInt8} (hne : scratch ≠ []) :
    m.encodeThrough scratch = some (content m.x m.tag).encode := by
  have hopen : withFlush scratch 0 Sink.copying = .ok (.ofBuffer scratch 0 (some Sink.copying)) := by
    rw [withFlush, checkStreamingCapacity_of_lt (List.length_pos_iff.mpr hne)]
    rfl
  obtain ⟨-, -, hwritten⟩ := written_withFlush rfl hopen
  have hstart : Carrying Sink.copying.answer (·.offset = 0)
      (.ofBuffer scratch 0 (some Sink.copying)) .new :=
    ⟨rfl, hwritten, .inr rfl, fun unit hunit => absurd hunit List.not_mem_nil⟩
  have hzero (handed : List Handover) (buffer : List UInt8) (offset : ℕ)
      (hanswer : Sink.copying.answer handed = some (buffer, offset)) : offset = 0 :=
    Sink.copying_offset hanswer
  have hallowed : Allowed 0 (callsOf ((content m.x m.tag).calls.map .call)) :=
    (content_balanced m.x hlen).allowed
  obtain ⟨hoks, hafter⟩ := hstart.after Sink.copying_consuming hzero .little hallowed
    (by simp [content, Message.calls])
  have hcarrying : Carrying Sink.copying.answer (·.offset = 0) (writeAll .little
      (content m.x m.tag).calls (.ofBuffer scratch 0 (some Sink.copying))).1
      (record (content m.x m.tag).calls).1 := hafter
  have hstreamed : serializeFields m.x m.tag (.ofBuffer scratch 0 (some Sink.copying)) = _ :=
    serializeFields_eq .little fun exit hmem => by simp [hoks exit hmem]
  obtain ⟨os', hflush, hslices⟩ := flush_slices hcarrying
  rw [encodeThrough, hopen]
  simp only [serialize]
  rw [bind_ok hstreamed, bind_ok (attempt_ok hflush)]
  refine congrArg some (hslices.trans ?_)
  exact content_bytes m.x hlen

end Unbounded

/-! ## From one generated end to the other -/

/-- A string is read back from its own bytes. -/
theorem fromUtf8_toUTF8 (s : String) : fromUtf8 s.toUTF8.data.toList = some s := by
  unfold fromUtf8 String.fromUTF8?
  exact dif_pos s.isValidUTF8

/-- What is bound of both fields, the string perhaps not whole. -/
theorem bound_fields (x : Unsigned) (total : ℕ) (data : List UInt8) :
    bound [.unsigned 1 x, .fixlenBegin 2 .str total, .string 2 total 0 data] =
      ⟨x, (if data.length = total then fromUtf8 data else none).getD ""⟩ := by
  refine congrArg (Bounded.mk x) ?_
  unfold latest
  by_cases hwhole : data.length = total
  · cases hutf8 : fromUtf8 data <;> simp [text, hwhole, hutf8]
  · simp [text, hwhole]

/-- The callbacks of a message are malformed just if its whole tag is no text. -/
theorem malformed_fields (x : Unsigned) (total : ℕ) (data : List UInt8) :
    Malformed [.unsigned 1 x, .fixlenBegin 2 .str total, .string 2 total 0 data] ↔
      data.length = total ∧ fromUtf8 data = none := by
  simp [Malformed, text]

/-- A string field that is cut off inside its payload is short. -/
theorem readField_cut {data : List UInt8} (hdata : data.length ≤ fixlenMax) {n : ℕ} (hpos : 0 < n)
    (hcut : n < data.length) :
    ∃ notes, readField 0 (headerBytes 2 2 ++ (Leb128.encode (data.length * 8 + 2) ++ data.take n)) =
        ⟨notes, .short []⟩ ∧
      calls notes = [.fixlenBegin 2 .str data.length, .string 2 data.length 0 (data.take n)] := by
  have hid : (2 : Id).toNat ≤ idMax := by decide
  obtain ⟨notes, hhead, hcalls⟩ := makes_readHead 2 hid (by decide)
    (makes_fixlenHead 0 2 hdata (show Sized data .str from trivial) (data.take n))
  have hlen : (data.take n).length = n := by rw [List.length_take, Nat.min_eq_left hcut.le]
  have hne : data.take n ≠ [] := by
    rw [← List.length_pos_iff, hlen]
    exact hpos
  have hbody : readBody (.payload 2 false data.length data.length) (data.take n) =
      ⟨[.raw (data.take n), .call (.string 2 data.length 0 (data.take n))], .short []⟩ := by
    rw [readBody, payload, if_neg (by omega), if_neg hne, Nat.sub_self]
    rfl
  refine ⟨notes ++ [.raw (data.take n), .call (.string 2 data.length 0 (data.take n))], ?_, ?_⟩
  · have hfield : readField 0 (headerBytes 2 2 ++
        (Leb128.encode (data.length * 8 + 2) ++ data.take n)) = _ := bind_of_done hhead _
    rw [hfield]
    simp only [fixlenBody]
    rw [bind_of_short hbody]
    rfl
  · rw [calls_append, hcalls]
    rfl

section Ends

variable (x : Unsigned) {tag : String} (hlen : tag.toUTF8.data.toList.length ≤ fixlenMax)

include hlen

/-- A whole encoding binds the message. -/
theorem decode_content :
    bound (decode (content x tag).encode).calls = ⟨x, tag⟩ ∧
      ¬Malformed (decode (content x tag).encode).calls ∧
      (decode (content x tag).encode).result = .ok .complete := by
  obtain ⟨hcalls, hresult⟩ := (content_balanced x hlen).decodes
  rw [← Message.encode_eq] at hcalls hresult
  have hevents : (decode (content x tag).encode).calls = [.unsigned 1 x,
      .fixlenBegin 2 .str tag.toUTF8.data.toList.length,
      .string 2 tag.toUTF8.data.toList.length 0 tag.toUTF8.data.toList] := hcalls
  rw [hevents, bound_fields, malformed_fields, fromUtf8_toUTF8, if_pos rfl]
  exact ⟨rfl, by simp, hresult⟩

/-- An encoding that is cut off inside the payload binds the unsigned field alone and is never
taken for a whole one. -/
theorem decode_cut {n : ℕ} (hpos : 0 < n) (hcut : n < tag.toUTF8.data.toList.length) :
    let cut := decode ((Field.unsigned 1 x).bytes ++ (headerBytes 2 2 ++
      (Leb128.encode (tag.toUTF8.data.toList.length * 8 + 2) ++ tag.toUTF8.data.toList.take n)))
    bound cut.calls = ⟨x, ""⟩ ∧ ¬Malformed cut.calls ∧ cut.result = .ok .incomplete := by
  intro cut
  have hid : (1 : Id).toNat ≤ idMax := by decide
  obtain ⟨notes, hfirst, hunsigned⟩ := Field.makes (f := .unsigned 1 x) ⟨hid, trivial⟩ 0
    (headerBytes 2 2 ++ (Leb128.encode (tag.toUTF8.data.toList.length * 8 + 2) ++
      tag.toUTF8.data.toList.take n))
  obtain ⟨notes', hlast, hstring⟩ := readField_cut hlen hpos hcut
  have hsome : headerBytes 2 2 ++ (Leb128.encode (tag.toUTF8.data.toList.length * 8 + 2) ++
      tag.toUTF8.data.toList.take n) ≠ [] :=
    List.append_ne_nil_of_left_ne_nil (Leb128.encode_ne_nil _) _
  have hread : exhaust readField readField_shrinks 0 _ = _ := exhaust_of_short hsome hlast
  have hcalls : cut.calls = [.unsigned 1 x, .fixlenBegin 2 .str tag.toUTF8.data.toList.length,
      .string 2 tag.toUTF8.data.toList.length 0 (tag.toUTF8.data.toList.take n)] := by
    rw [decode_calls, readMessage, readFields, exhaust_of_done hfirst, hread, Report.after_notes,
      calls_append, hunsigned, hstring]
    rfl
  have hne : (tag.toUTF8.data.toList.take n).length ≠ tag.toUTF8.data.toList.length := by
    rw [List.length_take]
    omega
  rw [hcalls, bound_fields, malformed_fields, if_neg hne, decode_result, readMessage, readFields,
    exhaust_of_done hfirst, hread]
  exact ⟨rfl, fun hbad => hne hbad.1, rfl⟩

/-- What a buffer of the worst-case size keeps of a longer encoding ends inside the payload. -/
theorem take_content (hover : Bounded.maxSize < (content x tag).encode.length) :
    ∃ n, 0 < n ∧ n < tag.toUTF8.data.toList.length ∧
      (content x tag).encode.take Bounded.maxSize = (Field.unsigned 1 x).bytes ++
        (headerBytes 2 2 ++ (Leb128.encode (tag.toUTF8.data.toList.length * 8 + 2) ++
          tag.toUTF8.data.toList.take n)) := by
  have hmax : fixlenMax = 2147483647 := rfl
  have hsize : Bounded.maxSize = 64 := rfl
  have hencode : (content x tag).encode = (Field.unsigned 1 x).bytes ++ (headerBytes 2 2 ++
      (Leb128.encode (tag.toUTF8.data.toList.length * 8 + 2) ++ tag.toUTF8.data.toList)) := by
    simp [content, Message.encode, Field.bytes, fixlenBytes, FixlenType.tag]
  have hheader : (headerBytes 2 2).length = 1 := by decide +kernel
  have hfirst : (Field.unsigned 1 x).bytes.length ≤ 1 + 10 := by
    have hvalue := Leb128.encode_length_le 9 (v := x.toNat) x.toNat_lt
    have hone : (headerBytes 1 0).length = 1 := by decide +kernel
    rw [Field.bytes, List.length_append, hone]
    omega
  have hword := Leb128.encode_length_le 9
    (v := tag.toUTF8.data.toList.length * 8 + 2) (by omega)
  rw [hencode] at hover ⊢
  generalize (Field.unsigned 1 x).bytes = first at *
  generalize Leb128.encode (tag.toUTF8.data.toList.length * 8 + 2) = word at *
  generalize tag.toUTF8.data.toList = data at *
  simp only [List.length_append, hheader, hsize] at hover
  refine ⟨64 - first.length - 1 - word.length, by omega, by omega, ?_⟩
  rw [List.take_append, List.take_of_length_le (by omega), List.take_append, hheader,
    List.take_of_length_le (by omega), List.take_append, List.take_of_length_le (by omega)]
  rfl

end Ends

/-- A bounded message whose encoding fits its buffer comes back however that is cut into chunks. One
that does not fit, which `encode` does not report, is never taken for a complete message. -/
theorem bounded_roundtrip (m : Bounded) (hlen : m.tag.toUTF8.data.toList.length ≤ fixlenMax)
    {chunk : List UInt8} {rest : List (List UInt8)} (hchunks : (chunk :: rest).flatten = m.encode) :
    ((content m.x m.tag).encode.length ≤ Bounded.maxSize →
        (Decoder.new.feedAll chunk rest).1.value = m ∧
          (Decoder.new.feedAll chunk rest).2 = .ok .complete) ∧
      (Bounded.maxSize < (content m.x m.tag).encode.length →
        (Decoder.new.feedAll chunk rest).1.value = { m with tag := "" } ∧
          (Decoder.new.feedAll chunk rest).2 = .ok .incomplete) := by
  obtain ⟨hvalue, hresult⟩ := decoder_told chunk rest
  rw [hchunks, m.encode_eq hlen] at hvalue hresult
  constructor
  · intro hfits
    rw [List.take_of_length_le hfits] at hvalue hresult
    obtain ⟨hbound, hgood, hcomplete⟩ := decode_content m.x hlen
    rw [if_neg hgood] at hresult
    exact ⟨hvalue.trans hbound, hresult.trans hcomplete⟩
  · intro hover
    obtain ⟨n, hpos, hcut, htake⟩ := take_content m.x hlen hover
    obtain ⟨hbound, hgood, hincomplete⟩ := decode_cut m.x hlen hpos hcut
    rw [htake] at hvalue hresult
    rw [if_neg hgood] at hresult
    exact ⟨hvalue.trans hbound, hresult.trans hincomplete⟩

/-- A message that fits, torn in its header, and one that does not. -/
theorem bounded_roundtrip_cut :
    (Decoder.new.feedAll [8] [[5, 18], [10, 97]]).1.value = ⟨5, "a"⟩ ∧
      (Decoder.new.feedAll (Bounded.encode ⟨5, String.ofList (List.replicate 62 'a')⟩) []).2 =
        .ok .incomplete :=
  ⟨((@bounded_roundtrip ⟨5, "a"⟩ (by decide +kernel) [8] [[5, 18], [10, 97]]
      (by decide +kernel)).1 (by decide +kernel)).1,
    ((@bounded_roundtrip ⟨5, String.ofList (List.replicate 62 'a')⟩ (by decide +kernel) _ []
      (List.append_nil _)).2 (by decide +kernel)).2⟩

/-- An unbounded message comes back through any scratch buffer and any chunks. -/
theorem unbounded_roundtrip (m : Unbounded) (hlen : m.tag.toUTF8.data.toList.length ≤ fixlenMax)
    {scratch : List UInt8} (hne : scratch ≠ []) :
    ∃ wire, m.encodeThrough scratch = some wire ∧
      ∀ (chunk : List UInt8) (rest : List (List UInt8)), (chunk :: rest).flatten = wire →
        (Decoder.new.feedAll chunk rest).1.value = ⟨m.x, m.tag⟩ ∧
          (Decoder.new.feedAll chunk rest).2 = .ok .complete := by
  refine ⟨_, m.encodeThrough_eq hlen hne, ?_⟩
  intro chunk rest hchunks
  obtain ⟨hvalue, hresult⟩ := decoder_told chunk rest
  obtain ⟨hbound, hgood, hcomplete⟩ := decode_content m.x hlen
  rw [hchunks] at hvalue hresult
  rw [if_neg hgood] at hresult
  exact ⟨hvalue.trans hbound, hresult.trans hcomplete⟩

/-- A message through a scratch buffer of one byte, torn inside the string. -/
theorem unbounded_roundtrip_byte :
    Unbounded.encodeThrough ⟨5, "ab"⟩ [0] = some [8, 5, 18, 18, 97, 98] ∧
      (Decoder.new.feedAll [8, 5, 18, 18, 97] [[98]]).1.value = ⟨5, "ab"⟩ := by
  obtain ⟨wire, hwire, hback⟩ := @unbounded_roundtrip ⟨5, "ab"⟩ (by decide +kernel) [0] (by decide)
  have hbytes : Unbounded.encodeThrough ⟨5, "ab"⟩ [0] = some [8, 5, 18, 18, 97, 98] := by
    decide +kernel
  obtain rfl := Option.some.inj (hbytes.symm.trans hwire)
  exact ⟨hwire, (hback _ [[98]] rfl).1⟩

end Sofab.Generated
