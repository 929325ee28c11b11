import Sofab.Events

/-!
# What was read, as writer calls

Every field of a message that was read stands for one writer call. The notes of the reading
spell the bytes as they came; with minimal varints and bare end markers in their place they
spell the canonical bytes of the calls, which are no longer.
-/

namespace Sofab

open Reading Reading.Reader

/-- The canonical spelling of a note. -/
def Note.canonical : Note → List UInt8
  | .call _ => []
  | .varint _ value => Leb128.encode value
  | .close _ => endMarker
  | .raw bytes => bytes

/-- The bytes of the payload in a callback. -/
def payloadBytes : Callback → List UInt8
  | .fp32 _ value => Digits.leBytes 4 value.toNat
  | .fp64 _ value => Digits.leBytes 8 value.toNat
  | .string _ _ _ chunk => chunk
  | .blob _ _ _ chunk => chunk
  | _ => []

/-- The value of an unsigned callback. -/
def unsignedValue : Callback → Unsigned
  | .unsigned _ value => value
  | _ => 0

/-- The value of a signed callback. -/
def signedValue : Callback → Signed
  | .signed _ value => value
  | _ => 0

/-- The bit pattern of a callback for a 32-bit float. -/
def f32Value : Callback → F32
  | .fp32 _ value => value
  | _ => 0

/-- The bit pattern of a callback for a 64-bit float. -/
def f64Value : Callback → F64
  | .fp64 _ value => value
  | _ => 0

/-- The array write for an announced array and the callbacks of its elements. -/
def arrayField (id : Id) (kind : ArrayKind) (elements : List Callback) : Field :=
  match kind with
  | .unsigned => .arrayUnsigned id (elements.map unsignedValue)
  | .signed => .arraySigned id (elements.map signedValue)
  | .fp32 => .arrayFp32 id (elements.map f32Value)
  | .fp64 => .arrayFp64 id (elements.map f64Value)

/-- The writer calls that recorded callbacks drive: scalars go to their writers, a payload to
`writeFixlen` with its subtype, an array with its elements to the writer of its kind, and every
sequence is kept. -/
def replay : List Callback → List Call
  | [] => []
  | .unsigned id value :: rest => .field (.unsigned id value) :: replay rest
  | .signed id value :: rest => .field (.signed id value) :: replay rest
  | .fixlenBegin id subtype _ :: payload :: rest =>
    .field (.fixlen id (payloadBytes payload) subtype) :: replay rest
  | .arrayBegin id kind count :: rest =>
    .field (arrayField id kind (rest.take count)) :: replay (rest.drop count)
  | .sequenceBegin id :: rest => .sequenceBeginLazy id :: replay rest
  | .sequenceEnd :: rest => .sequenceEndKeep :: replay rest
  | .fp32 .. :: rest | .fp64 .. :: rest | .string .. :: rest | .blob .. :: rest => replay rest
  | [.fixlenBegin ..] => []
termination_by cs => cs.length
decreasing_by
  all_goals simp only [List.length_cons, List.length_drop]
  all_goals omega

/-- A noted varint spells its value, and a noted end header is not empty. -/
def Note.Sound : Note → Prop
  | .varint spelling value => Leb128.read fullGroups spelling = .done value []
  | .close spelling => spelling ≠ []
  | _ => True

/-- A reading that finished: its notes are sound, spell the bytes it took, make callbacks and
stand for canonical bytes. -/
structure Renders (bs : List UInt8) (notes : List Note) (rest : List UInt8)
    (made : List Callback) (wire : List UInt8) : Prop where
  spelled : bs = notes.flatMap Note.spelled ++ rest
  made_eq : calls notes = made
  canonical : notes.flatMap Note.canonical = wire
  sound : ∀ n ∈ notes, n.Sound

section Rendering

variable {α β : Type} {bs mid rest wire wire' : List UInt8} {notes notes' : List Note}
  {made made' : List Callback}

/-- Reading nothing renders nothing. -/
theorem renders_nil (bs : List UInt8) : Renders bs [] bs [] [] :=
  ⟨rfl, rfl, rfl, fun _ hn => absurd hn List.not_mem_nil⟩

/-- Readings in a row render one after the other. -/
theorem Renders.append (h : Renders bs notes mid made wire)
    (h' : Renders mid notes' rest made' wire') :
    Renders bs (notes ++ notes') rest (made ++ made') (wire ++ wire') where
  spelled := by rw [h.spelled, h'.spelled, List.flatMap_append, List.append_assoc]
  made_eq := by rw [calls_append, h.made_eq, h'.made_eq]
  canonical := by rw [List.flatMap_append, h.canonical, h'.canonical]
  sound n hn := (List.mem_append.mp hn).elim (h.sound n) (h'.sound n)

/-- An announcement behind words. -/
theorem Renders.announced (h : Renders bs notes mid [] wire)
    (h' : Renders mid notes' rest made []) : Renders bs (notes ++ notes') rest made wire := by
  have hall := h.append h'
  rwa [List.append_nil] at hall

/-- A callback stands for no byte. -/
theorem renders_call (c : Callback) (bs : List UInt8) :
    Renders bs [.call c] bs [c] [] :=
  ⟨rfl, rfl, rfl, by simp [Note.Sound]⟩

/-- A varint is rendered by its shortest spelling. -/
theorem word_renders {value : ℕ} (h : word bs = ⟨notes, .done value rest⟩) :
    value < 2 ^ 64 ∧ Renders bs notes rest [] (Leb128.encode value) := by
  obtain ⟨spelling, rfl, rfl, _, hread⟩ := notedWord_done h
  exact ⟨Leb128.read_value_lt hread, by simp [Note.spelled], rfl, by simp [Note.canonical],
    List.forall_mem_singleton.mpr hread⟩

/-- The canonical spelling of a header. -/
def headerWire (h : ℕ) : List UInt8 := if h % 8 = 7 then endMarker else Leb128.encode h

/-- A header is rendered as what it is for. -/
theorem header_renders {value : ℕ} (h : header bs = ⟨notes, .done value rest⟩) :
    value < 2 ^ 64 ∧ Renders bs notes rest [] (headerWire value) := by
  obtain ⟨spelling, rfl, rfl, hne, hread⟩ := notedWord_done h
  refine ⟨Leb128.read_value_lt hread, ?_⟩
  rw [headerNote, headerWire]
  split
  · exact ⟨by simp [Note.spelled], rfl, by simp [Note.canonical],
      List.forall_mem_singleton.mpr hne⟩
  · exact ⟨by simp [Note.spelled], rfl, by simp [Note.canonical],
      List.forall_mem_singleton.mpr hread⟩

/-- Bytes taken as they are are rendered as they are. -/
theorem rawBytes_renders {n : ℕ} {data : List UInt8}
    (h : rawBytes n bs = ⟨notes, .done data rest⟩) :
    data.length = n ∧ Renders bs notes rest [] data := by
  rw [rawBytes] at h
  split at h
  · next hle =>
    cases h
    exact ⟨List.length_take_of_le hle, by simp [Note.spelled], rfl, by simp [Note.canonical],
      by simp [Note.Sound]⟩
  · cases h

/-- A payload is rendered by its bytes, and makes one callback. -/
theorem payload_renders {id : Id} {isBlob : Bool} {total : ℕ}
    (h : payload id isBlob total total bs = ⟨notes, .done () rest⟩) :
    ∃ data, data.length = total ∧
      Renders bs notes rest [.payload isBlob id total 0 data] data := by
  rw [payload] at h
  split at h
  · next hle =>
    cases h
    refine ⟨bs.take total, List.length_take_of_le hle, by simp [Note.spelled], ?_,
      by simp [Note.canonical], by simp [Note.Sound]⟩
    rw [Nat.sub_self]
    rfl
  · split at h <;> cases h

/-- What follows a condition that holds. -/
theorem demand_bind_done {p : Prop} [Decidable p] {next : Unit → WireReader β} {b : β}
    (h : (demand p >>= next) bs = ⟨notes, .done b rest⟩) :
    p ∧ next () bs = ⟨notes, .done b rest⟩ := by
  by_cases hp : p
  · rw [demand_of_pos hp, pure_bind] at h
    exact ⟨hp, h⟩
  · rw [demand_of_neg hp, reject_bind] at h
    cases h

/-- An announcement is rendered by no bytes. -/
theorem announce_renders {depth : ℕ} {call : Callback} {body : Resume} {a : ℕ × Resume}
    (h : announce depth call body bs = ⟨notes, .done a rest⟩) :
    a = (depth, body) ∧ Renders bs notes rest [call] [] := by
  rw [announce, note_bind_apply] at h
  cases h
  exact ⟨rfl, renders_call call bs⟩

/-- Integer elements are rendered by their shortest spellings. -/
theorem integers_renders {id : Id} {signed : Bool} {n : ℕ}
    (h : integers id signed n bs = ⟨notes, .done () rest⟩) :
    ∃ values : List Unsigned, values.length = n ∧
      Renders bs notes rest (values.map (.integer signed id))
        (values.flatMap fun value => Leb128.encode value.toNat) := by
  induction n generalizing bs notes with
  | zero =>
    cases h
    exact ⟨[], rfl, renders_nil _⟩
  | succ n ih =>
    obtain ⟨first, value, mid, second, hword, hnext, rfl⟩ := bind_eq_done h
    obtain ⟨hlt, hfirst⟩ := word_renders hword
    obtain ⟨called, _, mid', third, hcall, hmore, rfl⟩ := bind_eq_done hnext
    cases hcall
    obtain ⟨values, hlen, hrest⟩ := ih hmore
    refine ⟨UInt64.ofNat value :: values, congrArg (· + 1) hlen, ?_⟩
    have hback : (UInt64.ofNat value).toNat = value := UInt64.toNat_ofNat_of_lt' hlt
    rw [List.map_cons, List.flatMap_cons, hback]
    exact hfirst.append ((renders_call _ mid).append hrest)

/-- Float elements are rendered as they are, each of its width. -/
theorem floats_renders {id : Id} {fp64 : Bool} {n : ℕ}
    (h : floats id fp64 n bs = ⟨notes, .done () rest⟩) :
    ∃ payloads : List (List UInt8), payloads.length = n ∧
      (∀ data ∈ payloads, data.length = elemLen fp64) ∧
        Renders bs notes rest (payloads.map (.float fp64 id)) payloads.flatten := by
  induction n generalizing bs notes with
  | zero =>
    cases h
    exact ⟨[], rfl, by simp, renders_nil _⟩
  | succ n ih =>
    obtain ⟨first, data, mid, second, hraw, hnext, rfl⟩ := bind_eq_done h
    obtain ⟨hsize, hfirst⟩ := rawBytes_renders hraw
    obtain ⟨called, _, mid', third, hcall, hmore, rfl⟩ := bind_eq_done hnext
    cases hcall
    obtain ⟨payloads, hlen, hsizes, hrest⟩ := ih hmore
    refine ⟨data :: payloads, congrArg (· + 1) hlen, List.forall_mem_cons.mpr ⟨hsize, hsizes⟩, ?_⟩
    exact hfirst.append ((renders_call _ mid).append hrest)

end Rendering

/-! ## Fields as calls -/

/-- A reading stands for a call, all of whose bytes but those in front it has taken. -/
structure Stands (depth : ℕ) (front bs : List UInt8) (notes : List Note) (rest : List UInt8)
    (depth' : ℕ) (call : Call) : Prop where
  allowed : call.Allowed depth
  depth_eq : call.depthAfter depth = depth'
  kept : call ≠ .sequenceEnd
  replays : ∀ more, replay (call.events ++ more) = call :: replay more
  renders : ∃ wire, call.wire = front ++ wire ∧ Renders bs notes rest call.events wire

/-- The string payloads among callbacks are valid. -/
def Utf8 (made : List Callback) : Prop :=
  ∀ id total offset chunk, .string id total offset chunk ∈ made → OStream.isUtf8 chunk = true

/-- What is text as a whole is text behind any callbacks. -/
theorem Utf8.right {made more : List Callback} (h : Utf8 (made ++ more)) : Utf8 more :=
  fun id total offset chunk hmem => h id total offset chunk (List.mem_append_right _ hmem)

/-- What is text as a whole is text up to any callback. -/
theorem Utf8.left {made more : List Callback} (h : Utf8 (made ++ more)) : Utf8 made :=
  fun id total offset chunk hmem => h id total offset chunk (List.mem_append_left _ hmem)

/-- A float payload comes back from its callback. -/
theorem payloadBytes_float {fp64 : Bool} (id : Id) {data : List UInt8}
    (hlen : data.length = elemLen fp64) : payloadBytes (.float fp64 id data) = data := by
  have hlt := Digits.leNat_lt data
  have hback := Digits.leBytes_leNat data
  rw [hlen] at hlt hback
  cases fp64 with
  | false =>
    change Digits.leBytes 4 (UInt32.ofNat (Digits.leNat data)).toNat = data
    rw [UInt32.toNat_ofNat_of_lt' hlt]
    exact hback
  | true =>
    change Digits.leBytes 8 (UInt64.ofNat (Digits.leNat data)).toNat = data
    rw [UInt64.toNat_ofNat_of_lt' hlt]
    exact hback

section Standing

variable {bs mid rest : List UInt8} {notes notes' : List Note} {id : Id} {depth depth' : ℕ}
  {body : Resume}

/-- The body of a fixlen field. -/
theorem fixlenBody_renders {len : ℕ} {subtype : FixlenType}
    (hfp32 : subtype = .fp32 → len = 4) (hfp64 : subtype = .fp64 → len = 8)
    (h : readBody (fixlenBody id len subtype) bs = ⟨notes, .done () rest⟩) :
    ∃ data, data.length = len ∧ Renders bs notes rest (fixlenEvents id data subtype).tail data := by
  have hone {fp64 : Bool} (h : floats id fp64 1 bs = ⟨notes, .done () rest⟩) :
      ∃ data, data.length = elemLen fp64 ∧ Renders bs notes rest [.float fp64 id data] data := by
    obtain ⟨payloads, hcount, hsize, hrenders⟩ := floats_renders h
    obtain ⟨data, rfl⟩ := List.length_eq_one_iff.mp hcount
    rw [List.flatten_cons, List.flatten_nil, List.append_nil] at hrenders
    exact ⟨data, hsize data (List.mem_singleton.mpr rfl), hrenders⟩
  cases subtype with
  | fp32 =>
    obtain ⟨data, hlen, hrenders⟩ := @hone false h
    exact ⟨data, hlen.trans (hfp32 rfl).symm, hrenders⟩
  | fp64 =>
    obtain ⟨data, hlen, hrenders⟩ := @hone true h
    exact ⟨data, hlen.trans (hfp64 rfl).symm, hrenders⟩
  | str =>
    obtain ⟨data, rfl, hrenders⟩ := payload_renders h
    exact ⟨data, rfl, hrenders⟩
  | blob =>
    obtain ⟨data, rfl, hrenders⟩ := payload_renders h
    exact ⟨data, rfl, hrenders⟩

/-- The head of a fixlen field announces a subtype and asks for its body. -/
theorem fixlenHead_renders {a : ℕ × Resume}
    (h : fixlenHead depth id bs = ⟨notes, .done a rest⟩) :
    ∃ len subtype, len ≤ fixlenMax ∧ (subtype = .fp32 → len = 4) ∧ (subtype = .fp64 → len = 8) ∧
      a = (depth, fixlenBody id len subtype) ∧
        Renders bs notes rest [.fixlenBegin id subtype len]
          (Leb128.encode (len * 8 + subtype.tag.toNat)) := by
  obtain ⟨first, w, mid, second, hword, hnext, rfl⟩ := bind_eq_done h
  obtain ⟨_, hfirst⟩ := word_renders hword
  obtain ⟨hlen, hnext⟩ := demand_bind_done hnext
  have hsplit : w = w / 8 * 8 + w % 8 := by omega
  rw [hsplit] at hfirst
  rcases htag : w % 8 with _ | _ | _ | _ | tag
  all_goals rw [htag] at hnext hfirst
  · obtain ⟨hfour, hnext⟩ := demand_bind_done hnext
    obtain ⟨rfl, hsecond⟩ := announce_renders hnext
    exact ⟨w / 8, .fp32, hlen, fun _ => hfour, (by cases ·), rfl, hfirst.announced hsecond⟩
  · obtain ⟨height, hnext⟩ := demand_bind_done hnext
    obtain ⟨rfl, hsecond⟩ := announce_renders hnext
    exact ⟨w / 8, .fp64, hlen, (by cases ·), fun _ => height, rfl, hfirst.announced hsecond⟩
  · obtain ⟨rfl, hsecond⟩ := announce_renders hnext
    exact ⟨w / 8, .str, hlen, (by cases ·), (by cases ·), rfl, hfirst.announced hsecond⟩
  · obtain ⟨rfl, hsecond⟩ := announce_renders hnext
    exact ⟨w / 8, .blob, hlen, (by cases ·), (by cases ·), rfl, hfirst.announced hsecond⟩
  · cases hnext

/-- A fixlen field stands for `writeFixlen`. -/
theorem fixlen_stands (hid : id.toNat ≤ idMax) {a : ℕ × Resume}
    (hhead : fixlenHead depth id bs = ⟨notes, .done a mid⟩)
    (hbody : readBody a.2 mid = ⟨notes', .done () rest⟩) (hutf8 : Utf8 (calls notes')) :
    ∃ call, Stands depth (headerBytes id 2) bs (notes ++ notes') rest a.1 call := by
  obtain ⟨len, subtype, hlen, hfp32, hfp64, rfl, hfirst⟩ := fixlenHead_renders hhead
  obtain ⟨data, rfl, hsecond⟩ := fixlenBody_renders hfp32 hfp64 hbody
  have hmade := hsecond.made_eq
  refine ⟨.field (.fixlen id data subtype), ⟨hid, ?_, hlen⟩, rfl, by simp, ?_, ?_⟩
  · cases subtype with
    | fp32 => exact hfp32 rfl
    | fp64 => exact hfp64 rfl
    | str =>
      rw [hmade] at hutf8
      exact hutf8 id data.length 0 data (List.mem_singleton.mpr rfl)
    | blob => trivial
  · intro more
    cases subtype with
    | fp32 =>
      change replay (_ :: Callback.float false id data :: more) = _
      rw [replay, payloadBytes_float id (hfp32 rfl)]
    | fp64 =>
      change replay (_ :: Callback.float true id data :: more) = _
      rw [replay, payloadBytes_float id (hfp64 rfl)]
    | str =>
      change replay (_ :: Callback.string id data.length 0 data :: more) = _
      rw [replay, payloadBytes]
    | blob =>
      change replay (_ :: Callback.blob id data.length 0 data :: more) = _
      rw [replay, payloadBytes]
  · exact ⟨_, List.append_assoc _ _ _, hfirst.append hsecond⟩

/-- A scalar field stands for its writer. -/
theorem scalar_stands (signed : Bool) (hid : id.toNat ≤ idMax) {a : ℕ × Resume} {value : ℕ}
    (hword : word bs = ⟨notes, .done value mid⟩)
    (hcall : announce depth (.integer signed id (UInt64.ofNat value)) .none mid =
      ⟨notes', .done a rest⟩) :
    ∃ call, Stands depth (headerBytes id (if signed then 1 else 0)) bs (notes ++ notes') rest a.1
      call := by
  obtain ⟨hlt, hfirst⟩ := word_renders hword
  obtain ⟨rfl, hsecond⟩ := announce_renders hcall
  have hback : (UInt64.ofNat value).toNat = value := UInt64.toNat_ofNat_of_lt' hlt
  rw [← hback] at hfirst
  have hall := hfirst.announced hsecond
  cases signed with
  | false =>
    refine ⟨.field (.unsigned id (UInt64.ofNat value)), ⟨hid, trivial⟩, rfl, by simp, ?_, _, rfl,
      hall⟩
    intro more
    change replay (.unsigned id _ :: more) = _
    rw [replay]
  | true =>
    refine ⟨.field (.signed id (zigzagDecode (UInt64.ofNat value))), ⟨hid, trivial⟩, rfl, by simp,
      ?_, _, rfl, ?_⟩
    · intro more
      change replay (.signed id _ :: more) = _
      rw [replay]
    · rw [zigzagEncode_decode]
      exact hall

/-- Replaying an array takes the elements it counts. -/
theorem replay_array (id : Id) (kind : ArrayKind) (elements : List Callback) {count : ℕ}
    (hlen : elements.length = count) (more : List Callback) :
    replay (.arrayBegin id kind count :: (elements ++ more)) =
      .field (arrayField id kind elements) :: replay more := by
  rw [replay, List.take_left' hlen, List.drop_left' hlen]

/-- An array that was read stands for an array write with its elements. -/
theorem array_stands {front wire : List UInt8} {f : Field} {kind : ArrayKind}
    {elements : List Callback} (hvalid : f.Valid)
    (hevents : f.events = .arrayBegin id kind elements.length :: elements)
    (hfield : arrayField id kind elements = f) (hbytes : f.bytes = front ++ wire)
    (hrenders : Renders bs notes rest (.arrayBegin id kind elements.length :: elements) wire) :
    ∃ call, Stands depth front bs notes rest depth call := by
  refine ⟨.field f, hvalid, rfl, by simp, fun more => ?_, wire, hbytes, ?_⟩
  · rw [Call.events, hevents, List.cons_append, replay_array id kind elements rfl, hfield]
  · rw [Call.events, hevents]
    exact hrenders

/-- An integer array stands for the writer of its kind. -/
theorem integers_stands (signed : Bool) (hid : id.toNat ≤ idMax) {a : ℕ × Resume}
    (hhead : integersHead depth id signed bs = ⟨notes, .done a mid⟩)
    (hbody : readBody a.2 mid = ⟨notes', .done () rest⟩) :
    ∃ call, Stands depth (headerBytes id (if signed then 4 else 3)) bs (notes ++ notes') rest a.1
      call := by
  obtain ⟨first, count, mid', second, hword, hnext, rfl⟩ := bind_eq_done hhead
  obtain ⟨_, hfirst⟩ := word_renders hword
  obtain ⟨hcount, hnext⟩ := demand_bind_done hnext
  obtain ⟨rfl, hsecond⟩ := announce_renders hnext
  obtain ⟨values, rfl, hthird⟩ := integers_renders hbody
  have hlen : (values.map (Callback.integer signed id)).length = values.length :=
    List.length_map _
  have hall := (hfirst.announced hsecond).append hthird
  rw [List.singleton_append, ← hlen] at hall
  cases signed with
  | false =>
    have hvalues : (values.map (Callback.integer false id)).map unsignedValue = values :=
      Function.LeftInverse.list_map (fun _ => rfl) values
    have hwire : values.map UnsignedElem.widen = values := List.map_id values
    refine @array_stands _ _ _ id _ _ _ (.arrayUnsigned id values) .unsigned _ ⟨hid, hcount⟩
      ?_ (congrArg _ hvalues) ?_ hall
    · rw [hlen]
      rfl
    · rw [Field.bytes, hwire, integersBytes, List.append_assoc, hlen]
      rfl
  | true =>
    have hvalues : ((values.map (Callback.integer true id)).map signedValue) =
        values.map zigzagDecode := List.map_map
    have hsize : (values.map zigzagDecode).length = values.length := List.length_map _
    have hwire : ((values.map zigzagDecode).map fun e => zigzagEncode (SignedElem.widen e)) =
        values := Function.LeftInverse.list_map zigzagEncode_decode values
    refine @array_stands _ _ _ id _ _ _ (.arraySigned id (values.map zigzagDecode)) .signed _
      ⟨hid, hsize.trans_le hcount⟩ ?_ (congrArg _ hvalues) ?_ hall
    · rw [Field.events, hlen, hsize, List.map_map]
      rfl
    · rw [Field.bytes, hwire, integersBytes, List.append_assoc, hlen]
      rfl

/-- What the word of a float array can name. -/
theorem floatsOf_cases (depth : ℕ) (id : Id) (count w : ℕ) :
    floatsOf depth id count w = reject ∨ ∃ fp64,
      w = elemLen fp64 * 8 + (if fp64 then FixlenType.fp64 else .fp32).tag.toNat ∧
        floatsOf depth id count w = announce depth
          (.arrayBegin id (if fp64 then .fp64 else .fp32) count) (.arrayFix id fp64 count) := by
  have hsplit : w = w / 8 * 8 + w % 8 := by omega
  rw [floatsOf]
  split
  · next htag hlen =>
    rw [htag, hlen] at hsplit
    exact .inr ⟨false, hsplit, rfl⟩
  · next htag hlen =>
    rw [htag, hlen] at hsplit
    exact .inr ⟨true, hsplit, rfl⟩
  · exact .inl rfl

/-- The head of a float array announces a width. -/
theorem floatsHead_renders {a : ℕ × Resume}
    (h : floatsHead depth id bs = ⟨notes, .done a rest⟩) :
    ∃ count fp64, count ≤ arrayMax ∧ a = (depth, .arrayFix id fp64 count) ∧
      Renders bs notes rest [.arrayBegin id (if fp64 then .fp64 else .fp32) count]
        (Leb128.encode count ++
          Leb128.encode (elemLen fp64 * 8 + (if fp64 then FixlenType.fp64 else .fp32).tag.toNat)) := by
  obtain ⟨first, count, mid, second, hcount, hnext, rfl⟩ := bind_eq_done h
  obtain ⟨_, hfirst⟩ := word_renders hcount
  obtain ⟨hle, hnext⟩ := demand_bind_done hnext
  obtain ⟨third, w, mid', fourth, hword, hlast, rfl⟩ := bind_eq_done hnext
  obtain ⟨_, hsecond⟩ := word_renders hword
  rcases floatsOf_cases depth id count w with hreject | ⟨fp64, rfl, hannounce⟩
  · rw [hreject] at hlast
    cases hlast
  · rw [hannounce] at hlast
    obtain ⟨rfl, hthird⟩ := announce_renders hlast
    have hall := hfirst.append (hsecond.announced hthird)
    exact ⟨count, fp64, hle, rfl, hall⟩

/-- Float payloads come back from their callbacks. -/
theorem payloadBytes_floats {fp64 : Bool} (id : Id) {payloads : List (List UInt8)}
    (hsize : ∀ data ∈ payloads, data.length = elemLen fp64) :
    (payloads.map (.float fp64 id)).flatMap payloadBytes = payloads.flatten := by
  have hback : payloads.map (payloadBytes ∘ .float fp64 id) = payloads :=
    (List.map_congr_left fun data hmem => payloadBytes_float id (hsize data hmem)).trans
      (List.map_id payloads)
  rw [List.flatMap_def, List.map_map, hback]

/-- A float array stands for the writer of its width. -/
theorem floats_stands (hid : id.toNat ≤ idMax) {a : ℕ × Resume}
    (hhead : floatsHead depth id bs = ⟨notes, .done a mid⟩)
    (hbody : readBody a.2 mid = ⟨notes', .done () rest⟩) :
    ∃ call, Stands depth (headerBytes id 5) bs (notes ++ notes') rest a.1 call := by
  obtain ⟨count, fp64, hcount, rfl, hfirst⟩ := floatsHead_renders hhead
  obtain ⟨payloads, rfl, hsize, hsecond⟩ := floats_renders hbody
  have hlen : (payloads.map (Callback.float fp64 id)).length = payloads.length := List.length_map _
  have hall := hfirst.append hsecond
  rw [List.singleton_append, ← hlen, ← payloadBytes_floats id hsize, List.flatMap_map] at hall
  cases fp64 with
  | false =>
    let values := payloads.map fun data => UInt32.ofNat (Digits.leNat data)
    have hvalues : (payloads.map (Callback.float false id)).map f32Value = values := List.map_map
    have hcount' : values.length = payloads.length := List.length_map _
    refine @array_stands _ _ _ id _ _ _ (.arrayFp32 id values) .fp32 _
      ⟨hid, hcount'.trans_le hcount⟩ ?_ (congrArg _ hvalues) ?_ hall
    · rw [Field.events, hlen, hcount', List.map_map]
      rfl
    · rw [Field.bytes, floatsBytes, hcount', hlen, List.flatMap_map, List.append_assoc,
        List.append_assoc, List.append_assoc]
      rfl
  | true =>
    let values := payloads.map fun data => UInt64.ofNat (Digits.leNat data)
    have hvalues : (payloads.map (Callback.float true id)).map f64Value = values := List.map_map
    have hcount' : values.length = payloads.length := List.length_map _
    refine @array_stands _ _ _ id _ _ _ (.arrayFp64 id values) .fp64 _
      ⟨hid, hcount'.trans_le hcount⟩ ?_ (congrArg _ hvalues) ?_ hall
    · rw [Field.events, hlen, hcount', List.map_map]
      rfl
    · rw [Field.bytes, floatsBytes, hcount', hlen, List.flatMap_map, List.append_assoc,
        List.append_assoc, List.append_assoc]
      rfl

/-- The canonical spelling of the header of a field. -/
def frontWire (id : Id) (wireType : ℕ) : List UInt8 :=
  if wireType = 7 then endMarker else headerBytes id wireType

/-- A sequence header stands for the call that opens or closes the sequence. -/
theorem frame_stands (call : Call) {p : Prop} [Decidable p] {c : Callback} {a : ℕ × Resume}
    (hhead : (demand p >>= fun _ => announce depth' c .none) bs = ⟨notes, .done a mid⟩)
    (hbody : readBody a.2 mid = ⟨notes', .done () rest⟩) (hallowed : p → call.Allowed depth)
    (hdepth : call.depthAfter depth = depth') (hkept : call ≠ .sequenceEnd)
    (hevents : call.events = [c]) (hreplay : ∀ more, replay (c :: more) = call :: replay more) :
    Stands depth call.wire bs (notes ++ notes') rest a.1 call := by
  obtain ⟨hp, hcall⟩ := demand_bind_done hhead
  obtain ⟨rfl, hrenders⟩ := announce_renders hcall
  cases hbody
  rw [List.append_nil]
  refine ⟨hallowed hp, hdepth, hkept, ?_, [], (List.append_nil _).symm, ?_⟩
  · rwa [hevents]
  · rwa [hevents]

/-- What follows a header stands for a call. -/
theorem typedHead_stands (hid : id.toNat ≤ idMax) {wireType : ℕ} (htype : wireType < 8)
    {a : ℕ × Resume} (hhead : typedHead depth id wireType bs = ⟨notes, .done a mid⟩)
    (hbody : readBody a.2 mid = ⟨notes', .done () rest⟩) (hutf8 : Utf8 (calls notes')) :
    ∃ call, Stands depth (frontWire id wireType) bs (notes ++ notes') rest a.1 call := by
  have hscalar (signed : Bool) (hhead : (word >>= fun value => announce depth
      (.integer signed id (UInt64.ofNat value)) .none) bs = ⟨notes, .done a mid⟩) :
      ∃ call, Stands depth (headerBytes id (if signed then 1 else 0)) bs (notes ++ notes') rest a.1
        call := by
    obtain ⟨first, value, mid', second, hword, hcall, rfl⟩ := bind_eq_done hhead
    obtain ⟨rfl, _⟩ := announce_renders hcall
    cases hbody
    rw [List.append_nil]
    exact scalar_stands signed hid hword hcall
  rcases wireType with _ | _ | _ | _ | _ | _ | _ | _ | _
  · exact hscalar false hhead
  · exact hscalar true hhead
  · exact fixlen_stands hid hhead hbody hutf8
  · exact integers_stands false hid hhead hbody
  · exact integers_stands true hid hhead hbody
  · exact floats_stands hid hhead hbody
  · exact ⟨_, frame_stands (.sequenceBeginLazy id) hhead hbody (fun hopen => ⟨hopen, hid⟩) rfl
      (by simp) rfl fun more => by rw [replay]⟩
  · exact ⟨_, frame_stands .sequenceEndKeep hhead hbody Nat.ne_of_gt rfl (by simp) rfl
      fun more => by rw [replay]⟩
  · omega

/-- A field that was read stands for a call. -/
theorem readField_stands (h : readField depth bs = ⟨notes, .done depth' rest⟩)
    (hutf8 : Utf8 (calls notes)) : ∃ call, Stands depth [] bs notes rest depth' call := by
  obtain ⟨first, a, mid, second, hhead, hbody, rfl⟩ := bind_eq_done h
  obtain ⟨third, hvalue, mid', fourth, hheader, hfield, rfl⟩ := bind_eq_done hhead
  obtain ⟨fifth, _, rest', last, hread, hpure, rfl⟩ := bind_eq_done hbody
  cases hpure
  obtain ⟨hlt, hfirst⟩ := header_renders hheader
  obtain ⟨hid, htyped⟩ := demand_bind_done hfield
  have hback : (UInt32.ofNat (hvalue / 8)).toNat = hvalue / 8 := by
    have hmax : idMax < UInt32.size := by decide
    exact UInt32.toNat_ofNat_of_lt' (hid.trans_lt hmax)
  have hfront : frontWire (UInt32.ofNat (hvalue / 8)) (hvalue % 8) = headerWire hvalue := by
    have hsplit : hvalue / 8 * 8 + hvalue % 8 = hvalue := by omega
    rw [frontWire, headerWire, headerBytes, hback, hsplit]
  rw [List.append_nil] at hutf8 ⊢
  rw [calls_append] at hutf8
  obtain ⟨call, hstands⟩ := typedHead_stands (hback.trans_le hid) (Nat.mod_lt _ (by decide)) htyped
    hread hutf8.right
  obtain ⟨wire, hwire, hrest⟩ := hstands.renders
  rw [hfront] at hwire
  refine ⟨call, hstands.allowed, hstands.depth_eq, hstands.kept, hstands.replays, call.wire, rfl, ?_⟩
  rw [hwire, List.append_assoc]
  exact hfirst.append hrest

end Standing

end Sofab
