import Sofab.Restart
import Sofab.Visitor

/-!
# The generated decoder

What the code generator emits to read a message of an unsigned field and a string: a visitor that
binds the one and reassembles the other by itself, and a decoder that holds it between chunks. The
stream below knows nothing of the schema.
-/

namespace Sofab.Generated

open IStream Reading Reading.Reader

/-- A message whose schema bounds every field. -/
structure Bounded where
  x : Unsigned
  tag : String
  deriving DecidableEq, Repr

/-- The message before anything is decoded. -/
def Bounded.default : Bounded := ⟨0, ""⟩

/-- `core::str::from_utf8`. -/
def fromUtf8 (data : List UInt8) : Option String := String.fromUTF8? ⟨data.toArray⟩

/-- The visitor half of the decoder. -/
structure V where
  m : Bounded
  acc : List UInt8
  inv : Bool

namespace V

/-- Bind the string if its bytes are one. -/
def assign (v : V) (payload : List UInt8) : V :=
  match fromUtf8 payload with
  | some s => { v with m := { v.m with tag := s } }
  | none => { v with inv := true }

/-- Bind the number, which has id 1. -/
def unsigned (v : V) (id : Id) (value : Unsigned) : V :=
  if id = 1 then { v with m := { v.m with x := value } } else v

/-- Bind the text, which has id 2, put together over its pieces. -/
def string (v : V) (id : Id) (total offset : ℕ) (chunk : List UInt8) : V :=
  if id ≠ 2 then v
  else
    let v := if offset = 0 then { v with acc := [] } else v
    if offset = 0 ∧ total ≤ chunk.length then
      v.assign (chunk.take total)
    else
      let v := { v with acc := v.acc ++ chunk }
      if v.acc.length < total then v else v.assign (v.acc.take total)

/-- The other callbacks do nothing. -/
def hears (v : V) : Callback → V
  | .unsigned id value => v.unsigned id value
  | .string id total offset chunk => v.string id total offset chunk
  | _ => v

end V

/-- The generated reader. -/
structure Decoder where
  m : Bounded
  is_ : IStream
  acc : List UInt8
  inv : Bool

namespace Decoder

/-- An empty message and a new stream. -/
def new : Decoder := ⟨.default, .new, [], false⟩

/-- Feed a chunk; a string that is none dominates what the stream reports. -/
def feed (dec : Decoder) (chunk : List UInt8) : Decoder × Except Error Status :=
  let fed := IStream.feed chunk dec.is_
  let v := listen V.hears ⟨dec.m, dec.acc, dec.inv⟩ fed.calls
  (⟨v.m, fed.is, v.acc, v.inv⟩, if v.inv then .error .invalidMsg else fed.result)

/-- Feed a non-empty list of chunks in order, whatever each one reports. -/
def feedAll (dec : Decoder) (chunk : List UInt8) : List (List UInt8) → Decoder × Except Error Status
  | [] => dec.feed chunk
  | next :: rest => (dec.feed chunk).1.feedAll next rest

/-- The message assembled so far. -/
def value (dec : Decoder) : Bounded := dec.m

end Decoder

/-! ## What the decoder makes of the callbacks -/

/-- The value for the unsigned field. -/
def number : Callback → Option Unsigned
  | .unsigned id value => if id = 1 then some value else none
  | _ => none

/-- The payload for the string field, in case it is whole: what `from_utf8` makes of it. -/
def text : Callback → Option (Option String)
  | .string id total _ chunk =>
    if id = 2 ∧ chunk.length = total then some (fromUtf8 chunk) else none
  | _ => none

/-- The last that some callbacks deliver, or what there was. -/
def latest {α : Type} (gives : Callback → Option α) (a : α) (cs : List Callback) : α :=
  ((cs.filterMap gives).getLast?).getD a

/-- The message that whole callbacks bind. -/
def bound (cs : List Callback) : Bounded :=
  ⟨latest number 0 cs, latest (fun c => (text c).join) "" cs⟩

/-- Among the payloads for the string field is one that is not a string. -/
def Malformed (cs : List Callback) : Prop := ∃ c ∈ cs, text c = some none

instance (cs : List Callback) : Decidable (Malformed cs) := by
  unfold Malformed
  infer_instance

/-- The last value given stays, unless the next callback gives one. -/
theorem latest_append {α : Type} (gives : Callback → Option α) (a : α) (cs : List Callback)
    (c : Callback) : latest gives a (cs ++ [c]) = (gives c).getD (latest gives a cs) := by
  unfold latest
  rw [List.filterMap_append, List.getLast?_append]
  cases hgives : gives c with
  | none => simp [hgives]
  | some b => simp [hgives]

/-- A callback that gives no value leaves the bound message as it is. -/
theorem bound_append (cs : List Callback) (c : Callback) : bound (cs ++ [c]) =
    ⟨(number c).getD (bound cs).x, ((text c).join).getD (bound cs).tag⟩ :=
  congrArg₂ Bounded.mk (latest_append _ _ cs c) (latest_append _ _ cs c)

/-- Callbacks are malformed if they were before the last, or that one gives no text. -/
theorem malformed_append (cs : List Callback) (c : Callback) :
    Malformed (cs ++ [c]) ↔ Malformed cs ∨ text c = some none := by
  simp [Malformed, or_and_right, exists_or]

namespace V

variable {v : V} {id : Id} {total : ℕ} {chunk : List UInt8}

/-- A string of another field is not looked at. -/
theorem string_other (v : V) (hid : id ≠ 2) (total offset : ℕ) (chunk : List UInt8) :
    v.string id total offset chunk = v :=
  if_pos hid

/-- A first piece starts the buffer anew, and is assigned at once if it is the whole string. -/
theorem string_start (v : V) (total : ℕ) (chunk : List UInt8) :
    v.string 2 total 0 chunk =
      if chunk.length < total then { v with acc := chunk }
      else { v with acc := [] }.assign (chunk.take total) := by
  by_cases hshort : chunk.length < total
  · simp [string, hshort, Nat.not_le.mpr hshort]
  · simp [string, hshort, Nat.not_lt.mp hshort]

/-- A later piece is put behind the ones before it, and all of them are assigned once there. -/
theorem string_later (v : V) (total : ℕ) {offset : ℕ} (hpos : offset ≠ 0) (chunk : List UInt8) :
    v.string 2 total offset chunk =
      if (v.acc ++ chunk).length < total then { v with acc := v.acc ++ chunk }
      else { v with acc := v.acc ++ chunk }.assign ((v.acc ++ chunk).take total) := by
  simp [string, hpos]

/-- The visitor has bound what whole callbacks bind. -/
structure Binds (v : V) (cs : List Callback) : Prop where
  message : v.m = bound cs
  inv : v.inv = true ↔ Malformed cs

variable {w : V} {cs : List Callback} {c : Callback}

/-- What delivers neither a value nor a payload changes nothing. -/
theorem Binds.skip (h : v.Binds cs) (hm : w.m = v.m) (hinv : w.inv = v.inv)
    (hnumber : number c = none) (htext : text c = none) : w.Binds (cs ++ [c]) where
  message := by
    rw [hm, h.message, bound_append, hnumber, htext]
    rfl
  inv := by
    rw [hinv, h.inv, malformed_append, htext]
    simp

/-- A payload that is whole is bound, or found not to be a string. -/
theorem Binds.assign {payload : List UInt8} (h : v.Binds cs) (hm : w.m = v.m)
    (hinv : w.inv = v.inv) (hnumber : number c = none) (htext : text c = some (fromUtf8 payload)) :
    (w.assign payload).Binds (cs ++ [c]) := by
  have hmessage : bound (cs ++ [c]) = ⟨w.m.x, (fromUtf8 payload).getD w.m.tag⟩ := by
    rw [hm, h.message, bound_append, hnumber, htext]
    rfl
  unfold V.assign
  cases hutf8 : fromUtf8 payload with
  | none =>
    rw [hutf8] at hmessage htext
    exact ⟨hmessage.symm, by simp [malformed_append, htext]⟩
  | some s =>
    rw [hutf8] at hmessage htext
    refine ⟨hmessage.symm, ?_⟩
    rw [malformed_append, htext, ← h.inv, ← hinv]
    simp

/-- A callback that starts its payload, or has none. -/
theorem Binds.hears (h : v.Binds cs) (hstart : FromStart c) (hwithin : Within c) :
    (v.hears c).Binds (cs ++ [c]) := by
  cases c with
  | unsigned id value =>
    by_cases hid : id = 1
    · subst hid
      constructor
      · rw [bound_append, ← h.message]
        rfl
      · change v.inv = true ↔ _
        rw [h.inv, malformed_append]
        simp [text]
    · have hskip : v.hears (.unsigned id value) = v := if_neg hid
      rw [hskip]
      exact h.skip rfl rfl (if_neg hid) rfl
  | string id total offset chunk =>
    obtain rfl : offset = 0 := hstart
    by_cases hid : id = 2
    · subst hid
      change (v.string 2 total 0 chunk).Binds _
      rw [string_start]
      split
      · next hshort => exact h.skip rfl rfl rfl (if_neg fun hwhole => absurd hwhole.2 hshort.ne)
      · next hshort =>
        have hlen : chunk.length = total := by
          have hle : 0 + chunk.length ≤ total := hwithin
          omega
        refine h.assign rfl rfl rfl ?_
        rw [List.take_of_length_le hlen.le]
        exact if_pos ⟨rfl, hlen⟩
    · have hskip : v.hears (.string id total 0 chunk) = v := string_other v hid total 0 chunk
      rw [hskip]
      exact h.skip rfl rfl rfl (if_neg fun hwhole => hid hwhole.1)
  | _ => exact h.skip rfl rfl rfl rfl

/-- The visitor has bound what the callbacks before a payload in pieces bind, and holds the pieces
if they are of the string field. -/
structure Holds (isBlob : Bool) (id : Id) (seen : List UInt8) (v : V) (cs : List Callback) : Prop
    extends v.Binds cs where
  acc : isBlob = false → id = 2 → v.acc = seen

/-- The visitor does not see how payloads are cut. -/
theorem seamless : Seamless V.hears (fun cs c => cs ++ [c]) Binds
    (fun isBlob id _ seen v cs => Holds isBlob id seen v cs) where
  call h hstart hwithin := h.hears hstart hwithin
  first {v cs isBlob id total chunk} h hne hmore := by
    cases isBlob with
    | true => exact ⟨h, fun habsurd => by cases habsurd⟩
    | false =>
      by_cases hid : id = 2
      · subst hid
        change Holds false 2 chunk (v.string 2 total 0 chunk) cs
        rw [string_start, if_pos hmore]
        exact ⟨⟨h.message, h.inv⟩, fun _ _ => rfl⟩
      · change Holds false id chunk (v.string id total 0 chunk) cs
        rw [string_other v hid]
        exact ⟨h, fun _ habsurd => absurd habsurd hid⟩
  next {v cs isBlob id total seen chunk} h hbegun hne hmore := by
    cases isBlob with
    | true => exact ⟨h.toBinds, fun habsurd => by cases habsurd⟩
    | false =>
      by_cases hid : id = 2
      · subst hid
        have hacc := h.acc rfl rfl
        change Holds false 2 (seen ++ chunk) (v.string 2 total seen.length chunk) cs
        rw [string_later v total (by simpa using hbegun), hacc,
          if_pos (by rwa [List.length_append])]
        exact ⟨⟨h.message, h.inv⟩, fun _ _ => rfl⟩
      · change Holds false id (seen ++ chunk) (v.string id total seen.length chunk) cs
        rw [string_other v hid]
        exact ⟨h.toBinds, fun _ habsurd => absurd habsurd hid⟩
  last {v cs isBlob id total seen chunk} h hbegun hne hfits := by
    cases isBlob with
    | true => exact h.toBinds.skip rfl rfl rfl rfl
    | false =>
      by_cases hid : id = 2
      · subst hid
        change (v.string 2 total seen.length chunk).Binds
          (cs ++ [.string 2 total 0 (seen ++ chunk)])
        rw [string_later v total (by simpa using hbegun), h.acc rfl rfl]
        split
        · next hshort =>
          exact h.toBinds.skip rfl rfl rfl (if_neg fun hwhole => absurd hwhole.2 hshort.ne)
        · next hshort =>
          have hlen : (seen ++ chunk).length = total := by
            rw [List.length_append] at hshort ⊢
            omega
          refine h.toBinds.assign rfl rfl rfl ?_
          rw [List.take_of_length_le hlen.le]
          exact if_pos ⟨rfl, hlen⟩
      · change (v.string id total seen.length chunk).Binds
          (cs ++ [.string id total 0 (seen ++ chunk)])
        rw [string_other v hid]
        exact h.toBinds.skip rfl rfl rfl (if_neg fun hwhole => hid hwhole.1)

end V

/-- Feeding the decoder feeds its stream and has its visitor listen. -/
theorem Decoder.feedAll_eq (dec : Decoder) (chunk : List UInt8) (rest : List (List UInt8)) :
    let run := IStream.feedAll dec.is_ chunk rest
    let v := listen V.hears ⟨dec.m, dec.acc, dec.inv⟩ run.calls
    dec.feedAll chunk rest =
      (⟨v.m, run.is, v.acc, v.inv⟩, if v.inv then .error .invalidMsg else run.result) := by
  induction rest generalizing dec chunk with
  | nil => rfl
  | cons next rest ih =>
    rw [feedAll, ih]
    simp only [IStream.feedAll, Parsed.after, listen_append]
    rfl

/-- What the decoder has bound and reports after some chunks. -/
theorem decoder_told (chunk : List UInt8) (rest : List (List UInt8)) :
    let whole := decode (chunk :: rest).flatten
    (Decoder.new.feedAll chunk rest).1.value = bound whole.calls ∧
      (Decoder.new.feedAll chunk rest).2 =
        if Malformed whole.calls then .error .invalidMsg else whole.result := by
  intro whole
  have hstart : V.Binds ⟨.default, [], false⟩ [] := ⟨rfl, by simp [Malformed]⟩
  have hbinds := V.seamless.fed hstart chunk rest
  rw [listen_snoc, List.nil_append] at hbinds
  rw [Decoder.feedAll_eq]
  refine ⟨hbinds.message, ?_⟩
  obtain ⟨hresult, -⟩ := feedAll_new_reads chunk rest
  have hverdict : (IStream.feedAll IStream.new chunk rest).result = whole.result :=
    hresult.trans (decode_result _).symm
  by_cases hbad : Malformed whole.calls
  · rw [if_pos hbad]
    exact if_pos (hbinds.inv.mpr hbad)
  · rw [if_neg hbad, ← hverdict]
    exact if_neg fun hinv => hbad (hbinds.inv.mp hinv)

/-! ### Rejecting for good -/

/-- The decoder has found a payload that is not a string, or its stream has rejected the message. -/
def Decoder.Rejected (dec : Decoder) : Prop := dec.inv = true ∨ dec.is_.invalid = true

namespace V

/-- Assigning a payload does not take a rejection back. -/
theorem assign_inv {v : V} (h : v.inv = true) (payload : List UInt8) :
    (v.assign payload).inv = true := by
  unfold assign
  split
  · exact h
  · rfl

/-- No callback takes a rejection back. -/
theorem hears_inv {v : V} (h : v.inv = true) (c : Callback) : (v.hears c).inv = true := by
  cases c with
  | unsigned id value =>
    change (v.unsigned id value).inv = true
    unfold unsigned
    split <;> exact h
  | string id total offset chunk =>
    by_cases hid : id = 2
    · subst hid
      change (v.string 2 total offset chunk).inv = true
      by_cases hstart : offset = 0
      · subst hstart
        rw [string_start]
        split
        · exact h
        · exact assign_inv (v := { v with acc := [] }) h _
      · rw [string_later v total hstart]
        split
        · exact h
        · exact assign_inv (v := { v with acc := v.acc ++ chunk }) h _
    · change (v.string id total offset chunk).inv = true
      rwa [string_other v hid]
  | _ => exact h

/-- No run of callbacks takes a rejection back. -/
theorem listen_inv {v : V} (h : v.inv = true) (cs : List Callback) :
    (listen hears v cs).inv = true := by
  induction cs generalizing v with
  | nil => exact h
  | cons c cs ih => exact ih (hears_inv h c)

end V

namespace Decoder

variable {dec : Decoder} {bytes : List UInt8}

/-- A decoder that has rejected rejects the next chunk, and goes on rejecting. -/
theorem Rejected.feed (h : dec.Rejected) (chunk : List UInt8) :
    (dec.feed chunk).2 = .error .invalidMsg ∧ (dec.feed chunk).1.Rejected := by
  rcases h with hinv | hinvalid
  · have hlater : (listen V.hears ⟨dec.m, dec.acc, dec.inv⟩
        (IStream.feed chunk dec.is_).calls).inv = true := V.listen_inv hinv _
    exact ⟨if_pos hlater, .inl hlater⟩
  · unfold Decoder.feed
    rw [feed_of_invalid hinvalid]
    exact ⟨ite_self _, .inr hinvalid⟩

/-- A decoder that has rejected rejects all chunks. -/
theorem Rejected.feedAll (h : dec.Rejected) (chunk : List UInt8) (rest : List (List UInt8)) :
    (dec.feedAll chunk rest).2 = .error .invalidMsg := by
  induction rest generalizing dec chunk with
  | nil => exact (h.feed chunk).1
  | cons next rest ih => exact ih (h.feed chunk).2 next

/-- A decoder that reports an error has rejected the message. -/
theorem feed_rejected (hfed : Fed bytes dec.is_) {chunk : List UInt8} {e : Error}
    (herror : (dec.feed chunk).2 = .error e) : (dec.feed chunk).1.Rejected := by
  by_cases hinv : (dec.feed chunk).1.inv = true
  · exact .inl hinv
  · have hresult : (IStream.feed chunk dec.is_).result = .error e := (if_neg hinv).symm.trans herror
    exact .inr (hfed.latched hresult)

/-- A decoder that reports an error has rejected. -/
theorem feedAll_rejected (hfed : Fed bytes dec.is_) {chunk : List UInt8}
    {rest : List (List UInt8)} {e : Error} (herror : (dec.feedAll chunk rest).2 = .error e) :
    (dec.feedAll chunk rest).1.Rejected := by
  induction rest generalizing dec bytes chunk with
  | nil => exact feed_rejected hfed herror
  | cons next rest ih => exact ih (hfed.feed chunk) herror

/-- Chunks are fed one list after the other. -/
theorem feedAll_append (dec : Decoder) (chunk next : List UInt8) (rest later : List (List UInt8)) :
    dec.feedAll chunk (rest ++ next :: later) = (dec.feedAll chunk rest).1.feedAll next later := by
  induction rest generalizing dec chunk with
  | nil => rfl
  | cons more rest ih => exact ih (dec.feed chunk).1 more

end Decoder

/-- However the bytes are cut into chunks, the decoder has bound what the callbacks of one-shot
decoding bind, and reports `invalidMsg` if a whole payload among them is not a string, otherwise
what one-shot decoding reports. Once it has reported an error it reports `invalidMsg` whatever else
it is fed. -/
theorem decoder_exact (chunk : List UInt8) (rest : List (List UInt8)) :
    (Decoder.new.feedAll chunk rest).1.value = bound (decode (chunk :: rest).flatten).calls ∧
      (Decoder.new.feedAll chunk rest).2 =
        (if Malformed (decode (chunk :: rest).flatten).calls then .error .invalidMsg
          else (decode (chunk :: rest).flatten).result) ∧
      ∀ e next later, (Decoder.new.feedAll chunk rest).2 = .error e →
        (Decoder.new.feedAll chunk (rest ++ next :: later)).2 = .error .invalidMsg := by
  obtain ⟨hvalue, hresult⟩ := decoder_told chunk rest
  refine ⟨hvalue, hresult, fun e next later herror => ?_⟩
  rw [Decoder.feedAll_append]
  exact (Decoder.feedAll_rejected Fed.new herror).feedAll next later

end Sofab.Generated
