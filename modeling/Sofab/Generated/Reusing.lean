import Sofab.Canonical
import Sofab.Limits
import Sofab.Placement
import Sofab.Generated.Encoders

/-!
# A message that is decoded into again

What the code generator emits to decode into a destination that an earlier message was decoded
into: the slots of the string array are taken over one by one as they arrive, and what is left of
the earlier ones is cut off at the end. A visitor that panics is left as it is.
-/

namespace Sofab.Generated

open Steps Step OStream SeqVec LawfulSeqVec

/-- `message { n: u64 = 1; tags: array<string> = 4; }`, with what a decode keeps track of. `tags`
comes with the number of slots this decode has made. -/
structure Msg where
  n : Unsigned
  tags : Reused (Vec String)
  depth : ℕ
  inTags : Bool
  slot : Option ℕ

/-- What a method does that returns or panics. -/
abbrev MsgM := Step Msg Empty

/-- Take a value or panic. -/
def unwrap {α : Type} : Option α → MsgM α
  | some a => pure a
  | none => fun m => (m, .unwound)

namespace Msg

/-- An empty message. -/
def default : Msg := ⟨0, ⟨⟨[]⟩, 0⟩, 0, false, none⟩

/-- Reserve a slot of the array or panic. -/
def expectSlot (reserve : Step (Reused (Vec String)) Error ℕ) : MsgM ℕ := fun m =>
  match reserve m.tags with
  | (tags, .ok i) => ({ m with tags := tags }, .ok i)
  | (tags, _) => ({ m with tags := tags }, .unwound)

/-- Append to the string in a slot, which panics if there is none. -/
def pushStr (i : ℕ) (text : String) : MsgM Unit := fun m =>
  if i < len m.tags.out then
    ({ m with tags := { m.tags with out := modify m.tags.out i (· ++ text) } }, .ok ())
  else
    (m, .unwound)

/-- Bind the number, which has id 1 outside the array. -/
def unsigned (id : Id) (value : Unsigned) : MsgM Unit :=
  update fun m => if m.depth = 0 ∧ id = 1 then { m with n := value } else m

/-- The array, which has id 4, begins anew each time it opens. -/
def sequenceBegin (id : Id) : MsgM Unit :=
  update fun m =>
    let m := { m with depth := m.depth + 1 }
    if m.depth = 1 ∧ id = 4 then
      -- a repeated array field replaces the earlier occurrence
      { m with inTags := true, tags := { m.tags with live := 0 } }
    else
      m

/-- Closing the outermost sequence leaves the array. There must be one to close. -/
def sequenceEnd : MsgM Unit := fun m =>
  let m := if m.depth = 1 then { m with inTags := false } else m
  if m.depth = 0 then (m, .unwound) else ({ m with depth := m.depth - 1 }, .ok ())

/-- An element of the array, whose slot is reserved with its first piece. -/
def string (id : Id) (_total offset : ℕ) (chunk : List UInt8) : MsgM Unit := do
  let m ← self
  if ¬(m.inTags ∧ m.depth = 1) then
    pure ()
  else if offset = 0 then do
    let i ← expectSlot (reuseLeaf id (.cap 16) fun _ => "")
    update fun m => { m with slot := some id.toNat }
    let text ← unwrap (fromUtf8 chunk)
    pushStr i text
  else
    match m.slot with
    | none => pure ()
    | some i => do
      let text ← unwrap (fromUtf8 chunk)
      pushStr i text

/-- The other callbacks do nothing. -/
def hears : Callback → MsgM Unit
  | .unsigned id value => unsigned id value
  | .sequenceBegin id => sequenceBegin id
  | .sequenceEnd => sequenceEnd
  | .string id total offset chunk => string id total offset chunk
  | _ => pure ()

/-- Forget an earlier decode, but for the slots. -/
def restart (m : Msg) : Msg := ⟨0, { m.tags with live := 0 }, 0, false, none⟩

/-- Cut off the slots that this decode did not make. -/
def cut (m : Msg) : Msg := { m with tags := { m.tags with out := truncate m.tags.out m.tags.live } }

/-- Reset before the decode, truncate after it whatever it returned. -/
def decodeInto (buf : List UInt8) : MsgM (Except Error Status) := do
  update restart
  inOrder hears (Sofab.decode buf).calls
  update cut
  pure (Sofab.decode buf).result

/-- A default number is not written. -/
def writeNumber (n : Unsigned) : EncodeM Unit := if n ≠ 0 then writeUnsigned 1 n else pure ()

/-- The array may be absent, or empty. -/
def writeTags : Option (List (Id × String)) → EncodeM Unit
  | none => pure ()
  | some tags => do
    writeSequenceBeginLazy 4
    inOrder (fun tag => writeStr tag.1 tag.2) tags
    writeSequenceEndKeep

/-- Encode into one buffer, or panic. -/
def encode (n : Unsigned) (tags : Option (List (Id × String))) : Option (List UInt8) :=
  let written : EncodeM Unit := do
    writeNumber n
    writeTags tags
  match written (.new (List.replicate 512 0)) with
  | (os, .ok ()) => some (os.buffer.take os.bytesUsed)
  | _ => none

end Msg

/-! ## What a string of the array does -/

/-- A reservation within the cap hands back the slot of that id. -/
theorem leaf_reserved {reused : Reused (Vec String)} (hlive : reused.live ≤ len reused.out) {id : Id}
    (hid : id.toNat < 16) :
    ∃ reused', reuseLeaf id (.cap 16) (fun _ => "") reused = (reused', .ok id.toNat) ∧
      id.toNat < len reused'.out := by
  obtain ⟨out, live⟩ := reused
  replace hlive : live ≤ (slots out).length := hlive
  have hcheck : checkIndex id (.cap 16) = .ok () := (checkIndex_eq id (.cap 16)).trans (if_pos hid)
  by_cases hbelow : id.toNat < live
  · obtain ⟨out', hreuse, hslots⟩ := reuseSlot_below hcheck true (fun _ => "") hlive hbelow
    refine ⟨_, hreuse, ?_⟩
    rw [len_eq, hslots, List.length_modify]
    exact hbelow.trans_le hlive
  · obtain ⟨out', hreuse, hlen, -⟩ :=
      reuseSlot_past hcheck trivial true (fun _ => rfl) hlive (Nat.le_of_not_lt hbelow)
    exact ⟨_, hreuse, hlen⟩

/-- The string that is appended to it lands in that slot. -/
theorem leaf_lands {reused : Reused (Vec String)} {fresh : Vec String} (h : LikeFresh reused fresh)
    {id : Id} (hid : id.toNat < 16) (text : String) :
    ∃ reused', reuseLeaf id (.cap 16) (fun _ => "") reused = (reused', .ok id.toNat) ∧
      id.toNat < len reused'.out ∧
      LikeFresh { reused' with out := modify reused'.out id.toNat (· ++ text) }
        ⟨land id.toNat (fun _ => text) fresh.slots⟩ := by
  obtain ⟨reused', hreuse, hlen⟩ := leaf_reserved h.live_le hid
  obtain ⟨replace, hlands⟩ := Lands.of_twins (C := Vec String) (.leaf (fun _ => "") fun _ => rfl)
  have hlike := (h.element hlands id (.cap 16) (· ++ text)).2
  have hlimit (n : ℕ) : Holds (Vec String) n ↔ ∀ N ∈ (none : Option ℕ), n ≤ N := by simp [Holds]
  have hobeys := obeys_place (C := Vec String) hlimit
  obtain ⟨fresh', hplace, hslots⟩ := hobeys.landed ⟨id, .cap 16, "" ++ text⟩ fresh
    (by simp [Placement.answer, admission, Bound.size, hid])
  rw [reuseThen, bind_ok hreuse] at hlike
  change LikeFresh _ (Placement.run ⟨id, .cap 16, "" ++ text⟩ fresh).1 at hlike
  rw [hplace] at hlike
  rw [String.empty_append] at hslots
  refine ⟨reused', hreuse, hlen, hlike.live_le, ?_⟩
  exact hslots.symm.trans hlike.slots_eq

/-- A reservation past the cap is refused. -/
theorem leaf_refused (reused : Reused (Vec String)) {id : Id} (hid : ¬id.toNat < 16) :
    reuseLeaf id (.cap 16) (fun _ => "") reused = (reused, .err .limitExceeded) :=
  reuseSlot_refused ((checkIndex_eq id (.cap 16)).trans (if_neg hid)) true _ reused

namespace Msg

variable {m m' : Msg} {id : Id} {chunk : List UInt8} {text : String}

/-- Outside the array a string is skipped. -/
theorem string_skipped (houtside : ¬(m.inTags = true ∧ m.depth = 1)) (total offset : ℕ) :
    string id total offset chunk m = (m, .ok ()) := by
  rw [string, self_bind, if_pos houtside]
  rfl

/-- The start of a string panics past the cap, and on what is no text. -/
theorem string_panics (hinside : m.inTags = true ∧ m.depth = 1)
    (hlive : m.tags.live ≤ len m.tags.out) (hbad : ¬id.toNat < 16 ∨ fromUtf8 chunk = none)
    (total : ℕ) : (string id total 0 chunk m).2 = .unwound := by
  rw [string, self_bind, if_neg (not_not.mpr hinside), if_pos rfl]
  by_cases hid : id.toNat < 16
  · obtain ⟨tags', hreuse, -⟩ := leaf_reserved hlive hid
    have hslot : expectSlot (reuseLeaf id (.cap 16) fun _ => "") m =
        ({ m with tags := tags' }, .ok id.toNat) := by
      rw [expectSlot, hreuse]
    rw [bind_ok hslot, update_bind, hbad.resolve_left (not_not.mpr hid), unwrap]
    rfl
  · have hslot : expectSlot (reuseLeaf id (.cap 16) fun _ => "") m = (m, .unwound) := by
      rw [expectSlot, leaf_refused m.tags hid]
    rw [bind_unwound hslot]

/-- The start of a string lands in its slot. -/
theorem string_lands (hinside : m.inTags = true ∧ m.depth = 1) {fresh : Vec String}
    (hlike : LikeFresh m.tags fresh) (hid : id.toNat < 16) (htext : fromUtf8 chunk = some text)
    (total : ℕ) :
    ∃ tags', string id total 0 chunk m = ({ m with tags := tags', slot := some id.toNat }, .ok ()) ∧
      LikeFresh tags' ⟨land id.toNat (fun _ => text) fresh.slots⟩ ∧ id.toNat < len tags'.out := by
  obtain ⟨tags', hreuse, hlen, hlands⟩ := leaf_lands hlike hid text
  have hslot : expectSlot (reuseLeaf id (.cap 16) fun _ => "") m =
      ({ m with tags := tags' }, .ok id.toNat) := by
    rw [expectSlot, hreuse]
  refine ⟨_, ?_, hlands, ?_⟩
  · rw [string, self_bind, if_neg (not_not.mpr hinside), if_pos rfl, bind_ok hslot, update_bind,
      htext, unwrap]
    exact if_pos hlen
  · rw [len_eq, slots_modify, List.length_modify, ← len_eq]
    exact hlen

/-- A later piece is appended to the string in the slot. -/
theorem string_appends {i : ℕ} (hinside : m.inTags = true ∧ m.depth = 1) (hslot : m.slot = some i)
    (id : Id) (total : ℕ) {offset : ℕ} (hpos : offset ≠ 0) (chunk : List UInt8) :
    string id total offset chunk m = (unwrap (fromUtf8 chunk) >>= pushStr i) m := by
  rw [string, self_bind, if_neg (not_not.mpr hinside), if_neg hpos, hslot]

/-! ## Two destinations -/

/-- Two messages that a decode does not tell apart: the slots that it made are the same. -/
structure Like (m m' : Msg) : Prop where
  same : m' = { m with tags := m'.tags }
  tags : ∃ fresh : Vec String, LikeFresh m.tags fresh ∧ LikeFresh m'.tags fresh
  slot : ∀ i ∈ m.slot, i < len m.tags.out ∧ i < len m'.tags.out

/-- What a callback does to two such messages. -/
def Treats (step : MsgM Unit) (m m' : Msg) : Prop :=
  (step m).2 = (step m').2 ∧ ((step m).2 ≠ .unwound → Like (step m).1 (step m').1)

/-- An append to the same slot of both. -/
theorem likeFresh_pushed {tags : Reused (Vec String)} {fresh : Vec String} (h : LikeFresh tags fresh)
    (i : ℕ) (text : String) :
    LikeFresh { tags with out := modify tags.out i (· ++ text) }
      ⟨fresh.slots.modify i (· ++ text)⟩ where
  live_le := by
    rw [slots_modify, List.length_modify]
    exact h.live_le
  slots_eq := by
    rw [slots_modify, List.take_modify, ← h.slots_eq]
    rfl

/-- Messages that are alike treat a number alike. -/
theorem Like.unsigned (h : Like m m') (id : Id) (value : Unsigned) :
    Treats (Msg.unsigned id value) m m' := by
  obtain ⟨n, tags, depth, inTags, slot⟩ := m
  obtain ⟨hsame, htags, hslot⟩ := h
  rw [hsame]
  refine ⟨rfl, fun _ => ?_⟩
  unfold Msg.unsigned update
  by_cases hbound : depth = 0 ∧ id = 1
  · simp only [hbound, and_self, if_true]
    exact ⟨rfl, htags, hslot⟩
  · simp only [hbound, if_false]
    exact ⟨rfl, htags, hslot⟩

/-- Messages that are alike treat an opened sequence alike. -/
theorem Like.sequenceBegin (h : Like m m') (id : Id) : Treats (Msg.sequenceBegin id) m m' := by
  obtain ⟨n, tags, depth, inTags, slot⟩ := m
  obtain ⟨hsame, ⟨fresh, hlike, hlike'⟩, hslot⟩ := h
  rw [hsame]
  refine ⟨rfl, fun _ => ?_⟩
  unfold Msg.sequenceBegin update
  by_cases harray : depth + 1 = 1 ∧ id = 4
  · simp only [harray, and_self, if_true]
    exact ⟨rfl, ⟨⟨[]⟩, ⟨Nat.zero_le _, rfl⟩, ⟨Nat.zero_le _, rfl⟩⟩, hslot⟩
  · simp only [harray, if_false]
    exact ⟨rfl, ⟨fresh, hlike, hlike'⟩, hslot⟩

/-- Messages that are alike treat a closed sequence alike. -/
theorem Like.sequenceEnd (h : Like m m') : Treats Msg.sequenceEnd m m' := by
  obtain ⟨n, tags, depth, inTags, slot⟩ := m
  obtain ⟨hsame, htags, hslot⟩ := h
  rw [hsame]
  unfold Treats Msg.sequenceEnd
  rcases depth with _ | _ | depth
  · exact ⟨rfl, fun hreturns => absurd rfl hreturns⟩
  · exact ⟨rfl, fun _ => ⟨rfl, htags, hslot⟩⟩
  · exact ⟨rfl, fun _ => ⟨rfl, htags, hslot⟩⟩

/-- Messages that are alike are inside the array together. -/
theorem Like.inside (h : Like m m') :
    (m'.inTags = true ∧ m'.depth = 1) ↔ (m.inTags = true ∧ m.depth = 1) := by
  rw [h.same]

/-- The start of a string: both panic, or it lands in the slot of its id. -/
theorem Like.start (h : Like m m') (hinside : m.inTags = true ∧ m.depth = 1) (id : Id) (total : ℕ)
    (chunk : List UInt8) : Treats (Msg.string id total 0 chunk) m m' := by
  have hinside' := h.inside.mpr hinside
  obtain ⟨fresh, hlike, hlike'⟩ := h.tags
  unfold Treats
  by_cases hbad : ¬id.toNat < 16 ∨ fromUtf8 chunk = none
  · rw [string_panics hinside hlike.live_le hbad, string_panics hinside' hlike'.live_le hbad]
    exact ⟨rfl, fun hreturns => absurd rfl hreturns⟩
  · obtain ⟨hid, hsome⟩ := not_or.mp hbad
    obtain ⟨text, htext⟩ := Option.ne_none_iff_exists'.mp hsome
    obtain ⟨tags, hstring, hlands, hlen⟩ :=
      string_lands hinside hlike (not_not.mp hid) htext total
    obtain ⟨tags', hstring', hlands', hlen'⟩ :=
      string_lands hinside' hlike' (not_not.mp hid) htext total
    rw [hstring, hstring']
    refine ⟨rfl, fun _ => ⟨?_, ⟨_, hlands, hlands'⟩, fun i hi => ?_⟩⟩
    · rw [h.same]
    · obtain rfl := Option.some.inj hi
      exact ⟨hlen, hlen'⟩

/-- A piece for a slot that both have. -/
theorem Like.pushStr (h : Like m m') {i : ℕ} (hslot : m.slot = some i) (text : String) :
    Treats (Msg.pushStr i text) m m' := by
  obtain ⟨n, tags, depth, inTags, slot⟩ := m
  obtain ⟨hsame, ⟨fresh, hlike, hlike'⟩, hinRange⟩ := h
  obtain ⟨hi, hi'⟩ := hinRange i hslot
  rw [hsame] at hlike' hi' ⊢
  unfold Treats Msg.pushStr
  rw [if_pos hi, if_pos hi']
  have hkept (tags : Reused (Vec String)) (hin : i < len tags.out) :
      i < len (modify tags.out i (· ++ text)) := by
    rwa [len_eq, slots_modify, List.length_modify, ← len_eq]
  refine ⟨rfl, fun _ => ⟨rfl, ⟨_, likeFresh_pushed hlike i text, likeFresh_pushed hlike' i text⟩, ?_⟩⟩
  intro j hj
  obtain rfl : i = j := Option.some.inj (hslot.symm.trans hj)
  exact ⟨hkept tags hi, hkept m'.tags hi'⟩

/-- A later piece goes to the slot of the last start, if there was one. -/
theorem Like.later (h : Like m m') (hinside : m.inTags = true ∧ m.depth = 1) (id : Id) (total : ℕ)
    {offset : ℕ} (hpos : offset ≠ 0) (chunk : List UInt8) :
    Treats (Msg.string id total offset chunk) m m' := by
  have hinside' := h.inside.mpr hinside
  have hslot' : m'.slot = m.slot := by rw [h.same]
  cases hslot : m.slot with
  | none =>
    have hquiet {m : Msg} (hinside : m.inTags = true ∧ m.depth = 1) (hnone : m.slot = none) :
        Msg.string id total offset chunk m = (m, .ok ()) := by
      rw [Msg.string, self_bind, if_neg (not_not.mpr hinside), if_neg hpos, hnone]
      rfl
    rw [Treats, hquiet hinside hslot, hquiet hinside' (hslot'.trans hslot)]
    exact ⟨rfl, fun _ => h⟩
  | some i =>
    rw [Treats, string_appends hinside hslot id total hpos,
      string_appends hinside' (hslot'.trans hslot) id total hpos]
    cases fromUtf8 chunk with
    | none => exact ⟨rfl, fun hreturns => absurd rfl hreturns⟩
    | some text => exact h.pushStr hslot text

/-- Messages that are alike treat a string alike. -/
theorem Like.string (h : Like m m') (id : Id) (total offset : ℕ) (chunk : List UInt8) :
    Treats (Msg.string id total offset chunk) m m' := by
  by_cases hinside : m.inTags = true ∧ m.depth = 1
  · by_cases hstart : offset = 0
    · rw [hstart]
      exact h.start hinside id total chunk
    · exact h.later hinside id total hstart chunk
  · rw [Treats, string_skipped hinside, string_skipped (mt h.inside.mp hinside)]
    exact ⟨rfl, fun _ => h⟩

/-- One callback, of whatever kind. -/
theorem Like.hears (h : Like m m') (c : Callback) : Treats (Msg.hears c) m m' := by
  cases c with
  | unsigned id value => exact h.unsigned id value
  | string id total offset chunk => exact h.string id total offset chunk
  | sequenceBegin id => exact h.sequenceBegin id
  | sequenceEnd => exact h.sequenceEnd
  | _ => exact ⟨rfl, fun _ => h⟩

/-- A decode that does not panic cuts off what it did not make and returns what the decoder does. -/
theorem decodeInto_of_ok {buf : List UInt8}
    (h : inOrder hears (decode buf).calls m.restart = (m', .ok ())) :
    m.decodeInto buf = (m'.cut, .ok (decode buf).result) := by
  rw [decodeInto, update_bind, bind_ok h, update_bind]
  rfl

/-- A callback that panics makes the decode panic. -/
theorem decodeInto_of_unwound {buf : List UInt8}
    (h : inOrder hears (decode buf).calls m.restart = (m', .unwound)) :
    m.decodeInto buf = (m', .unwound) := by
  rw [decodeInto, update_bind, bind_unwound h]

/-- The slots that a decode made, without the earlier ones behind them. -/
theorem Like.cut_out (h : Like m m') : m.cut.tags.out = m'.cut.tags.out := by
  obtain ⟨fresh, hlike, hlike'⟩ := h.tags
  apply LawfulSeqVec.ext
  unfold cut
  rw [slots_truncate, slots_truncate, ← hlike.slots_eq, ← hlike'.slots_eq]

end Msg

/-- Whatever an earlier message left in the destination, it ends up with what a fresh one ends up
with, and the decode returns the same or panics like it: when the array is absent, comes again,
names a slot again or skips some, is cut off, and when the bytes are rejected. -/
theorem reused_message_eq_fresh (m : Msg) (buf : List UInt8) :
    (m.decodeInto buf).2 = (Msg.default.decodeInto buf).2 ∧
      ((m.decodeInto buf).2 ≠ .unwound →
        (m.decodeInto buf).1.n = (Msg.default.decodeInto buf).1.n ∧
          (m.decodeInto buf).1.tags.out = (Msg.default.decodeInto buf).1.tags.out) := by
  have hstart : Msg.Like m.restart Msg.default.restart :=
    ⟨rfl, ⟨⟨[]⟩, ⟨Nat.zero_le _, rfl⟩, ⟨Nat.zero_le _, rfl⟩⟩, fun i hi => by cases hi⟩
  obtain ⟨hexit, hkept⟩ := inOrder_related Msg.hears Msg.hears (fun c _ _ h => Msg.Like.hears h c)
    (decode buf).calls hstart
  rcases hrun : inOrder Msg.hears (decode buf).calls m.restart with ⟨m₁, _ | e | _⟩ <;>
    rcases hfresh : inOrder Msg.hears (decode buf).calls Msg.default.restart with ⟨m₂, _ | e' | _⟩ <;>
    rw [hrun, hfresh] at hexit hkept <;> cases hexit
  · have hlike : Msg.Like m₁ m₂ := hkept (by simp)
    rw [Msg.decodeInto_of_ok hrun, Msg.decodeInto_of_ok hfresh]
    refine ⟨rfl, fun _ => ⟨?_, hlike.cut_out⟩⟩
    rw [hlike.same]
    rfl
  · exact e.elim
  · rw [Msg.decodeInto_of_unwound hrun, Msg.decodeInto_of_unwound hfresh]
    exact ⟨rfl, fun hreturns => absurd rfl hreturns⟩

/-! ## From the encoder -/

/-- Balanced calls that keep all their frames record the bytes of each of them. -/
theorem Balanced.recorded_bytes {cs : List Call} (h : Balanced cs)
    (hkept : ∀ call ∈ cs, call ≠ .sequenceEnd) : (record cs).1.bytes = cs.flatMap Call.wire := by
  obtain ⟨message, hvalid, hheight, rfl⟩ := (balanced_iff cs).mp h
  rw [Message.record_bytes hvalid hheight, Message.prune_of_kept hkept, Message.encode_eq]

/-- Calls that all return are allowed, and the buffer holds what they record. -/
theorem written_inOrder {host : Endian} {cs : List Call} {buffer : List UInt8} {os : OStream}
    (h : inOrder (Call.write host) cs (.new buffer) = (os, .ok ())) :
    Allowed 0 cs ∧ os.buffer.take os.bytesUsed = (record cs).1.bytes := by
  obtain ⟨rfl, hoks⟩ := drive_of_inOrder _ h
  obtain ⟨hlast, hrecorded⟩ := (Opened.new buffer).written.of_oks host hoks
  have hbounded := (bounded_over (Nat.zero_le buffer.length)).after host cs
  have hstored := hlast.sound.stored hbounded.sinkless
  refine ⟨(recorded_iff_allowed cs .new).mp hrecorded, hstored.trans ?_⟩
  rw [hlast.message, show (writeAll host cs (.new buffer)).1.installed = ⟨buffer, 0⟩ from
    hbounded.installed_eq]
  rfl

/-- Behind calls that all return a flush moves nothing, as there is no sink. -/
theorem written_flush {host : Endian} {cs : List Call} {buffer : List UInt8} {os : OStream}
    (h : inOrder (Call.write host) cs (.new buffer) = (os, .ok ())) :
    flush os = (os, .ok os.bytesUsed) := by
  obtain ⟨rfl, hoks⟩ := drive_of_inOrder _ h
  have hsinkless := ((bounded_over (Nat.zero_le buffer.length)).after host cs).sinkless
  have hlive := ((Opened.new buffer).written.of_oks host hoks).1.sound.live_of_none hsinkless
  change (writeAll host cs (.new buffer)).1.flush_ = none at hsinkless
  change (writeAll host cs (.new buffer)).1.dead = false at hlive
  change flush (writeAll host cs (.new buffer)).1 = _
  rw [flush, self_bind, if_neg (by simp [hlive]), if_neg (by simp [hsinkless])]
  rfl

/-- Calls that all return, close what they open and keep it decode to their events. -/
theorem written_told {host : Endian} {cs : List Call} {buffer : List UInt8} {os : OStream}
    (h : inOrder (Call.write host) cs (.new buffer) = (os, .ok ()))
    (hkept : ∀ call ∈ cs, call ≠ .sequenceEnd) (hclosed : depthAfter 0 cs = 0) :
    (decode (os.buffer.take os.bytesUsed)).calls = cs.flatMap Call.events ∧
      (decode (os.buffer.take os.bytesUsed)).result = .ok .complete := by
  obtain ⟨hallowed, hstored⟩ := written_inOrder h
  have hbalanced : Balanced cs := ⟨hallowed, hclosed⟩
  rw [hstored, Balanced.recorded_bytes hbalanced hkept]
  exact hbalanced.decodes

namespace Msg

/-- The writer calls for the number. -/
def numberCalls (n : Unsigned) : List Call := if n ≠ 0 then [.field (.unsigned 1 n)] else []

/-- The writer calls for the array. -/
def tagsCalls : Option (List (Id × String)) → List Call
  | none => []
  | some tags =>
    .sequenceBeginLazy 4 :: (tags.map (fun tag => .field (.str tag.1 tag.2)) ++ [.sequenceEndKeep])

variable (n : Unsigned) (tags : Option (List (Id × String)))

/-- The number is written by its calls. -/
theorem writeNumber_eq : writeNumber n = inOrder (Call.write .little) (numberCalls n) := by
  unfold writeNumber numberCalls
  split
  · exact (inOrder_singleton _ _).symm
  · rfl

/-- The array is written by its calls. -/
theorem writeTags_eq : writeTags tags = inOrder (Call.write .little) (tagsCalls tags) := by
  cases tags with
  | none => rfl
  | some tags =>
    rw [tagsCalls, inOrder, inOrder_append, inOrder_map, inOrder_singleton]
    rfl

/-- The calls of a message keep every sequence they close. -/
theorem calls_kept : ∀ call ∈ numberCalls n ++ tagsCalls tags, call ≠ .sequenceEnd := by
  have hnumber : ∀ call ∈ numberCalls n, call ≠ .sequenceEnd := by
    unfold numberCalls
    split <;> simp
  refine List.forall_mem_append.mpr ⟨hnumber, ?_⟩
  cases tags with
  | none => simp [tagsCalls]
  | some tags =>
    intro call hcall
    rcases List.mem_cons.mp hcall with rfl | hcall
    · simp
    · rcases List.mem_append.mp hcall with hcall | hcall
      · obtain ⟨tag, -, rfl⟩ := List.mem_map.mp hcall
        simp
      · rw [List.mem_singleton.mp hcall]
        simp

/-- The calls of a message close every sequence they open. -/
theorem calls_closed : depthAfter 0 (numberCalls n ++ tagsCalls tags) = 0 := by
  have hnumber : depthAfter 0 (numberCalls n) = 0 := by
    unfold numberCalls
    split <;> rfl
  have htags (tags : List (Id × String)) (depth : ℕ) :
      depthAfter depth (tags.map fun tag => .field (.str tag.1 tag.2)) = depth := by
    induction tags with
    | nil => rfl
    | cons tag tags ih => exact ih
  rw [depthAfter_append, hnumber]
  cases tags with
  | none => rfl
  | some tags =>
    rw [tagsCalls, depthAfter, depthAfter_append, htags]
    rfl

/-- An encoding decodes to what was to be written. -/
theorem encode_told {wire : List UInt8} (h : encode n tags = some wire) :
    (decode wire).calls = (numberCalls n ++ tagsCalls tags).flatMap Call.events ∧
      (decode wire).result = .ok .complete := by
  have hwritten : (do writeNumber n; writeTags tags : EncodeM Unit) =
      inOrder (Call.write .little) (numberCalls n ++ tagsCalls tags) := by
    rw [inOrder_append, writeNumber_eq, writeTags_eq]
  unfold encode at h
  simp only [hwritten] at h
  rcases hrun : inOrder (Call.write .little) (numberCalls n ++ tagsCalls tags)
    (.new (List.replicate 512 0)) with ⟨os, _ | e | _⟩ <;> rw [hrun] at h <;> cases h
  exact written_told hrun (calls_kept n tags) (calls_closed n tags)

/-- Strings of the array land in their slots, one after the other. -/
theorem strings_land {m : Msg} (hinside : m.inTags = true ∧ m.depth = 1) {fresh : Vec String}
    (hlike : LikeFresh m.tags fresh) {tags : List (Id × String)}
    (hids : ∀ tag ∈ tags, tag.1.toNat < 16) :
    ∃ tags' slot', inOrder hears
        ((tags.map fun tag => Call.field (.str tag.1 tag.2)).flatMap Call.events) m =
          ({ m with tags := tags', slot := slot' }, .ok ()) ∧
      LikeFresh tags' ⟨landAll (·.1.toNat) (fun tag _ => tag.2) tags fresh.slots⟩ := by
  induction tags generalizing m fresh with
  | nil => exact ⟨m.tags, m.slot, rfl, hlike⟩
  | cons tag tags ih =>
    obtain ⟨hid, hlater⟩ := List.forall_mem_cons.mp hids
    obtain ⟨tags₁, hstring, hlands, -⟩ := string_lands hinside hlike hid (fromUtf8_toUTF8 tag.2)
      tag.2.toUTF8.data.toList.length
    obtain ⟨tags₂, slot₂, hrest, hlast⟩ :=
      ih (m := { m with tags := tags₁, slot := some tag.1.toNat }) hinside hlands hlater
    refine ⟨tags₂, slot₂, ?_, hlast⟩
    have hevents : (Call.field (.str tag.1 tag.2)).events = [
        .fixlenBegin tag.1 .str tag.2.toUTF8.data.toList.length,
        .string tag.1 tag.2.toUTF8.data.toList.length 0 tag.2.toUTF8.data.toList] := rfl
    have hannounced : hears (.fixlenBegin tag.1 .str tag.2.toUTF8.data.toList.length) m =
        (m, .ok ()) := rfl
    rw [List.map_cons, List.flatMap_cons, hevents, List.cons_append, List.singleton_append, inOrder,
      inOrder]
    exact (bind_ok hannounced _).trans ((bind_ok hstring _).trans hrest)

/-- The number is bound, unless it is the default that is there already. -/
theorem number_lands (m : Msg) (n : Unsigned) :
    inOrder hears ((numberCalls n).flatMap Call.events) m.restart =
      ({ m.restart with n := n }, .ok ()) := by
  unfold numberCalls
  split
  · rfl
  · next hzero =>
    rw [not_not.mp hzero]
    rfl

/-- A whole array lands in slots from the first one on. -/
theorem array_lands (m : Msg) (n : Unsigned) {tags : Option (List (Id × String))}
    (hids : ∀ tag ∈ tags.getD [], tag.1.toNat < 16) :
    ∃ m', inOrder hears ((tagsCalls tags).flatMap Call.events) { m.restart with n := n } =
        (m', .ok ()) ∧ m'.n = n ∧
      LikeFresh m'.tags ⟨landAll (·.1.toNat) (fun tag _ => tag.2) (tags.getD []) []⟩ := by
  cases tags with
  | none => exact ⟨_, rfl, rfl, Nat.zero_le _, rfl⟩
  | some tags =>
    have hopened : hears (.sequenceBegin 4) { m.restart with n := n } =
        (⟨n, { m.tags with live := 0 }, 1, true, none⟩, .ok ()) := rfl
    have hempty : LikeFresh { m.tags with live := 0 } (⟨[]⟩ : Vec String) := ⟨Nat.zero_le _, rfl⟩
    obtain ⟨tags', slot', hstrings, hlands⟩ :=
      strings_land (m := ⟨n, { m.tags with live := 0 }, 1, true, none⟩) ⟨rfl, rfl⟩ hempty hids
    have hclosed : inOrder hears [.sequenceEnd] ⟨n, tags', 1, true, slot'⟩ =
        (⟨n, tags', 0, false, slot'⟩, .ok ()) := rfl
    refine ⟨⟨n, tags', 0, false, slot'⟩, ?_, rfl, hlands⟩
    rw [tagsCalls, List.flatMap_cons, List.flatMap_append]
    change inOrder hears (.sequenceBegin 4 :: (_ ++ [.sequenceEnd])) _ = _
    rw [inOrder, bind_ok hopened, inOrder_append]
    exact (bind_ok hstrings _).trans hclosed

end Msg

/-- What replaces everything before it leaves the last. -/
theorem foldl_last {α β : Type} (f : β → α) (a : α) (bs : List β) :
    bs.foldl (fun _ b => f b) a = bs.getLast?.elim a f := by
  induction bs using List.reverseRecOn with
  | nil => rfl
  | append_singleton bs b _ => simp

/-- What the encoder wrote is decoded back into any message: a slot has the last string that was
written under its id, or none, and there are as many slots as the highest id takes. -/
theorem reused_message_roundtrip {n : Unsigned} {tags : Option (List (Id × String))}
    {wire : List UInt8} (hwire : Msg.encode n tags = some wire)
    (hids : ∀ tag ∈ tags.getD [], tag.1.toNat < 16) (m : Msg) :
    ∃ m', m.decodeInto wire = (m', .ok (.ok .complete)) ∧ m'.n = n ∧
      len m'.tags.out = ((tags.getD []).map (·.1.toNat)).max?.elim 0 (· + 1) ∧
      ∀ j < len m'.tags.out, m'.tags.out.slots[j]? =
        some (((tags.getD []).filter (·.1.toNat = j)).getLast?.elim "" (·.2)) := by
  obtain ⟨hcalls, hresult⟩ := Msg.encode_told n tags hwire
  obtain ⟨m', hrun, hn, hlike⟩ := Msg.array_lands m n hids
  have hcalled : inOrder Msg.hears (decode wire).calls m.restart = (m', .ok ()) := by
    rw [hcalls, List.flatMap_append, inOrder_append, bind_ok (Msg.number_lands m n)]
    exact hrun
  have hslots : m'.cut.tags.out.slots =
      landAll (·.1.toNat) (fun tag _ => tag.2) (tags.getD []) [] := hlike.slots_eq.symm
  refine ⟨m'.cut, ?_, hn, ?_, fun j hj => ?_⟩
  · rw [Msg.decodeInto_of_ok hcalled, hresult]
  · have hlen := length_landAll (·.1.toNat) (fun tag _ => tag.2) (tags.getD []) ([] : List String)
    rwa [← hslots, List.length_nil, Nat.zero_max] at hlen
  · have hget := getD_landAll (·.1.toNat) (fun tag _ => tag.2) (tags.getD []) ([] : List String) j
    rw [← hslots, List.getElem?_nil, Option.getD_none, foldl_last] at hget
    replace hj : j < m'.cut.tags.out.slots.length := hj
    rw [List.getElem?_eq_getElem hj] at hget ⊢
    exact congrArg some hget

/-- A message with a gap in its array, decoded into one that an earlier message left behind. -/
theorem reused_message_roundtrip_gap :
    ∃ m', Msg.decodeInto [8, 1, 38, 2, 10, 97, 18, 10, 99, 7]
        ⟨7, ⟨⟨["xx", "yy", "zz", "ww"]⟩, 4⟩, 0, false, some 3⟩ = (m', .ok (.ok .complete)) ∧
      len m'.tags.out = 3 ∧ m'.tags.out.slots[1]? = some "" := by
  have hwire : Msg.encode 1 (some [(0, "a"), (2, "c")]) =
      some [8, 1, 38, 2, 10, 97, 18, 10, 99, 7] := by decide +kernel
  obtain ⟨m', hdecoded, -, hlen, hslots⟩ := reused_message_roundtrip hwire (by decide)
    ⟨7, ⟨⟨["xx", "yy", "zz", "ww"]⟩, 4⟩, 0, false, some 3⟩
  have hthree : len m'.tags.out = 3 := hlen.trans (by decide)
  exact ⟨m', hdecoded, hthree, (hslots 1 (by omega)).trans (by decide)⟩

end Sofab.Generated
