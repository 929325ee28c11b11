import Sofab.Canonical
import Sofab.Unambiguous

/-!
# The shortest spelling

Among all the bytes that decode to a message, what the encoder writes is as short as any. Bytes of
the same length spell every varint like it and can differ only in the ids that their end headers
carry.
-/

namespace Sofab

open Reading Reading.Reader Steps OStream

/-! ## Notes -/

/-- A noted varint has its minimal spelling, and a noted end header is a single byte. -/
def Note.Short : Note → Prop
  | .varint spelling value => Leb128.Minimal fullGroups spelling value
  | .close spelling => spelling.length = 1
  | _ => True

/-- A note is as long as its canonical spelling exactly if it is short. -/
theorem Note.Sound.short_iff {n : Note} (h : n.Sound) :
    n.canonical.length = n.spelled.length ↔ n.Short := by
  cases n with
  | call c => exact iff_of_true rfl trivial
  | varint spelling value =>
    have hread : Leb128.read fullGroups (spelling ++ []) = .done value [] := by
      rw [List.append_nil]
      exact h
    refine Iff.trans ⟨fun hlen => ?_, fun hspelling => ?_⟩ (Leb128.minimal_iff h).symm
    · exact (Leb128.encode_minimal hread).2 hlen.symm
    · exact congrArg List.length hspelling.symm
  | close spelling => exact eq_comm
  | raw bytes => exact iff_of_true rfl trivial

/-- If no piece is longer, the lists are as long only piece by piece. -/
theorem flatMap_length_eq_iff {α β : Type} {f g : α → List β} {l : List α}
    (h : ∀ x ∈ l, (f x).length ≤ (g x).length) :
    (l.flatMap f).length = (l.flatMap g).length ↔ ∀ x ∈ l, (f x).length = (g x).length := by
  induction l with
  | nil => simp
  | cons y l ih =>
    obtain ⟨hy, hl⟩ := List.forall_mem_cons.mp h
    have htail := flatMap_length_le hl
    rw [List.forall_mem_cons, ← ih hl, List.flatMap_cons, List.flatMap_cons, List.length_append,
      List.length_append]
    omega

/-- Canonical bytes are as long as what was read exactly if all its notes are short. -/
theorem Renders.wire_length_eq_iff {bs wire : List UInt8} {notes : List Note}
    {made : List Callback} (h : Renders bs notes [] made wire) :
    wire.length = bs.length ↔ ∀ n ∈ notes, n.Short := by
  have htight : ∀ n ∈ notes, n.canonical.length ≤ n.spelled.length :=
    fun n hn => (h.sound n hn).tight
  rw [h.spelled, List.append_nil, ← h.canonical, flatMap_length_eq_iff htight]
  exact forall₂_congr fun n hn => (h.sound n hn).short_iff

/-! ## Texts -/

/-- The bytes of a string are its encoding. -/
theorem isUtf8_toUTF8 (text : String) : isUtf8 text.toUTF8.data.toList = true :=
  ByteArray.validateUTF8_eq_true_iff.mpr text.isValidUTF8

/-- A fixlen payload that agrees with its subtype is well-formed text if it is a string. -/
theorem utf8_fixlenEvents (id : Id) {data : List UInt8} {subtype : FixlenType}
    (h : Agrees data subtype) : Utf8 (fixlenEvents id data subtype) := by
  intro id' total offset chunk hmem
  cases subtype with
  | str =>
    simp only [fixlenEvents, List.mem_cons, List.not_mem_nil, or_false, reduceCtorEq, false_or,
      Callback.string.injEq] at hmem
    obtain ⟨-, -, -, rfl⟩ := hmem
    exact h
  | _ => simp [fixlenEvents, Callback.float] at hmem

/-- The texts that a valid field brings are well-formed. -/
theorem Field.utf8 {f : Field} (hvalid : f.Valid) : Utf8 f.events := by
  cases f with
  | str id text => exact utf8_fixlenEvents id (isUtf8_toUTF8 text)
  | blob id data => exact @utf8_fixlenEvents id data .blob trivial
  | fixlen id data subtype => exact utf8_fixlenEvents id hvalid.2.1
  | _ =>
    intro id' total offset chunk hmem
    simp [Field.events] at hmem

/-- All texts in the events of a valid message are UTF-8. -/
theorem Message.utf8 {m : Message} (hvalid : m.Valid) : Utf8 m.events := by
  intro id total offset chunk hmem
  induction m with
  | done => cases hmem
  | field f rest ih =>
    rw [events, List.mem_append] at hmem
    exact hmem.elim (Field.utf8 hvalid.1 id total offset chunk) (ih hvalid.2)
  | frame id' body keep rest ihBody ihRest =>
    simp only [events, List.mem_cons, List.mem_append, reduceCtorEq, false_or] at hmem
    exact hmem.elim (ihBody hvalid.2.1) (ihRest hvalid.2.2)

/-- What the encoder writes for a message is no longer than any bytes that decode to its events, and
as long exactly if they spell every varint minimally and every end header in one byte. -/
theorem encoder_shortest (host : Endian) {m : Message} (hvalid : m.Valid)
    (hheight : m.height ≤ maxDepth) {b : List UInt8}
    (hcomplete : (decode b).result = .ok .complete) (hcalls : (decode b).calls = m.prune.events) :
    let wire := (unlimited host m.calls).1.message
    wire.length ≤ b.length ∧ (wire.length = b.length ↔ ∀ n ∈ (readMessage b).notes, n.Short) := by
  intro wire
  have hwire : wire = (replay (decode b).calls).flatMap Call.wire := by
    rw [hcalls, ← Message.encode_eq_replay hvalid.prune (m.height_prune.trans hheight)]
    exact (unlimited_message host m.calls).trans (Message.record_bytes hvalid hheight)
  have hreplayed := decode_replayed hcomplete (hcalls ▸ Message.utf8 hvalid.prune)
  rw [hwire]
  exact ⟨hreplayed.renders.wire_length_le, hreplayed.renders.wire_length_eq_iff⟩

/-- An end header that carries a small id is as short as a bare one. -/
theorem encoder_shortest_id :
    (unlimited .little (Message.frame 1 (.field (.unsigned 0 5) .done) false .done).calls).1.message =
        [0x0e, 0x00, 0x05, 0x07] ∧
      ∀ n ∈ (readMessage [0x0e, 0x00, 0x05, 0x0f]).notes, n.Short := by
  let m : Message := .frame 1 (.field (.unsigned 0 5) .done) false .done
  have h := @encoder_shortest .little m ⟨by decide, ⟨by decide, trivial⟩, trivial⟩ (by decide)
    [0x0e, 0x00, 0x05, 0x0f] (by decide +kernel) (by decide +kernel)
  have hwire : (unlimited .little m.calls).1.message = [0x0e, 0x00, 0x05, 0x07] := by
    decide +kernel
  refine ⟨hwire, h.2.mp ?_⟩
  rw [hwire]
  rfl

end Sofab
