import Sofab.Replay
import Sofab.RoundTrip

/-!
# Encoding what was decoded

The calls that stand for a complete message write its canonical bytes: the message with every
varint spelled minimally and every end header bare.
-/

namespace Sofab

open Reading Reading.Reader Steps OStream

/-! ## Notes -/

/-- A noted varint has its minimal spelling, and a noted end header is bare. -/
def Note.Minimal : Note → Prop
  | .varint spelling value => Leb128.Minimal fullGroups spelling value
  | .close spelling => spelling = endMarker
  | _ => True

/-- No note is shorter than its canonical spelling. -/
theorem Note.Sound.tight {n : Note} (h : n.Sound) : n.canonical.length ≤ n.spelled.length := by
  cases n with
  | call c => exact Nat.le_refl 0
  | varint spelling value =>
    have hread : Leb128.read fullGroups (spelling ++ []) = .done value [] := by
      rw [List.append_nil]
      exact h
    exact (Leb128.encode_minimal hread).1
  | close spelling => exact List.length_pos_iff.mpr h
  | raw bytes => exact Nat.le_refl _

/-- A note has its canonical spelling exactly if it is minimal. -/
theorem Note.Sound.minimal_iff {n : Note} (h : n.Sound) : n.canonical = n.spelled ↔ n.Minimal := by
  cases n with
  | call c => exact iff_of_true rfl trivial
  | varint spelling value => exact eq_comm.trans (Leb128.minimal_iff h).symm
  | close spelling => exact eq_comm
  | raw bytes => exact iff_of_true rfl trivial

section Tight

variable {α β : Type} {f g : α → List β} {l : List α}

/-- Pieces that are no longer make a list that is no longer. -/
theorem flatMap_length_le (h : ∀ x ∈ l, (f x).length ≤ (g x).length) :
    (l.flatMap f).length ≤ (l.flatMap g).length := by
  rw [List.length_flatMap, List.length_flatMap]
  exact List.sum_le_sum h

/-- If no piece is longer, the lists agree only piece by piece. -/
theorem flatMap_eq_iff (h : ∀ x ∈ l, (f x).length ≤ (g x).length) :
    l.flatMap f = l.flatMap g ↔ ∀ x ∈ l, f x = g x := by
  refine ⟨fun heq => ?_, List.flatMap_congr⟩
  induction l with
  | nil => exact fun x hx => absurd hx List.not_mem_nil
  | cons y l ih =>
    obtain ⟨hy, hl⟩ := List.forall_mem_cons.mp h
    rw [List.flatMap_cons, List.flatMap_cons] at heq
    have hlen := congrArg List.length heq
    have htail := flatMap_length_le hl
    rw [List.length_append, List.length_append] at hlen
    obtain ⟨hhead, hrest⟩ := List.append_inj heq (by omega)
    exact List.forall_mem_cons.mpr ⟨hhead, ih hl hrest⟩

end Tight

/-! ## Messages as calls -/

/-- A reading to the end stands for calls. -/
structure Replayed (depth : ℕ) (bs : List UInt8) (notes : List Note) (depth' : ℕ)
    (cs : List Call) : Prop where
  allowed : Allowed depth cs
  depth_eq : depthAfter depth cs = depth'
  kept : ∀ call ∈ cs, call ≠ .sequenceEnd
  replays : ∀ more, replay (cs.flatMap Call.events ++ more) = cs ++ replay more
  renders : Renders bs notes [] (cs.flatMap Call.events) (cs.flatMap Call.wire)

/-- A field in front of a reading to the end. -/
theorem Replayed.cons {depth mid depth' : ℕ} {bs rest : List UInt8} {notes notes' : List Note}
    {call : Call} {cs : List Call} (h : Stands depth [] bs notes rest mid call)
    (hrest : Replayed mid rest notes' depth' cs) :
    Replayed depth bs (notes ++ notes') depth' (call :: cs) where
  allowed := ⟨h.allowed, by rw [h.depth_eq]; exact hrest.allowed⟩
  depth_eq := by rw [depthAfter, h.depth_eq, hrest.depth_eq]
  kept := List.forall_mem_cons.mpr ⟨h.kept, hrest.kept⟩
  replays more := by
    rw [List.flatMap_cons, List.append_assoc, h.replays, hrest.replays, List.cons_append]
  renders := by
    obtain ⟨wire, hwire, hrenders⟩ := h.renders
    rw [List.flatMap_cons, List.flatMap_cons, hwire]
    exact hrenders.append hrest.renders

/-- Fields that were read to the end stand for calls. -/
theorem readFields_replayed {depth depth' : ℕ} {bs rest : List UInt8}
    (h : (readFields depth bs).outcome = .done depth' rest)
    (hutf8 : Utf8 (calls (readFields depth bs).notes)) :
    ∃ cs, Replayed depth bs (readFields depth bs).notes depth' cs := by
  revert h hutf8
  refine exhaust_induction (motive := fun depth bs report => report.outcome = .done depth' rest →
    Utf8 (calls report.notes) → ∃ cs, Replayed depth bs report.notes depth' cs) ?_ ?_ ?_ ?_ depth bs
  · intro depth h _
    cases h
    exact ⟨[], trivial, rfl, by simp, fun _ => rfl, renders_nil []⟩
  · intro depth bs notes mid rest' hread ih h hutf8
    rw [Report.after_notes, calls_append] at hutf8
    obtain ⟨call, hcall⟩ := readField_stands hread hutf8.left
    obtain ⟨cs, hcs⟩ := ih h hutf8.right
    exact ⟨call :: cs, hcs.cons hcall⟩
  · intro depth bs notes torn _ _ h
    cases h
  · intro depth bs notes _ _ h
    cases h

/-- A message all of whose frames are kept is not pruned. -/
theorem Message.prune_of_kept {m : Message} (h : ∀ call ∈ m.calls, call ≠ .sequenceEnd) :
    m.prune = m := by
  induction m with
  | done => rfl
  | field f rest ih =>
    rw [prune, ih (List.forall_mem_cons.mp h).2]
  | frame id body keep rest ihBody ihRest =>
    obtain ⟨hbody, hclose⟩ := List.forall_mem_append.mp (List.forall_mem_cons.mp h).2
    obtain ⟨hcloser, hrest⟩ := List.forall_mem_cons.mp hclose
    cases keep with
    | false => exact absurd rfl hcloser
    | true => rw [prune_frame, Bool.true_or, if_pos rfl, ihBody hbody, ihRest hrest]

/-- A complete message stands for balanced calls. -/
theorem decode_replayed {b : List UInt8} (hcomplete : (decode b).result = .ok .complete)
    (hutf8 : Utf8 (decode b).calls) :
    Replayed 0 b (readMessage b).notes 0 (replay (decode b).calls) := by
  have hdone : ∃ rest, (readMessage b).outcome = .done 0 rest := by
    rw [decode_result, verdict] at hcomplete
    split at hcomplete
    · next depth rest hout =>
      refine ⟨rest, ?_⟩
      by_cases hdepth : depth = 0
      · rw [hout, hdepth]
      · rw [if_neg hdepth] at hcomplete
        cases hcomplete
    · cases hcomplete
    · cases hcomplete
  obtain ⟨rest, hout⟩ := hdone
  rw [decode_calls] at hutf8 ⊢
  obtain ⟨cs, hcs⟩ := readFields_replayed hout hutf8
  have hreplay := hcs.replays []
  rw [← hcs.renders.made_eq, List.append_nil, replay, List.append_nil] at hreplay
  have hsame : replay (calls (readMessage b).notes) = cs := hreplay
  rw [hsame]
  exact hcs

/-- What a stream with room writes from the events of a complete message. -/
theorem Replayed.written (host : Endian) {b : List UInt8} {notes : List Note} {cs : List Call}
    (h : Replayed 0 b notes 0 cs) {buffer : List UInt8} {offset : ℕ} {os : OStream}
    (hopen : withOffset buffer offset = .ok os)
    (hroom : (cs.flatMap Call.wire).length ≤ buffer.length - offset) :
    let out := writeAll host cs os
    (∀ exit ∈ out.2, exit = .ok ()) ∧
      (out.1.buffer.take out.1.bytesUsed).drop offset = cs.flatMap Call.wire := by
  obtain ⟨m, hvalid, hheight, rfl⟩ := (balanced_iff cs).mp ⟨h.allowed, h.depth_eq⟩
  have hencode : m.prune.encode = m.calls.flatMap Call.wire := by
    rw [Message.prune_of_kept h.kept, m.encode_eq]
  rw [← hencode] at hroom ⊢
  obtain ⟨hreports, hstored⟩ := Message.written host hvalid hheight hopen hroom
  refine ⟨hreports, ?_⟩
  rw [hstored, List.drop_left' (List.length_take_of_le (withOffset_eq hopen).1)]

/-- The canonical bytes of a complete message are no longer than it. -/
theorem Renders.wire_length_le {bs wire : List UInt8} {notes : List Note} {made : List Callback}
    (h : Renders bs notes [] made wire) : wire.length ≤ bs.length := by
  rw [h.spelled, List.append_nil, ← h.canonical]
  exact flatMap_length_le fun n hn => (h.sound n hn).tight

/-- A message is its canonical bytes exactly if all its notes are minimal. -/
theorem Renders.wire_eq_iff {bs wire : List UInt8} {notes : List Note} {made : List Callback}
    (h : Renders bs notes [] made wire) : wire = bs ↔ ∀ n ∈ notes, n.Minimal := by
  have htight : ∀ n ∈ notes, n.canonical.length ≤ n.spelled.length :=
    fun n hn => (h.sound n hn).tight
  rw [h.spelled, List.append_nil, ← h.canonical, flatMap_eq_iff htight]
  exact forall₂_congr fun n hn => (h.sound n hn).minimal_iff

/-- Driving a stream with room from the events of a complete message canonicalises it: every
call succeeds, and the result decodes to the same events, is no longer, is its own canonical
form, and is the message itself exactly if every varint in it is minimal and every end header
is bare. -/
theorem reencoding_canonicalises (host : Endian) {b : List UInt8}
    (hcomplete : (decode b).result = .ok .complete) (hutf8 : Utf8 (decode b).calls)
    {buffer : List UInt8} {offset : ℕ} {os : OStream} (hopen : withOffset buffer offset = .ok os)
    (hroom : b.length ≤ buffer.length - offset) :
    let out := writeAll host (replay (decode b).calls) os
    let b' := (out.1.buffer.take out.1.bytesUsed).drop offset
    (∀ exit ∈ out.2, exit = .ok ()) ∧
      (decode b').result = .ok .complete ∧ (decode b').calls = (decode b).calls ∧
      b'.length ≤ b.length ∧
      (∀ buffer' offset' os', withOffset buffer' offset' = .ok os' →
        b'.length ≤ buffer'.length - offset' →
          let again := (writeAll host (replay (decode b').calls) os').1
          (again.buffer.take again.bytesUsed).drop offset' = b') ∧
      (b' = b ↔ ∀ n ∈ (readMessage b).notes, n.Minimal) := by
  intro out b'
  have hreplayed := decode_replayed hcomplete hutf8
  have hshrinks := hreplayed.renders.wire_length_le
  obtain ⟨hreports, hb'⟩ := hreplayed.written host hopen (hshrinks.trans hroom)
  have hbytes : b' = (replay (decode b).calls).flatMap Call.wire := hb'
  obtain ⟨hcalls, hresult⟩ := Balanced.decodes ⟨hreplayed.allowed, hreplayed.depth_eq⟩
  have hsame : (decode b').calls = (decode b).calls := by
    rw [hbytes, hcalls, ← hreplayed.renders.made_eq, decode_calls]
  refine ⟨hreports, hbytes ▸ hresult, hsame, hbytes ▸ hshrinks, ?_, ?_⟩
  · intro buffer' offset' os' hopen' hroom' again
    rw [hbytes] at hroom'
    have hagain := (hreplayed.written host hopen' hroom').2
    rw [← hsame] at hagain
    exact hagain.trans (hbytes.trans (by rw [hsame])).symm
  · rw [hbytes]
    exact hreplayed.renders.wire_eq_iff

/-- A sequence with an overlong field header and an end header that carries an id. -/
theorem reencoding_canonicalises_overlong :
    (decode [0x06, 0x88, 0x00, 0x05, 0x0f]).calls = (decode [0x06, 0x08, 0x05, 0x07]).calls ∧
      ¬∀ n ∈ (readMessage [0x06, 0x88, 0x00, 0x05, 0x0f]).notes, n.Minimal := by
  have hutf8 : Utf8 (decode [0x06, 0x88, 0x00, 0x05, 0x0f]).calls := by
    have hcalls : (decode [0x06, 0x88, 0x00, 0x05, 0x0f]).calls =
        [.sequenceBegin 0, .unsigned 1 5, .sequenceEnd] := by decide +kernel
    rw [hcalls]
    simp [Utf8]
  have hlaw := @reencoding_canonicalises .little [0x06, 0x88, 0x00, 0x05, 0x0f]
    (by decide +kernel) hutf8 [0, 0, 0, 0, 0] 0 _ rfl (by decide)
  have hcalls : replay (decode [0x06, 0x88, 0x00, 0x05, 0x0f]).calls =
      [.sequenceBeginLazy 0, .field (.unsigned 1 5), .sequenceEndKeep] := by
    have hmade : (decode [0x06, 0x88, 0x00, 0x05, 0x0f]).calls =
        [.sequenceBegin 0, .unsigned 1 5, .sequenceEnd] := by decide +kernel
    simp [hmade, replay]
  have hbytes : ((writeAll .little [.sequenceBeginLazy 0, .field (.unsigned 1 5), .sequenceEndKeep]
      (.ofBuffer [0, 0, 0, 0, 0] 0 none)).1.buffer.take (writeAll .little [.sequenceBeginLazy 0,
        .field (.unsigned 1 5), .sequenceEndKeep] (.ofBuffer [0, 0, 0, 0, 0] 0 none)).1.bytesUsed).drop 0 =
          [0x06, 0x08, 0x05, 0x07] := by
    decide +kernel
  rw [hcalls] at hlaw
  obtain ⟨_, _, hsame, _, _, hminimal⟩ := hlaw
  rw [hbytes] at hsame hminimal
  exact ⟨hsame.symm, fun h => absurd (hminimal.mpr h) (by decide)⟩

end Sofab
