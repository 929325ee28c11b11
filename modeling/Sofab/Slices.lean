import Sofab.Bytewise
import Sofab.Transparency

/-!
# The slices that a copying sink is handed

A buffer is handed over only when it is full and another byte has to go somewhere, or by a flush.
So a copying sink is handed the message cut to the size of the buffer: where the writer calls end
does not show, nor do the fast paths that write several bytes at once.
-/

namespace Sofab

open Steps Step OStream

/-! ## Pieces of one size -/

section Pieces

variable {α : Type} {c : ℕ} {pieces : List (List α)}

/-- Pieces of one size add up to their number times it. -/
theorem length_flatten_of_size (h : ∀ piece ∈ pieces, piece.length = c) :
    pieces.flatten.length = pieces.length * c := by
  induction pieces with
  | nil => simp
  | cons piece pieces ih =>
    obtain ⟨hpiece, hrest⟩ := List.forall_mem_cons.mp h
    rw [List.flatten_cons, List.length_append, hpiece, ih hrest, List.length_cons]
    ring

/-- A piece is where the ones in front of it end. -/
theorem getElem?_of_size (h : ∀ piece ∈ pieces, piece.length = c) (tail : List α) {i : ℕ}
    (hi : i < pieces.length) :
    pieces[i]? = some (((pieces.flatten ++ tail).drop (i * c)).take c) := by
  induction pieces generalizing i with
  | nil => exact absurd hi (Nat.not_lt_zero i)
  | cons piece pieces ih =>
    obtain ⟨hpiece, hrest⟩ := List.forall_mem_cons.mp h
    rw [List.flatten_cons, List.append_assoc]
    cases i with
    | zero => rw [Nat.zero_mul, List.drop_zero, List.take_left' hpiece]; rfl
    | succ i =>
      have hdrop : (i + 1) * c = piece.length + i * c := by rw [hpiece]; ring
      rw [hdrop, List.drop_length_add_append, List.getElem?_cons_succ]
      exact ih hrest (Nat.lt_of_succ_lt_succ hi)

/-- With a shorter piece behind them, the pieces are how a list is cut to that size. -/
theorem cut_of_size (h : ∀ piece ∈ pieces, piece.length = c) {last : List α}
    (hbegun : 0 < last.length) (hlast : last.length ≤ c) {whole : List α}
    (hwhole : (pieces ++ [last]).flatten = whole) :
    (pieces ++ [last]).length = (whole.length + c - 1) / c ∧
      ∀ i < (pieces ++ [last]).length,
        (pieces ++ [last])[i]? = some ((whole.drop (i * c)).take c) := by
  have hsplit : pieces.flatten ++ last = whole := by
    rw [← hwhole, List.flatten_append, List.flatten_singleton]
  have hfront := length_flatten_of_size h
  rw [List.length_append, List.length_singleton]
  constructor
  · have hrounded : whole.length + c - 1 = (last.length - 1) + c * (pieces.length + 1) := by
      rw [← hsplit, List.length_append, hfront, Nat.mul_comm pieces.length c, Nat.mul_succ]
      omega
    rw [hrounded, Nat.add_mul_div_left _ _ (hbegun.trans_le hlast),
      Nat.div_eq_of_lt (by omega), Nat.zero_add]
  · intro i hi
    by_cases hin : i < pieces.length
    · rw [List.getElem?_append_left hin, ← hsplit]
      exact getElem?_of_size h last hin
    · obtain rfl : i = pieces.length := by omega
      rw [List.getElem?_concat_length, ← hsplit, ← hfront, List.drop_left,
        List.take_of_length_le hlast]

end Pieces

/-! ## Filling a buffer over and over -/

/-- A stream with a copying sink that has handed over full buffers only, and only to make room. -/
structure Cutting (c : ℕ) (os : OStream) : Prop where
  sink : ∃ sink, os.flush_ = some sink ∧ sink.answer = Sink.copying.answer
  live : os.dead = false
  start : os.installed.offset = 0
  size : os.buffer.length = c
  end_eq : os.end_ = c
  within : os.offset ≤ c
  units : ∀ unit ∈ os.handed, unit.used = c ∧ unit.buffer.length = c
  begun : os.handed ≠ [] → 0 < os.offset

section Cuts

variable {c : ℕ} {os os' : OStream} {tape : Tape}

/-- A stream over a buffer with a copying sink begins to cut. -/
theorem cutting_ofBuffer {buffer : List UInt8} :
    Cutting buffer.length (.ofBuffer buffer 0 (some Sink.copying)) where
  sink := ⟨_, rfl, rfl⟩
  live := rfl
  start := rfl
  size := rfl
  end_eq := rfl
  within := Nat.zero_le _
  units _ hunit := absurd hunit List.not_mem_nil
  begun hne := absurd rfl hne

/-- A byte put where there is room goes on cutting. -/
theorem Cutting.put (h : Cutting c os) (hroom : os.offset < c) (b : UInt8) :
    Cutting c (os.put [b]) where
  sink := h.sink
  live := h.live
  start := h.start
  size := (Splice.overwrite_length _ _ _).trans h.size
  end_eq := h.end_eq
  within := hroom
  units := h.units
  begun _ := Nat.succ_pos _

/-- A full buffer is handed over and comes back. -/
theorem Cutting.drained (h : Cutting c os) (hc : 0 < c) (hfull : c ≤ os.offset) :
    ∃ os', drainFull os = (os', .ok ()) ∧ os'.offset = 0 ∧
      ∀ b, Cutting c (os'.put [b]) := by
  obtain ⟨sink, hsink, hanswer⟩ := h.sink
  have hback : sink.answer (sink.handed ++ [unit os]) = some (os.buffer, 0) := by
    rw [hanswer]
    change (sink.handed ++ [unit os]).getLast?.map _ = _
    rw [List.getLast?_concat]
    rfl
  have hdrain : drainFull os = handOver os := by
    rw [drainFull, self_bind, if_neg (by simp [h.live]), self_bind, if_neg (by simp [hsink])]
  refine ⟨adopting os sink os.buffer 0, ?_, rfl, fun b => ?_⟩
  · rw [hdrain]
    exact handOver_adopted hsink hback (h.size ▸ hc)
  · refine ⟨⟨_, rfl, hanswer⟩, h.live, rfl, ?_, h.size, hc, fun u hu => ?_, fun _ => Nat.succ_pos _⟩
    · exact (Splice.overwrite_length _ _ _).trans h.size
    · rcases List.mem_append.mp hu with hu | hu
      · exact h.units u (handed_of_flush_some hsink ▸ hu)
      · rw [List.mem_singleton.mp hu]
        exact ⟨Nat.le_antisymm h.within hfull, h.size⟩

/-- Pushing bytes cuts on. -/
theorem Cutting.pushed (h : Cutting c os) (hc : 0 < c) (bytes : List UInt8) :
    Cutting c (pushBytes bytes os).1 := by
  induction bytes generalizing os with
  | nil => exact h
  | cons b bytes ih =>
    rw [pushBytes_cons]
    by_cases hroom : os.offset < c
    · rw [bind_ok (makeRoom_of_room (h.end_eq ▸ hroom)), update_bind]
      exact ih (h.put hroom b)
    · obtain ⟨os', hdrain, -, hput⟩ := h.drained hc (Nat.le_of_not_lt hroom)
      rw [bind_ok ((makeRoom_of_full (h.end_eq ▸ Nat.le_of_not_lt hroom)).trans hdrain), update_bind]
      exact ih (hput b)

/-- A stream that has the same output goes on cutting alike. -/
theorem Cutting.of_sameOutput (h : Cutting c os') (hsame : SameOutput os os') : Cutting c os where
  sink := hsame.flush_ ▸ h.sink
  live := hsame.dead.symm.trans h.live
  start := by rw [← hsame.installed]; exact h.start
  size := hsame.size.symm.trans h.size
  end_eq := hsame.end_.symm.trans h.end_eq
  within := hsame.offset ▸ h.within
  units := by
    have hunits := h.units
    rwa [handed, hsame.flush_] at hunits
  begun := by
    have hbegun := h.begun
    rwa [handed, hsame.flush_, hsame.offset] at hbegun

/-- A call that is allowed cuts on. -/
theorem Cutting.step (h : Cutting c os) (hc : 0 < c) (hwritten : Written os tape) (host : Endian)
    {call : Call} (hallowed : call.Allowed tape.framing.depth) :
    Cutting c (call.write host os).1 := by
  have hok := hallowed.recorded.1
  rcases hemit : call.emit tape.framing with e | ⟨φ, bytes⟩
  · rw [Call.record_error hemit] at hok
    cases hok
  · have hperformed := call.write_performed host hwritten.sound hwritten.framed hemit
    exact (h.pushed hc bytes).of_sameOutput (hperformed.bytewise hwritten.sound (.refl os)).2

/-- Calls that are allowed are all made, and cut on. -/
theorem Cutting.after (h : Cutting c os) (hc : 0 < c)
    (hcarrying : Carrying Sink.copying.answer (·.offset = 0) os tape) (host : Endian)
    {cs : List Call} (hallowed : Allowed tape.framing.depth cs) :
    Cutting c (writeAll host cs os).1 ∧ Carrying Sink.copying.answer (·.offset = 0)
      (writeAll host cs os).1 (drive Call.record cs tape).1 := by
  induction cs generalizing os tape with
  | nil => exact ⟨h, hcarrying⟩
  | cons call cs ih =>
    have hstep := hcarrying.step Sink.copying_consuming (fun _ _ _ => Sink.copying_offset) host
      (fun _ (hop : Op.call call = _) => by cases hop; exact hallowed.1)
      (fun _ _ hop => by cases hop)
    refine ih (h.step hc hcarrying.written host hallowed.1) hstep.2 ?_
    change Allowed (call.record tape).1.framing.depth cs
    rw [hallowed.1.recorded.2]
    exact hallowed.2

end Cuts

/-- The bytes that a sink is given to consume. -/
def Handover.slice (unit : Handover) : List UInt8 := unit.buffer.take unit.used

/-- Behind a flush the slices that a copying sink was handed are all there is. -/
theorem flush_slices {os : OStream} {tape : Tape}
    (h : Carrying Sink.copying.answer (·.offset = 0) os tape) :
    ∃ os', flush os = (os', .ok os.offset) ∧
      os'.handed.flatMap Handover.slice = tape.bytes := by
  obtain ⟨hok, hlast⟩ := h.step Sink.copying_consuming (fun _ _ _ => Sink.copying_offset) .little
    (fun c (hop : Op.flush = _) => by cases hop) fun buffer offset hop => by cases hop
  have hflushed := flush_flushed h.written.sound
  rw [Op.run] at hok hlast
  generalize hflush : flush os = result at hflushed
  cases hflushed with
  | @ok os' reached live same drained =>
    rw [bind_ok hflush] at hlast
    have hsome : os'.flush_.isSome = true := by
      obtain ⟨sink, hsink, -⟩ := flush_some_of_answer hlast.answer_eq
      exact Option.isSome_of_eq_some hsink
    have hmessage : os'.message = tape.bytes := hlast.written.message
    rw [OStream.message, drained hsome, List.append_nil] at hmessage
    refine ⟨os', rfl, ?_⟩
    rw [← hmessage]
    refine List.flatMap_congr fun unit hunit => ?_
    rw [Handover.message, hlast.installs.2 unit hunit, List.drop_zero]
    rfl
  | refused reached dead same =>
    rw [bind_err hflush] at hok
    cases hok
  | unwound broken =>
    rw [bind_unwound hflush] at hok
    cases hok

/-- With nothing to do but hand over what is left, a flush adds at most one slice. -/
theorem Cutting.flushed {c : ℕ} {os : OStream} (h : Cutting c os) :
    (flush os).1.handed = os.handed ++ if 0 < os.offset then [unit os] else [] := by
  obtain ⟨sink, hsink, -⟩ := h.sink
  rw [flush, self_bind, if_neg (by simp [h.live])]
  by_cases hpending : 0 < os.offset
  · rw [if_pos ⟨hpending, by simp [hsink]⟩, if_pos hpending, ← handOver_handed hsink]
    rcases hrun : handOver os with ⟨os', u | e | _⟩
    · rw [bind_ok hrun]
      rfl
    · rw [bind_err hrun]
    · rw [bind_unwound hrun]
  · rw [if_neg (fun hboth => hpending hboth.1), if_neg hpending, List.append_nil]
    rfl

/-- However the writer calls divide the message, a copying sink with a buffer of `c` bytes has been
handed, behind a flush, the message in slices of `c` bytes and one slice of what is left. -/
theorem slices_exact (host : Endian) {buffer : List UInt8} {os : OStream}
    (hopen : withFlush buffer 0 Sink.copying = .ok os) {cs : List Call} (hcs : Allowed 0 cs) :
    let bytes := (unlimited host cs).1.message
    let slices := (flush (writeAll host cs os).1).1.handed.map Handover.slice
    slices.length = (bytes.length + buffer.length - 1) / buffer.length ∧
      ∀ i < slices.length,
        slices[i]? = some ((bytes.drop (i * buffer.length)).take buffer.length) := by
  obtain ⟨rfl, hroom, hwritten⟩ := written_withFlush rfl hopen
  have hcarrying : Carrying Sink.copying.answer (·.offset = 0)
      (.ofBuffer buffer 0 (some Sink.copying)) .new :=
    ⟨rfl, hwritten, .inr rfl, fun unit hunit => absurd hunit List.not_mem_nil⟩
  obtain ⟨hcut, hlast⟩ := cutting_ofBuffer.after hroom hcarrying host hcs
  obtain ⟨os', hflush, hbytes⟩ := flush_slices hlast
  intro bytes slices
  have hflatten : slices.flatten = bytes := by
    have hmessage : bytes = (record cs).1.bytes := unlimited_message host cs
    rw [hmessage]
    change (List.map Handover.slice _).flatten = _
    rw [hflush, ← List.flatMap_def, hbytes]
    rfl
  have hfull : ∀ slice ∈ (writeAll host cs (.ofBuffer buffer 0 (some Sink.copying))).1.handed.map
      Handover.slice, slice.length = buffer.length := by
    intro slice hslice
    obtain ⟨unit, hunit, rfl⟩ := List.mem_map.mp hslice
    obtain ⟨hused, hsize⟩ := hcut.units unit hunit
    rw [Handover.slice, List.length_take, hused, hsize, Nat.min_self]
  have hslices : slices = _ := congrArg (List.map Handover.slice) hcut.flushed
  rw [List.map_append] at hslices
  by_cases hpending : 0 < (writeAll host cs (.ofBuffer buffer 0 (some Sink.copying))).1.offset
  · rw [if_pos hpending, List.map_singleton] at hslices
    have hlength : (unit (writeAll host cs (.ofBuffer buffer 0 (some Sink.copying))).1).slice.length =
        (writeAll host cs (.ofBuffer buffer 0 (some Sink.copying))).1.offset := by
      have hwithin := hcut.within.trans_eq hcut.size.symm
      exact List.length_take_of_le hwithin
    rw [hslices]
    exact cut_of_size hfull (hlength ▸ hpending) (hlength ▸ hcut.within)
      (hslices ▸ hflatten)
  · have hnone : (writeAll host cs (.ofBuffer buffer 0 (some Sink.copying))).1.handed = [] := by
      by_contra hne
      exact hpending (hcut.begun hne)
    rw [if_neg hpending, hnone] at hslices
    have hempty : bytes = [] := by rw [← hflatten, hslices]; rfl
    rw [hslices, hempty]
    refine ⟨?_, fun i hi => absurd hi (Nat.not_lt_zero i)⟩
    rw [List.length_nil, Nat.zero_add, Nat.div_eq_of_lt (Nat.sub_lt hroom Nat.one_pos)]
    rfl

/-- Three bytes through a buffer of two. -/
theorem slices_exact_small :
    let slices := (flush (writeAll .little [.field (.unsigned 1 300)]
      (.ofBuffer [0, 0] 0 (some Sink.copying))).1).1.handed.map Handover.slice
    slices = [[8, 172], [2]] ∧ slices[1]? = some [2] := by
  have hvalid : (Field.unsigned 1 300).Valid := by decide
  have hopen : withFlush [0, 0] 0 Sink.copying = .ok (.ofBuffer [0, 0] 0 (some Sink.copying)) := rfl
  have hallowed : Allowed 0 [.field (.unsigned 1 300)] := ⟨hvalid, trivial⟩
  have hexact := slices_exact .little hopen hallowed
  refine ⟨by decide +kernel, ?_⟩
  exact (hexact.2 1 (by decide +kernel)).trans (by decide +kernel)

end Sofab
