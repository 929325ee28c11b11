import Sofab.Decoding

/-!
# Reassembling payloads

A visitor that wants whole payloads forwards every string and blob callback to an accumulator.
The accumulator knows nothing of fields: where a payload starts and ends it infers from the
offsets and the lengths alone, so what it was left with never shows.
-/

namespace Sofab

open IStream

/-- Collects a payload that arrives in pieces. -/
structure PayloadAcc where
  buf : List UInt8
  complete : Bool
  deriving DecidableEq, Repr

namespace PayloadAcc

/-- An empty accumulator. -/
def new : PayloadAcc := ⟨[], false⟩

/-- Drop a partially accumulated payload. -/
def reset (_ : PayloadAcc) : PayloadAcc := ⟨[], false⟩

/-- Append a piece; the whole payload if that completes it. -/
def gather (acc : PayloadAcc) (total : ℕ) (chunk : List UInt8) :
    PayloadAcc × Option (List UInt8) :=
  let buf := acc.buf ++ chunk
  if buf.length < total then
    ({ acc with buf := buf }, none)
  else
    -- a source that delivers too much does not widen the payload
    (⟨buf, true⟩, some (buf.take total))

/-- Accept one piece of a payload; the whole payload once it is complete. -/
def feed (acc : PayloadAcc) (total offset : ℕ) (chunk : List UInt8) :
    PayloadAcc × Option (List UInt8) :=
  if offset = 0 then
    if total ≤ chunk.length then
      (⟨[], true⟩, some (chunk.take total))
    else
      gather ⟨[], false⟩ total chunk
  else if acc.complete then
    (acc, none)
  else
    gather acc total chunk

/-- Number of payload bytes currently held. -/
def buffered (acc : PayloadAcc) : ℕ := acc.buf.length

/-- What a visitor that forwards its payload callbacks makes of one callback. -/
def forward (acc : PayloadAcc) : Callback → PayloadAcc × Option (List UInt8)
  | .string _ total offset chunk => acc.feed total offset chunk
  | .blob _ total offset chunk => acc.feed total offset chunk
  | _ => (acc, none)

/-- The payloads handed back over a run of callbacks. -/
def forwardAll (acc : PayloadAcc) : List Callback → List (List UInt8)
  | [] => []
  | c :: cs => (acc.forward c).2.toList ++ (acc.forward c).1.forwardAll cs

end PayloadAcc

/-- The payload that a callback delivers whole. -/
def Callback.finished : Callback → Option (List UInt8)
  | .string _ total _ chunk => if chunk.length = total then some chunk else none
  | .blob _ total _ chunk => if chunk.length = total then some chunk else none
  | _ => none

/-- A callback delivers no more than its payload has left. -/
def Within : Callback → Prop
  | .string _ total offset chunk => offset + chunk.length ≤ total
  | .blob _ total offset chunk => offset + chunk.length ≤ total
  | _ => True

/-- For payloads of either kind it is the offset and the piece that count. -/
@[simp] theorem within_payload {isBlob : Bool} {id : Id} {total offset : ℕ} {chunk : List UInt8} :
    Within (.payload isBlob id total offset chunk) ↔ offset + chunk.length ≤ total := by
  cases isBlob <;> rfl

/-- No announcement delivers anything. -/
theorem announced_within : Announced Within where
  unsigned _ _ := trivial
  signed _ _ := trivial
  fixlenBegin _ _ _ := trivial
  arrayBegin _ _ _ := trivial
  sequenceBegin _ := trivial
  sequenceEnd := trivial

/-- The contents of a field deliver no more than was announced. -/
theorem delivered_within : Delivered Within where
  payload _ _ _ chunk _ hlen := within_payload.mpr (by omega)
  integer signed _ _ := by cases signed <;> trivial
  float fp64 _ _ := by cases fp64 <;> trivial

/-- Cutting payloads into nonempty pieces presupposes that they are properly sized. -/
theorem Joined.whole_proper {run whole : List Callback} (h : Joined run whole) :
    ∀ c ∈ whole, Proper c := by
  induction h with
  | nil => simp
  | call hproper _ ih => exact List.forall_mem_cons.mpr ⟨hproper, ih⟩
  | piece hne _ ih =>
    refine List.forall_mem_cons.mpr ⟨proper_payload.mpr fun hnil => ?_, ?_⟩
    · exact absurd (List.append_eq_nil_iff.mp hnil).1 hne
    · exact fun c hc => ih c (List.mem_cons_of_mem _ hc)

/-! ## What the accumulator holds -/

/-- Put bytes in front of the piece that a callback delivers. -/
def Callback.ahead (held : List UInt8) : Callback → Callback
  | .string id total offset chunk => .string id total (offset - held.length) (held ++ chunk)
  | .blob id total offset chunk => .blob id total (offset - held.length) (held ++ chunk)
  | c => c

namespace PayloadAcc

/-- An accumulator holds what precedes a piece at `offset`; at the start that is nothing,
whatever the accumulator was left with. -/
structure Awaits (acc : PayloadAcc) (offset : ℕ) (held : List UInt8) : Prop where
  length_eq : held.length = offset
  acc_eq : 0 < offset → acc = ⟨held, false⟩

/-- An accumulator holds what precedes the piece that a callback delivers. -/
def Takes (acc : PayloadAcc) (held : List UInt8) : Callback → Prop
  | .string _ _ offset _ => acc.Awaits offset held
  | .blob _ _ offset _ => acc.Awaits offset held
  | _ => True

/-- For payloads of either kind it is the offset that counts. -/
theorem takes_payload {acc : PayloadAcc} {held : List UInt8} {isBlob : Bool} {id : Id}
    {total offset : ℕ} {chunk : List UInt8} :
    acc.Takes held (.payload isBlob id total offset chunk) ↔ acc.Awaits offset held := by
  cases isBlob <;> rfl

/-- A payload of either kind is fed as a piece. -/
theorem forward_payload (acc : PayloadAcc) (isBlob : Bool) (id : Id) (total offset : ℕ)
    (chunk : List UInt8) :
    acc.forward (.payload isBlob id total offset chunk) = acc.feed total offset chunk := by
  cases isBlob <;> rfl

/-- Any accumulator is ready for a callback that starts its payload. -/
theorem takes_fromStart (acc : PayloadAcc) {c : Callback} (hstart : FromStart c) :
    acc.Takes [] c := by
  cases c with
  | string _ _ offset _ => exact ⟨hstart.symm, fun hpos => absurd hstart hpos.ne'⟩
  | blob _ _ offset _ => exact ⟨hstart.symm, fun hpos => absurd hstart hpos.ne'⟩
  | _ => trivial

/-- With no bytes to put in front a callback is what it is. -/
theorem ahead_nil (c : Callback) : c.ahead [] = c := by
  cases c <;> rfl

/-- A piece of which more is to come is kept. -/
theorem feed_of_lt {acc : PayloadAcc} {total offset : ℕ} {held chunk : List UInt8}
    (h : acc.Awaits offset held) (hlt : offset + chunk.length < total) :
    acc.feed total offset chunk = (⟨held ++ chunk, false⟩, none) := by
  have hlen : (held ++ chunk).length < total := by
    rw [List.length_append, h.length_eq]
    exact hlt
  rcases Nat.eq_zero_or_pos offset with rfl | hpos
  · obtain rfl : held = [] := List.eq_nil_of_length_eq_zero h.length_eq
    rw [feed, if_pos rfl, if_neg (by omega), gather, if_pos hlen]
  · rw [feed, if_neg hpos.ne', h.acc_eq hpos, if_neg Bool.false_ne_true, gather, if_pos hlen]

/-- The last piece gives the payload. -/
theorem feed_of_eq {acc : PayloadAcc} {total offset : ℕ} {held chunk : List UInt8}
    (h : acc.Awaits offset held) (heq : offset + chunk.length = total) :
    (acc.feed total offset chunk).2 = some (held ++ chunk) := by
  have hlen : (held ++ chunk).length = total := by
    rw [List.length_append, h.length_eq]
    exact heq
  rcases Nat.eq_zero_or_pos offset with rfl | hpos
  · obtain rfl : held = [] := List.eq_nil_of_length_eq_zero h.length_eq
    rw [feed, if_pos rfl, if_pos (by omega), List.take_of_length_le (by omega), List.nil_append]
  · rw [feed, if_neg hpos.ne', h.acc_eq hpos, if_neg Bool.false_ne_true, gather]
    dsimp only
    rw [if_neg hlen.not_lt, List.take_of_length_le hlen.le]

/-- A callback finishes the payload of which the accumulator holds the front, or none. -/
theorem forward_finished {acc : PayloadAcc} {held : List UInt8} {c : Callback}
    (h : acc.Takes held c) (hwithin : Within c) :
    (acc.forward c).2 = (c.ahead held).finished := by
  have hfeed {total offset : ℕ} {chunk : List UInt8} (h : acc.Awaits offset held)
      (hwithin : offset + chunk.length ≤ total) : (acc.feed total offset chunk).2 =
        if (held ++ chunk).length = total then some (held ++ chunk) else none := by
    rw [List.length_append, h.length_eq]
    split
    · next heq => exact feed_of_eq h heq
    · next hne => rw [feed_of_lt h (Nat.lt_of_le_of_ne hwithin hne)]
  cases c with
  | string => exact hfeed h hwithin
  | blob => exact hfeed h hwithin
  | _ => rfl

/-- Over a run of pieces the accumulator hands back what the whole callbacks deliver, the
first of them continuing the payload it holds. -/
theorem forwardAll_joined {run whole : List Callback} (h : Joined run whole)
    (hwithin : ∀ c ∈ whole, Within c) (hstart : ∀ c ∈ whole.tail, FromStart c)
    {acc : PayloadAcc} (held : List UInt8) (htakes : ∀ c ∈ whole.head?, acc.Takes held c) :
    acc.forwardAll run = (whole.modifyHead (Callback.ahead held)).filterMap Callback.finished := by
  induction h generalizing acc held with
  | nil => rfl
  | @call c run whole _ _ ih =>
    obtain ⟨hc, hrest⟩ := List.forall_mem_cons.mp hwithin
    have hnext : (acc.forward c).1.forwardAll run = whole.filterMap Callback.finished := by
      rw [ih hrest (fun d hd => hstart d (List.mem_of_mem_tail hd)) []
        fun d hd => takes_fromStart _ (hstart d (List.mem_of_mem_head? hd))]
      cases whole with
      | nil => rfl
      | cons d whole => rw [List.modifyHead_cons, ahead_nil]
    rw [forwardAll, forward_finished (htakes c rfl) hc, hnext, List.modifyHead_cons,
      List.filterMap_cons]
    cases (c.ahead held).finished <;> rfl
  | @piece isBlob id total offset chunk chunk' run whole hne hjoined ih =>
    obtain ⟨hpiece, hrest⟩ := List.forall_mem_cons.mp hwithin
    have hlater : offset + chunk.length + chunk'.length ≤ total := by
      rw [within_payload, List.length_append] at hpiece
      omega
    have hne' : chunk' ≠ [] := fun hnil => by
      have htotal := proper_payload.mp (hjoined.whole_proper _ List.mem_cons_self) hnil
      have hpos := List.length_pos_iff.mpr hne
      omega
    have hpos' := List.length_pos_iff.mpr hne'
    have hawaits : acc.Awaits offset held := takes_payload.mp (htakes _ rfl)
    have hfeed := feed_of_lt hawaits (show offset + chunk.length < total by omega)
    rw [forwardAll, forward_payload, hfeed, Option.toList_none, List.nil_append,
      ih (List.forall_mem_cons.mpr ⟨within_payload.mpr hlater, hrest⟩) hstart
        (held ++ chunk) fun d hd => by
          rw [← Option.mem_some.mp hd]
          refine takes_payload.mpr ⟨?_, fun _ => rfl⟩
          rw [List.length_append, hawaits.length_eq]]
    rw [List.modifyHead_cons, List.modifyHead_cons]
    congr 2
    cases isBlob <;> simp [Callback.payload, Callback.ahead, hawaits.length_eq]

end PayloadAcc

/-- However a message is cut into chunks, and whatever the accumulator was left with, the
payloads handed back are those that the reference reading delivers whole, in order. -/
theorem reassembly_exact (acc : PayloadAcc) (chunk : List UInt8) (rest : List (List UInt8)) :
    acc.forwardAll (IStream.feedAll IStream.new chunk rest).calls =
      (calls (readMessage (chunk :: rest).flatten).notes).filterMap Callback.finished := by
  obtain ⟨-, hjoined⟩ := feedAll_reads chunk rest wellFormed_new new_valid
  rw [new_live, List.nil_append] at hjoined
  have hread : readRest IStream.new.resume IStream.new.depth (chunk :: rest).flatten =
      readMessage (chunk :: rest).flatten := congrFun (readRest_none 0) _
  rw [hread] at hjoined
  have hwhole := readFields_whole 0 (chunk :: rest).flatten
  have hwithin := readFields_calls announced_within delivered_within 0 (chunk :: rest).flatten
  rw [PayloadAcc.forwardAll_joined hjoined hwithin
    (fun c hc => (hwhole c (List.mem_of_mem_tail hc)).2) []
    fun c hc => PayloadAcc.takes_fromStart acc (hwhole c (List.mem_of_mem_head? hc)).2]
  rw [show Callback.ahead [] = id from funext PayloadAcc.ahead_nil, List.modifyHead_id]
  rfl

end Sofab
