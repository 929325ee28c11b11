import Sofab.Payload

/-!
# What an accumulator holds between payloads

A payload that arrives whole is never held, and one that is abandoned is held until the next
one starts. A payload that is completed by a later piece is handed back out of the buffer, and
the buffer is not cleared before the next start: until then the accumulator counts bytes that
it owes nobody.
-/

namespace Sofab

/-- A call of an accumulator. -/
inductive AccCall
  | feed (total offset : ℕ) (chunk : List UInt8)
  | reset
  deriving DecidableEq, Repr

/-- A payload of which some bytes have been received and more are to come. -/
structure Outstanding where
  total : ℕ
  received : ℕ
  deriving DecidableEq, Repr

namespace AccCall

/-- Make the call. -/
def run (acc : PayloadAcc) : AccCall → PayloadAcc
  | .feed total offset chunk => (acc.feed total offset chunk).1
  | .reset => acc.reset

/-- The payload that is outstanding after the call. -/
def leaves : AccCall → Option Outstanding
  | .feed total offset chunk =>
    if offset + chunk.length < total then some ⟨total, offset + chunk.length⟩ else none
  | .reset => none

/-- The call delivers the last piece of a payload and not its first. -/
def CompletesSplit : AccCall → Prop
  | .feed total offset chunk => 0 < offset ∧ offset + chunk.length = total
  | .reset => False

instance : DecidablePred CompletesSplit
  | .feed _ _ _ => inferInstanceAs (Decidable (_ ∧ _))
  | .reset => inferInstanceAs (Decidable False)

end AccCall

open AccCall

/-- Calls that deliver payloads in contiguous nonempty pieces. Any payload may be abandoned for
the start of another one or by a reset. -/
inductive Delivery : Option Outstanding → List AccCall → Prop
  | nil {current : Option Outstanding} : Delivery current []
  | start {current : Option Outstanding} {total : ℕ} {chunk : List UInt8} {calls : List AccCall}
      (hpiece : chunk = [] → total = 0) (hfit : chunk.length ≤ total)
      (hrest : Delivery (leaves (.feed total 0 chunk)) calls) :
      Delivery current (.feed total 0 chunk :: calls)
  | piece {total received : ℕ} {chunk : List UInt8} {calls : List AccCall}
      (hpiece : chunk ≠ []) (hfit : received + chunk.length ≤ total)
      (hrest : Delivery (leaves (.feed total received chunk)) calls) :
      Delivery (some ⟨total, received⟩) (.feed total received chunk :: calls)
  | reset {current : Option Outstanding} {calls : List AccCall} (hrest : Delivery none calls) :
      Delivery current (.reset :: calls)

/-- The accumulator after some calls. -/
def accAfter (acc : PayloadAcc) (calls : List AccCall) : PayloadAcc := calls.foldl run acc

/-- The bytes received so far of the payload that is outstanding after some calls. -/
def receivedAfter (current : Option Outstanding) (calls : List AccCall) : ℕ :=
  (calls.foldl (fun _ => leaves) current).elim 0 (·.received)

/-- An accumulator holds what has been received of the outstanding payload. -/
def Keeps (acc : PayloadAcc) (current : Option Outstanding) : Prop :=
  ∀ payload ∈ current, payload.received = acc.buf.length ∧ 0 < payload.received ∧
    acc.complete = false

/-- With no payload outstanding there is nothing to keep. -/
@[simp] theorem keeps_none (acc : PayloadAcc) : Keeps acc none := by
  rintro _ ⟨⟩

/-- Of an outstanding payload something is held, and just what has been received. -/
@[simp] theorem keeps_some {acc : PayloadAcc} {payload : Outstanding} :
    Keeps acc (some payload) ↔
      payload.received = acc.buf.length ∧ 0 < payload.received ∧ acc.complete = false := by
  simp [Keeps]

/-- A call keeps what it has to, and what is held is what has been received unless it has just
been handed back. -/
def Settles (acc : PayloadAcc) (call : AccCall) : Prop :=
  Keeps (run acc call) (leaves call) ∧
    ((run acc call).buffered = (leaves call).elim 0 (·.received) ↔ ¬call.CompletesSplit)

namespace PayloadAcc

variable {acc : PayloadAcc} {total received : ℕ} {chunk : List UInt8}

/-- The first piece of a payload settles, whatever was held before. -/
theorem settles_start (hpiece : chunk = [] → total = 0) (hfit : chunk.length ≤ total) :
    Settles acc (.feed total 0 chunk) := by
  by_cases hwhole : total ≤ chunk.length
  · have hfeed : run acc (.feed total 0 chunk) = ⟨[], true⟩ := by
      rw [run, feed, if_pos rfl, if_pos hwhole]
    have hleaves : leaves (.feed total 0 chunk) = none := if_neg (by omega)
    rw [Settles, hfeed, hleaves]
    simp [CompletesSplit, buffered]
  · have hfeed : run acc (.feed total 0 chunk) = ⟨chunk, false⟩ := by
      have hawaits : acc.Awaits 0 [] := ⟨rfl, fun h => absurd h (Nat.lt_irrefl 0)⟩
      rw [run, feed_of_lt hawaits (by omega), List.nil_append]
    have hleaves : leaves (.feed total 0 chunk) = some ⟨total, chunk.length⟩ := by
      rw [leaves, Nat.zero_add, if_pos (by omega)]
    have hne : chunk ≠ [] := fun hnil => hwhole (by rw [hpiece hnil]; exact Nat.zero_le _)
    rw [Settles, hfeed, hleaves]
    simp [CompletesSplit, buffered, List.length_pos_iff.mpr hne]

/-- A later piece settles on what was held. -/
theorem settles_piece (hkeeps : Keeps acc (some ⟨total, received⟩))
    (hfit : received + chunk.length ≤ total) : Settles acc (.feed total received chunk) := by
  obtain ⟨hreceived, hpos, hcomplete⟩ := keeps_some.mp hkeeps
  obtain ⟨held, complete⟩ := acc
  obtain rfl : complete = false := hcomplete
  replace hreceived : received = held.length := hreceived
  subst hreceived
  replace hpos : 0 < held.length := hpos
  by_cases hlast : held.length + chunk.length = total
  · have hfeed : run ⟨held, false⟩ (.feed total held.length chunk) = ⟨held ++ chunk, true⟩ := by
      rw [run, feed, if_neg hpos.ne', if_neg Bool.false_ne_true, gather]
      simp [hlast]
    have hleaves : leaves (.feed total held.length chunk) = none := if_neg (by omega)
    rw [Settles, hfeed, hleaves]
    refine ⟨keeps_none _, ?_⟩
    rw [buffered, List.length_append, hlast, Option.elim_none, CompletesSplit]
    omega
  · have hfeed : run ⟨held, false⟩ (.feed total held.length chunk) = ⟨held ++ chunk, false⟩ := by
      have hawaits : Awaits ⟨held, false⟩ held.length held := ⟨rfl, fun _ => rfl⟩
      rw [run, feed_of_lt hawaits (by omega)]
    have hleaves : leaves (.feed total held.length chunk) =
        some ⟨total, held.length + chunk.length⟩ := if_pos (by omega)
    rw [Settles, hfeed, hleaves]
    refine ⟨keeps_some.mpr ⟨List.length_append.symm, Nat.add_pos_left hpos _, rfl⟩, ?_⟩
    simp [CompletesSplit, buffered, hlast]

/-- A reset settles: nothing is held. -/
theorem settles_reset : Settles acc .reset := by
  simp [Settles, run, leaves, reset, CompletesSplit, buffered]

end PayloadAcc

/-- Each call of a delivery, and the delivery that is left after it. -/
theorem Delivery.settles {acc : PayloadAcc} {current : Option Outstanding} {call : AccCall}
    {calls : List AccCall} (h : Delivery current (call :: calls)) (hkeeps : Keeps acc current) :
    Settles acc call ∧ Delivery (leaves call) calls := by
  cases h with
  | start hpiece hfit hrest => exact ⟨PayloadAcc.settles_start hpiece hfit, hrest⟩
  | piece _ hfit hrest => exact ⟨PayloadAcc.settles_piece hkeeps hfit, hrest⟩
  | reset hrest => exact ⟨PayloadAcc.settles_reset, hrest⟩

/-- All along a delivery, from any accumulator that holds what has been received. -/
theorem Delivery.buffered_iff {current : Option Outstanding} {calls : List AccCall}
    (h : Delivery current calls) {acc : PayloadAcc} (hkeeps : Keeps acc current)
    (hbuffered : acc.buffered = current.elim 0 (·.received)) :
    (∀ done, done <+: calls → (accAfter acc done).buffered = receivedAfter current done) ↔
      ∀ call ∈ calls, ¬call.CompletesSplit := by
  induction calls generalizing acc current with
  | nil =>
    refine iff_of_true (fun done hdone => ?_) (by simp)
    rw [List.prefix_nil.mp hdone]
    exact hbuffered
  | cons call calls ih =>
    obtain ⟨⟨hkeeps', hiff⟩, hrest⟩ := h.settles hkeeps
    rw [List.forall_mem_cons, ← hiff]
    constructor
    · intro hall
      have hfirst : (run acc call).buffered = (leaves call).elim 0 (·.received) :=
        hall [call] ⟨calls, rfl⟩
      refine ⟨hfirst, (ih hrest hkeeps' hfirst).mp fun done hdone => ?_⟩
      exact hall (call :: done) (List.cons_prefix_cons.mpr ⟨rfl, hdone⟩)
    · rintro ⟨hfirst, hlater⟩ done hdone
      rcases List.prefix_cons_iff.mp hdone with rfl | ⟨more, rfl, hmore⟩
      · exact hbuffered
      · exact (ih hrest hkeeps' hfirst).mpr hlater more hmore

/-- What a fresh accumulator holds is at every point what has been received of the outstanding
payload, just if no payload is completed by a piece that is not its first. -/
theorem buffered_iff_none_completed_split {calls : List AccCall} (h : Delivery none calls) :
    (∀ done, done <+: calls → (accAfter .new done).buffered = receivedAfter none done) ↔
      ∀ call ∈ calls, ¬call.CompletesSplit :=
  h.buffered_iff (keeps_none _) rfl

/-- A payload in two pieces is still counted after it has been handed back. -/
theorem buffered_after_split :
    let calls : List AccCall :=
      [.feed 5 0 [0x73, 0x6F], .feed 5 2 [0x66, 0x61, 0x62]]
    Delivery none calls ∧
      ((accAfter .new (calls.take 1)).feed 5 2 [0x66, 0x61, 0x62]).2 =
        some [0x73, 0x6F, 0x66, 0x61, 0x62] ∧
      (accAfter .new calls).buffered = 5 ∧ receivedAfter none calls = 0 := by
  refine ⟨?_, rfl, rfl, rfl⟩
  exact .start (by decide) (by decide) (.piece (by decide) (by decide) .nil)

/-- A payload that is abandoned, one that arrives whole, and one that is dropped by a reset. -/
theorem buffered_iff_none_completed_split_abandoned :
    let calls : List AccCall := [.feed 4 0 [1, 2], .feed 4 2 [3], .feed 2 0 [4, 5],
      .feed 0 0 [], .feed 3 0 [6], .reset]
    ∀ done, done <+: calls → (accAfter .new done).buffered = receivedAfter none done := by
  intro calls
  have h : Delivery none calls :=
    .start (by decide) (by decide) (.piece (by decide) (by decide) (.start (by decide) (by decide)
      (.start (by decide) (by decide) (.start (by decide) (by decide) (.reset .nil)))))
  exact (buffered_iff_none_completed_split h).mpr (by decide)

end Sofab
