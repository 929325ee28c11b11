import Sofab.Checked
import Sofab.Restart

/-!
# The unchecked decoder may take what it does for granted

On a sane stream no checked step faults, and each reports what its unchecked twin does. The
parser needs no more than that. What surrounds it also needs the carry to hold the unread
start of one item, so this is shown of the streams that feeds lead to.
-/

namespace Sofab

open Digits DecodeM CheckedM IStream

variable {α β : Type} {is : IStream}

/-- What the parser asks of a stream: few enough sequences are open, and a payload in progress
misses some of its bytes and no more than all. -/
structure Sane (is : IStream) : Prop where
  depth : is.depth ≤ maxDepth
  resume : Resumable is.resume

/-- The checked step `c` does not fault on `is`. It reports what the unchecked step `m` does,
and the stream left is sane. -/
structure Faultless (c : CheckedM α) (m : DecodeM α) (is : IStream) : Prop where
  agrees : c is = some (m is)
  sane : Sane (m is).is

/-! ## Steps -/

/-- A step without checks has nothing to fault on. -/
theorem faultless_lift {m : DecodeM α} (h : Sane (m is).is) : Faultless (lift m) m is := ⟨rfl, h⟩

/-- Returning a value does not fault. -/
theorem faultless_pure (a : α) (h : Sane is) : Faultless (pure a) (pure a) is := ⟨rfl, h⟩

/-- Reporting an error does not fault. -/
theorem faultless_fail (e : Error) (h : Sane is) :
    Faultless (lift (fail e) : CheckedM α) (fail e) is := ⟨rfl, h⟩

/-- Steps in sequence. -/
theorem Faultless.bind {c : CheckedM α} {m : DecodeM α} {g : α → CheckedM β} {f : α → DecodeM β}
    (h : Faultless c m is)
    (hnext : ∀ a, (m is).result = .ok a → Faultless (g a) (f a) (m is).is) :
    Faultless (c >>= g) (m >>= f) is := by
  have hagrees := h.agrees
  have hsane := h.sane
  have hbind : (c >>= g) is = CheckedM.bind c g is := rfl
  rcases hrun : m is with ⟨calls, is', e | a⟩
  · rw [hrun] at hagrees hsane
    refine ⟨?_, ?_⟩
    · rw [hbind, CheckedM.bind, hagrees, DecodeM.bind_error hrun]
    · rw [DecodeM.bind_error hrun]
      exact hsane
  · rw [hrun] at hagrees hnext
    obtain ⟨hagrees', hsane'⟩ := hnext a rfl
    refine ⟨?_, ?_⟩
    · rw [hbind, CheckedM.bind, hagrees, DecodeM.bind_ok hrun]
      simp only [hagrees', Option.map_some]
    · rw [DecodeM.bind_ok hrun]
      exact hsane'

/-- Looking at the stream. -/
theorem faultless_self_bind {g : IStream → CheckedM α} {f : IStream → DecodeM α} (h : Sane is)
    (hnext : Faultless (g is) (f is) is) : Faultless (lift self >>= g) (self >>= f) is :=
  (faultless_lift (m := self) h).bind fun _ hresult => by
    cases hresult
    exact hnext

/-- A choice that both make. -/
theorem faultless_ite {p : Prop} [Decidable p] {c d : CheckedM α} {m n : DecodeM α}
    (hpos : p → Faultless c m is) (hneg : ¬p → Faultless d n is) :
    Faultless (if p then c else d) (if p then m else n) is := by
  by_cases hp : p
  · rw [if_pos hp, if_pos hp]
    exact hpos hp
  · rw [if_neg hp, if_neg hp]
    exact hneg hp

/-- A check that has no twin: it leaves the stream as it is and only gives a value. -/
theorem faultless_check_bind {c : CheckedM β} {b : β} {g : β → CheckedM α} {m : DecodeM α}
    (hcheck : c is = some ⟨[], is, .ok b⟩) (hnext : Faultless (g b) m is) :
    Faultless (c >>= g) m is := by
  refine ⟨?_, hnext.sane⟩
  change CheckedM.bind c g is = _
  rw [CheckedM.bind, hcheck]
  simp only [hnext.agrees, Option.map_some]
  rfl

/-- A change to a sane stream is followed by a step that does not fault there. -/
theorem faultless_update_bind {u : IStream → IStream} {g : Unit → CheckedM α} {f : Unit → DecodeM α}
    (h : Sane (u is)) (hnext : Faultless (g ()) (f ()) (u is)) :
    Faultless (lift (update u) >>= g) (update u >>= f) is :=
  (faultless_lift (m := update u) h).bind fun _ _ => hnext

/-- Behind a callback it is the next step that must not fault. -/
theorem faultless_visit_bind {call : Callback} {g : Unit → CheckedM α} {f : Unit → DecodeM α}
    (h : Sane is) (hnext : Faultless (g ()) (f ()) is) :
    Faultless (lift (visit call) >>= g) (visit call >>= f) is :=
  (faultless_lift (m := visit call) h).bind fun _ _ => hnext

/-- A value that is there. -/
theorem faultless_demand_bind {a : Option β} {b : β} {g : β → CheckedM α} {m : DecodeM α}
    (ha : a = some b) (hnext : Faultless (g b) m is) : Faultless (demand a >>= g) m is := by
  refine faultless_check_bind ?_ hnext
  rw [demand, ha]
  rfl

/-- A condition that holds is no fault. -/
theorem faultless_require_bind {p : Prop} [Decidable p] {g : Unit → CheckedM α} {m : DecodeM α}
    (hp : p) (hnext : Faultless (g ()) m is) : Faultless (require p >>= g) m is :=
  faultless_demand_bind (if_pos hp) hnext

/-- A subtraction that does not fall below zero is no fault. -/
theorem faultless_sub_bind {a b : ℕ} {g : ℕ → CheckedM α} {m : DecodeM α} (hle : b ≤ a)
    (hnext : Faultless (g (a - b)) m is) : Faultless (sub a b >>= g) m is :=
  faultless_demand_bind (if_pos hle) hnext

/-- A byte inside the slice is read without a fault. -/
theorem faultless_byteAt_bind {buf : List UInt8} {i : ℕ} {g : UInt8 → CheckedM α} {m : DecodeM α}
    (hlt : i < buf.length) (hnext : Faultless (g (buf.getD i 0)) m is) :
    Faultless (byteAt buf i >>= g) m is := by
  refine faultless_demand_bind (b := buf.getD i 0) ?_ hnext
  rw [List.getElem?_eq_getElem hlt, List.getD_eq_getElem _ _ hlt]

/-- A window inside the slice is taken without a fault. -/
theorem faultless_window_bind {buf : List UInt8} {start n : ℕ} {g : List UInt8 → CheckedM α}
    {m : DecodeM α} (hle : start + n ≤ buf.length)
    (hnext : Faultless (g ((buf.drop start).take n)) m is) :
    Faultless (window buf start n >>= g) m is :=
  faultless_demand_bind (if_pos hle) hnext

/-- The slice from a position up to its end is taken without a fault. -/
theorem faultless_onward_bind {buf : List UInt8} {start : ℕ} {g : List UInt8 → CheckedM α}
    {m : DecodeM α} (hle : start ≤ buf.length) (hnext : Faultless (g (buf.drop start)) m is) :
    Faultless (onward buf start >>= g) m is :=
  faultless_demand_bind (if_pos hle) hnext

/-! ## Varints -/

/-- A word with a bit set has fewer than 64 trailing zeros. -/
theorem trailingZeros_lt {x : UInt64} (h : x ≠ 0) : trailingZeros x < 64 := by
  have hne : x.toNat ≠ 0 := fun hzero => h (UInt64.toNat_inj.mp hzero)
  obtain ⟨i, hset⟩ := Nat.exists_testBit_of_ne_zero hne
  have hi : i < 64 := by
    by_contra hle
    have hlt : x.toNat < 2 ^ i :=
      x.toNat_lt.trans_le (Nat.pow_le_pow_right (by decide) (Nat.le_of_not_lt hle))
    rw [Nat.testBit_lt_two_pow hlt] at hset
    cases hset
  rw [trailingZeros]
  rcases hfind : (List.range 64).find? fun j => x.toNat.testBit j with _ | j
  · have hclear := List.find?_eq_none.mp hfind i (List.mem_range.mpr hi)
    exact absurd hset hclear
  · exact List.mem_range.mp (List.mem_of_find?_eq_some hfind)

/-- Ten bytes of room are all that the wide load and its tail reach. -/
theorem faultless_readVarintWide {buf : List UInt8} {start : ℕ} (hsane : Sane is)
    (hwide : start + maxVarintLen ≤ buf.length) :
    Faultless (Checked.readVarintWide buf start) (ofExcept (readVarintWide buf start)) is := by
  change start + 10 ≤ _ at hwide
  rw [Checked.readVarintWide, readVarintWide]
  refine faultless_window_bind (by omega) ?_
  simp only
  split
  · next hterm =>
    have hlen := trailingZeros_lt hterm
    exact faultless_require_bind (by omega) (faultless_pure _ hsane)
  · refine faultless_byteAt_bind (by omega) ?_
    split
    · exact faultless_pure _ hsane
    · refine faultless_byteAt_bind (by omega) ?_
      split
      · exact faultless_fail _ hsane
      · exact faultless_pure _ hsane

/-- With ten bytes of room a varint is read without a fault, by whichever load. -/
theorem faultless_readVarintReady {buf : List UInt8} {pos : ℕ} (hsane : Sane is)
    (hready : pos + maxVarintLen ≤ buf.length) :
    Faultless (Checked.readVarintReady buf pos) (ofExcept (readVarintReady buf pos)) is := by
  rw [Checked.readVarintReady, readVarintReady]
  refine faultless_byteAt_bind (Nat.lt_of_lt_of_le (Nat.lt_add_of_pos_right (by decide)) hready) ?_
  split
  · exact faultless_pure _ hsane
  · exact faultless_readVarintWide hsane hready

/-- With less room the byte loop stays inside the slice. -/
theorem faultless_readVarintTail {buf : List UInt8} {start : ℕ} (hsane : Sane is)
    (hstart : start ≤ buf.length) (hshort : buf.length - start < maxVarintLen) :
    Faultless (Checked.readVarintTail buf start) (pure (readVarintTail buf start)) is :=
  faultless_sub_bind hstart (faultless_require_bind hshort (faultless_pure _ hsane))

/-- Mapping a result is a step behind it. -/
theorem ofExcept_map (result : Except Error α) (f : α → β) :
    ofExcept (result.map f) = ofExcept result >>= fun a => pure (f a) := by
  cases result with
  | error e => rfl
  | ok a => rfl

/-- A varint is read without a fault at every position. -/
theorem faultless_readVarint (buf : List UInt8) (pos : ℕ) (hsane : Sane is) :
    Faultless (Checked.readVarint buf pos) (ofExcept (readVarint buf pos)) is := by
  rw [Checked.readVarint, readVarint]
  split
  · exact faultless_pure _ hsane
  next hpos =>
  refine faultless_byteAt_bind (Nat.lt_of_not_le hpos) ?_
  simp only
  split
  · exact faultless_pure _ hsane
  refine faultless_sub_bind (Nat.le_of_not_le hpos) ?_
  split
  · next hwide =>
    rw [ofExcept_map]
    have hready : pos + maxVarintLen ≤ buf.length := by omega
    have hfound := faultless_readVarintWide hsane hready
    exact hfound.bind fun _ _ => faultless_pure _ hfound.sane
  · next hshort =>
    have htail := faultless_readVarintTail hsane (Nat.le_of_not_le hpos) (Nat.lt_of_not_le hshort)
    refine faultless_check_bind htail.agrees ?_
    rcases readVarintTail buf pos with _ | ⟨value, len⟩
    · exact faultless_pure _ hsane
    · exact faultless_pure _ hsane

/-- Reading a varint, then going on behind it or at its missing end. -/
theorem faultless_readVarint_bind {buf : List UInt8} {pos : ℕ}
    {g : Option (Unsigned × ℕ) → CheckedM α} {f : Option (Unsigned × ℕ) → DecodeM α}
    (hsane : Sane is) (hnone : Faultless (g none) (f none) is)
    (hsome : ∀ value next, next ≤ buf.length →
      Faultless (g (some (value, next))) (f (some (value, next))) is) :
    Faultless (Checked.readVarint buf pos >>= g) (ofExcept (readVarint buf pos) >>= f) is := by
  refine (faultless_readVarint buf pos hsane).bind fun a ha => ?_
  change readVarint buf pos = .ok a at ha
  rcases readVarint_cases buf pos with ⟨value, next, spelling, hread, -, hinside, -⟩ | ⟨hread, -⟩ |
    ⟨hread, -⟩
  · rw [hread] at ha
    cases ha
    exact hsome value next hinside
  · rw [hread] at ha
    cases ha
    exact hnone
  · rw [hread] at ha
    cases ha

/-! ## Arrays and payloads -/

/-- The bytes of a float are taken without a fault where they are all there. -/
theorem faultless_emitFixlenValue {fp64 : Bool} {buf : List UInt8} {pos : ℕ} (id : Id)
    (hsane : Sane is) (hinside : pos + elemLen fp64 ≤ buf.length) :
    Faultless (Checked.emitFixlenValue fp64 buf pos id) (visit (emitFixlenValue fp64 buf pos id))
      is := by
  refine faultless_window_bind hinside ?_
  cases fp64 with
  | false => exact faultless_lift hsane
  | true => exact faultless_lift hsane

/-- The bulk loop reads only where ten bytes are left. -/
theorem faultless_intArrayBulk (signed : Bool) (buf : List UInt8) (id : Id) (rem p : ℕ)
    (hsane : Sane is) :
    Faultless (Checked.intArrayBulk signed buf id rem p) (intArrayBulk signed buf id rem p) is := by
  induction rem generalizing p with
  | zero => exact faultless_pure _ hsane
  | succ rem ih =>
    rw [Checked.intArrayBulk, intArrayBulk]
    split
    · next hready =>
      refine (faultless_readVarintReady hsane hready).bind fun a _ => ?_
      rcases a with ⟨val, next⟩
      exact faultless_visit_bind hsane (ih next)
    · exact faultless_pure _ hsane

/-- The loop at the end of the buffer reads only what is left. -/
theorem faultless_intArrayTail (signed : Bool) (buf : List UInt8) (id : Id) (rem p : ℕ)
    (hsane : Sane is) :
    Faultless (Checked.intArrayTail signed buf id rem p) (intArrayTail signed buf id rem p) is := by
  induction rem generalizing p with
  | zero => exact faultless_pure _ hsane
  | succ rem ih =>
    rw [Checked.intArrayTail, intArrayTail]
    have hsuspended : Sane { is with resume := .arrayInt id signed (rem + 1) } :=
      ⟨hsane.depth, trivial⟩
    refine faultless_readVarint_bind hsane ?_ fun val next _ => ?_
    · exact faultless_update_bind hsuspended (faultless_pure _ hsuspended)
    · exact faultless_visit_bind hsane (ih next)

/-- Integer elements are read without a fault. -/
theorem faultless_intArray (signed : Bool) (buf : List UInt8) (pos : ℕ) (id : Id) (rem : ℕ)
    (hsane : Sane is) :
    Faultless (Checked.intArray signed buf pos id rem) (intArray signed buf pos id rem) is := by
  have hbulk := faultless_intArrayBulk signed buf id rem pos hsane
  exact hbulk.bind fun a _ => faultless_intArrayTail signed buf id a.1 a.2 hbulk.sane

/-- Float elements are read without a fault from every position inside the slice. -/
theorem faultless_fixArray (fp64 : Bool) {buf : List UInt8} (id : Id) (rem : ℕ) {p : ℕ}
    (hsane : Sane is) (hp : p ≤ buf.length) :
    Faultless (Checked.fixArray fp64 buf id rem p) (fixArray fp64 buf id rem p) is := by
  induction rem generalizing p with
  | zero => exact faultless_pure _ hsane
  | succ rem ih =>
    rw [Checked.fixArray, fixArray]
    refine faultless_sub_bind hp ?_
    split
    · have hsuspended : Sane { is with resume := .arrayFix id fp64 (rem + 1) } :=
        ⟨hsane.depth, trivial⟩
      exact faultless_update_bind hsuspended (faultless_pure _ hsuspended)
    · next hroom =>
      have hinside : p + elemLen fp64 ≤ buf.length := by omega
      exact (faultless_emitFixlenValue id hsane hinside).bind fun _ _ => ih hinside

/-- A cursor past the end of the slice is a fault. -/
example : Checked.fixArray true [1, 2] 0 1 3 .new = none := rfl

/-- What is left of a payload after `avail` of its missing bytes. -/
theorem sane_delivered (id : Id) (isBlob : Bool) {total remaining : ℕ} (avail : ℕ) (hsane : Sane is)
    (hle : remaining ≤ total) :
    Sane { is with resume :=
      if remaining - avail = 0 then .none else .payload id isBlob total (remaining - avail) } where
  depth := hsane.depth
  resume := by
    change Resumable (if remaining - avail = 0 then _ else _)
    split
    · trivial
    · exact ⟨by omega, by omega⟩

/-- What is there of a payload is delivered without a fault. -/
theorem faultless_deliverPayload {buf : List UInt8} {pos : ℕ} (hsane : Sane is)
    (hpos : pos ≤ buf.length) :
    Faultless (Checked.deliverPayload buf pos) (deliverPayload buf pos) is := by
  have hresumable := hsane.resume
  refine faultless_self_bind hsane ?_
  rcases hresume : is.resume with _ | ⟨id, isBlob, total, remaining⟩ | _ | _
  case payload =>
    rw [hresume] at hresumable
    have hle : remaining ≤ total := hresumable.2
    have hleft := sane_delivered id isBlob (min (buf.length - pos) remaining) hsane hle
    refine faultless_sub_bind hpos ?_
    simp only
    split
    · refine faultless_sub_bind hle ?_
      refine faultless_window_bind (by omega) ?_
      refine faultless_visit_bind hsane ?_
      refine faultless_sub_bind (Nat.min_le_right _ _) ?_
      exact faultless_update_bind hleft (faultless_pure _ hleft)
    · exact faultless_pure _ hsane
  all_goals exact faultless_pure _ hsane

/-- The item in progress is continued without a fault. -/
theorem faultless_resumeItem {buf : List UInt8} {pos : ℕ} (hsane : Sane is)
    (hpos : pos ≤ buf.length) : Faultless (Checked.resumeItem buf pos) (resumeItem buf pos) is := by
  have hfinished : Sane { is with resume := .none } := ⟨hsane.depth, trivial⟩
  refine faultless_self_bind hsane ?_
  rcases is.resume with _ | _ | ⟨id, signed, remaining⟩ | ⟨id, fp64, remaining⟩
  · exact faultless_pure _ hsane
  · exact faultless_deliverPayload hsane hpos
  · exact faultless_update_bind hfinished (faultless_intArray signed buf pos id remaining hfinished)
  · exact faultless_update_bind hfinished (faultless_fixArray fp64 id remaining hfinished hpos)

/-! ## Fields -/

/-- Asking whether an item was suspended has nothing to fault on. -/
theorem faultless_orSuspended (pos : ℕ) (hsane : Sane is) :
    Faultless (lift (orSuspended pos)) (orSuspended pos) is := by
  refine faultless_lift ?_
  rw [orSuspended, self_bind]
  split
  · exact hsane
  · exact hsane

/-- The arm of a varint does not fault. -/
theorem faultless_parseVarint (signed : Bool) (buf : List UInt8) (fieldStart pos : ℕ) (id : Id)
    (hsane : Sane is) :
    Faultless (Checked.parseVarint signed buf fieldStart pos id)
      (parseVarint signed buf fieldStart pos id) is := by
  refine faultless_readVarint_bind hsane ?_ fun val next _ => ?_
  · exact faultless_pure _ hsane
  · exact faultless_visit_bind hsane (faultless_pure _ hsane)

/-- A float loop in a field, which goes on unless it was suspended. -/
theorem faultless_fixArray_field (fp64 : Bool) {buf : List UInt8} {pos : ℕ} (id : Id) (rem : ℕ)
    (call : Callback) (hsane : Sane is) (hpos : pos ≤ buf.length) :
    Faultless (lift (visit call) >>= fun _ => Checked.fixArray fp64 buf id rem pos >>= fun next =>
        lift (orSuspended next))
      (visit call >>= fun _ => fixArray fp64 buf id rem pos >>= orSuspended) is := by
  refine faultless_visit_bind hsane ?_
  have hfix := faultless_fixArray fp64 id rem hsane hpos
  exact hfix.bind fun next _ => faultless_orSuspended next hfix.sane

/-- The arm of a float does not fault. -/
theorem faultless_parseFloat (fp64 : Bool) {buf : List UInt8} {pos : ℕ} (id : Id) (len : ℕ)
    (hsane : Sane is) (hpos : pos ≤ buf.length) :
    Faultless (Checked.parseFloat fp64 buf pos id len) (parseFloat fp64 buf pos id len) is := by
  rw [Checked.parseFloat, parseFloat]
  split
  · exact faultless_fail _ hsane
  · exact faultless_fixArray_field fp64 id 1 _ hsane hpos

/-- The arm of a payload does not fault. -/
theorem faultless_parsePayload (isBlob : Bool) {buf : List UInt8} {pos : ℕ} (id : Id) (len : ℕ)
    (hsane : Sane is) (hpos : pos ≤ buf.length) :
    Faultless (Checked.parsePayload isBlob buf pos id len) (parsePayload isBlob buf pos id len)
      is := by
  refine faultless_visit_bind hsane ?_
  refine faultless_sub_bind hpos ?_
  split
  · next hwhole =>
    refine faultless_window_bind (by omega) ?_
    exact faultless_visit_bind hsane (faultless_pure _ hsane)
  · next hmore =>
    have hbegun : Sane { is with resume := .payload id isBlob len len } :=
      ⟨hsane.depth, by omega, le_rfl⟩
    refine faultless_update_bind hbegun ?_
    have hdeliver := faultless_deliverPayload hbegun hpos
    exact hdeliver.bind fun next _ => faultless_pure _ hdeliver.sane

/-- The arm of a fixlen field does not fault. -/
theorem faultless_parseFixlen (buf : List UInt8) (fieldStart pos : ℕ) (id : Id) (hsane : Sane is) :
    Faultless (Checked.parseFixlen buf fieldStart pos id) (parseFixlen buf fieldStart pos id)
      is := by
  refine faultless_readVarint_bind hsane ?_ fun word next hnext => ?_
  · exact faultless_pure _ hsane
  refine faultless_ite (fun _ => faultless_fail _ hsane) fun _ => ?_
  refine faultless_ite (fun _ => faultless_parseFloat false id _ hsane hnext) fun _ => ?_
  refine faultless_ite (fun _ => faultless_parseFloat true id _ hsane hnext) fun _ => ?_
  refine faultless_ite (fun _ => ?_) fun _ => faultless_fail _ hsane
  exact faultless_parsePayload _ id _ hsane hnext

/-- The arm of an integer array does not fault. -/
theorem faultless_parseVarintArray (signed : Bool) (buf : List UInt8) (fieldStart pos : ℕ) (id : Id)
    (hsane : Sane is) :
    Faultless (Checked.parseVarintArray signed buf fieldStart pos id)
      (parseVarintArray signed buf fieldStart pos id) is := by
  refine faultless_readVarint_bind hsane ?_ fun count next _ => ?_
  · exact faultless_pure _ hsane
  simp only
  split
  · exact faultless_fail _ hsane
  · refine faultless_visit_bind hsane ?_
    have hloop := faultless_intArray signed buf next id count.toNat hsane
    exact hloop.bind fun stop _ => faultless_orSuspended stop hloop.sane

/-- The arm of a float array does not fault. -/
theorem faultless_parseFixlenArray (buf : List UInt8) (fieldStart pos : ℕ) (id : Id)
    (hsane : Sane is) :
    Faultless (Checked.parseFixlenArray buf fieldStart pos id)
      (parseFixlenArray buf fieldStart pos id) is := by
  refine faultless_readVarint_bind hsane ?_ fun count next _ => ?_
  · exact faultless_pure _ hsane
  simp only
  split
  · exact faultless_fail _ hsane
  refine faultless_readVarint_bind hsane ?_ fun word next' hnext => ?_
  · exact faultless_pure _ hsane
  simp only
  rcases fixlenArrayType word with _ | fp64
  · exact faultless_fail _ hsane
  · exact faultless_fixArray_field fp64 id _ _ hsane hnext

/-- Opening a sequence stays within the bound that it checks. -/
theorem faultless_parseSequenceStart (pos : ℕ) (id : Id) (hsane : Sane is) :
    Faultless (lift (parseSequenceStart pos id)) (parseSequenceStart pos id) is := by
  refine faultless_lift ?_
  rw [parseSequenceStart, self_bind]
  split
  · exact hsane
  · next hroom => exact ⟨Nat.lt_of_not_le hroom, hsane.resume⟩

/-- The arm that closes a sequence does not fault: a depth of zero is rejected first. -/
theorem faultless_parseSequenceEnd (pos : ℕ) (hsane : Sane is) :
    Faultless (Checked.parseSequenceEnd pos) (parseSequenceEnd pos) is := by
  refine faultless_self_bind hsane ?_
  simp only
  split
  · exact faultless_fail _ hsane
  · next hopen =>
    have hclosed : Sane { is with depth := is.depth - 1 } :=
      ⟨(Nat.sub_le _ _).trans hsane.depth, hsane.resume⟩
    refine faultless_sub_bind (Nat.pos_of_ne_zero hopen) ?_
    refine faultless_update_bind hclosed ?_
    exact faultless_visit_bind hclosed (faultless_pure _ hclosed)

/-- A field is parsed without a fault, whatever its wire type. -/
theorem faultless_parseField (buf : List UInt8) (fieldStart : ℕ) (hsane : Sane is) :
    Faultless (Checked.parseField buf fieldStart) (parseField buf fieldStart) is := by
  refine faultless_readVarint_bind hsane ?_ fun header next _ => ?_
  · exact faultless_pure _ hsane
  refine faultless_ite (fun _ => faultless_fail _ hsane) fun _ => ?_
  refine faultless_ite (fun _ => faultless_parseVarint _ _ _ _ _ hsane) fun _ => ?_
  refine faultless_ite (fun _ => faultless_parseVarint _ _ _ _ _ hsane) fun _ => ?_
  refine faultless_ite (fun _ => faultless_parseFixlen _ _ _ _ hsane) fun _ => ?_
  refine faultless_ite (fun _ => faultless_parseVarintArray _ _ _ _ _ hsane) fun _ => ?_
  refine faultless_ite (fun _ => faultless_parseVarintArray _ _ _ _ _ hsane) fun _ => ?_
  refine faultless_ite (fun _ => faultless_parseFixlenArray _ _ _ _ hsane) fun _ => ?_
  refine faultless_ite (fun _ => faultless_parseSequenceStart _ _ hsane) fun _ => ?_
  exact faultless_ite (fun _ => faultless_parseSequenceEnd _ hsane) fun _ => faultless_fail _ hsane

/-- The field loop does not fault. -/
theorem faultless_parseFields (buf : List UInt8) (pos : ℕ) (hsane : Sane is) :
    Faultless (Checked.parseFields buf pos) (parseFields buf pos) is := by
  induction hleft : buf.length - pos using Nat.strongRecOn generalizing pos is with
  | _ left ih =>
    subst hleft
    by_cases hend : buf.length ≤ pos
    · refine ⟨?_, ?_⟩
      · rw [Checked.parseFields, if_pos hend, parseFields_of_le _ hend]
      · rw [parseFields_of_le _ hend]
        exact hsane
    · have hlt := Nat.lt_of_not_le hend
      obtain ⟨hagrees, hsane'⟩ := faultless_parseField buf pos hsane
      rcases hturn : parseField buf pos is with ⟨calls, is', e | next | stop⟩
      · rw [hturn] at hagrees hsane'
        refine ⟨?_, ?_⟩
        · rw [Checked.parseFields, if_neg hend, hagrees, parseFields_of_error hlt hturn]
        · rw [parseFields_of_error hlt hturn]
          exact hsane'
      · have hforward := parseField_advances (congrArg Parsed.result hturn)
        rw [hturn] at hagrees hsane'
        obtain ⟨hrest, hsane''⟩ := ih _ (by omega) next hsane' rfl
        refine ⟨?_, ?_⟩
        · rw [Checked.parseFields, if_neg hend, hagrees, parseFields_of_proceed hlt hturn]
          simp only [if_pos hforward, hrest, Option.map_some]
        · rw [parseFields_of_proceed hlt hturn]
          exact hsane''
      · rw [hturn] at hagrees hsane'
        refine ⟨?_, ?_⟩
        · rw [Checked.parseFields, if_neg hend, hagrees, parseFields_of_finish hlt hturn]
        · rw [parseFields_of_finish hlt hturn]
          exact hsane'

/-- All of the parser does not fault. -/
theorem faultless_parse (buf : List UInt8) (hsane : Sane is) :
    Faultless (Checked.parse buf) (parse buf) is := by
  refine faultless_self_bind hsane ?_
  split
  · exact faultless_parseFields buf 0 hsane
  · have hitem := faultless_resumeItem hsane (Nat.zero_le buf.length)
    refine hitem.bind fun pos _ => faultless_self_bind hitem.sane ?_
    split
    · exact faultless_parseFields buf pos hitem.sane
    · exact faultless_pure _ hitem.sane

/-! ## Chunks -/

/-- Latching adds no fault. -/
theorem faultless_latch {c : CheckedM α} {m : DecodeM α} (h : Faultless c m is) :
    Faultless (Checked.latch c) (latch m) is := by
  obtain ⟨hagrees, hsane⟩ := h
  refine ⟨?_, ?_⟩
  · rw [Checked.latch, hagrees]
    rfl
  · rw [latch]
    rcases hm : m is with ⟨calls, is', e | a⟩
    · rw [hm] at hsane
      simp only
      split
      · exact ⟨hsane.depth, hsane.resume⟩
      · exact hsane
    · rw [hm] at hsane
      exact hsane

/-- Storing bytes where the carry has room for them. -/
theorem faultless_storeCarry {at_ : ℕ} {bytes : List UInt8} {u : IStream → IStream}
    (hsane : Sane is) (hfits : at_ + bytes.length ≤ carryCap) (hu : u is = is.storeCarry at_ bytes) :
    Faultless (Checked.storeCarry at_ bytes) (update u) is := by
  have hroom : at_ + bytes.length ≤ is.carry.length := is.carrySize.symm ▸ hfits
  refine faultless_check_bind (b := is) rfl ?_
  refine faultless_window_bind hroom ?_
  have hstored : update u is = update (fun is => is.storeCarry at_ bytes) is :=
    congrArg (fun is => Parsed.mk [] is (.ok ())) hu
  refine ⟨congrArg some hstored.symm, ?_⟩
  rw [hstored]
  exact ⟨hsane.depth, hsane.resume⟩

/-- A tail that fits the carry is stashed without a fault. -/
theorem faultless_stash {tail : List UInt8} (hsane : Sane is) (hfits : tail.length ≤ carryCap) :
    Faultless (Checked.stash tail) (stash tail) is := by
  have hmore : ¬carryCap < tail.length := Nat.not_lt.mpr hfits
  rw [Checked.stash, stash, if_neg hmore, if_neg hmore]
  have hstore := faultless_storeCarry (u := fun is => is.storeCarry 0 tail) hsane
    (by rwa [Nat.zero_add]) rfl
  exact hstore.bind fun _ _ => faultless_lift ⟨hsane.depth, hsane.resume⟩

/-- A tail that does not fit is a fault. -/
example : Checked.stash (List.replicate 31 0) .new = none := rfl

/-- A parse stops inside its buffer. -/
theorem parse_inside {buf : List UInt8} {stop : ℕ} (hsane : Sane is)
    (h : (latch (parse buf) is).result = .ok stop) : stop ≤ buf.length := by
  have hparse := parse_refines is buf hsane.resume
  have hresult := latch_result h
  generalize parse buf is = parsed at hparse hresult
  cases hparse with
  | ok _ _ hinside =>
    cases hresult
    exact hinside
  | rejected => cases hresult

/-- A payload ends inside its buffer. -/
theorem deliverPayload_inside {buf : List UInt8} {pos stop : ℕ} (hpos : pos ≤ buf.length)
    (h : (deliverPayload buf pos is).result = .ok stop) : stop ≤ buf.length := by
  rw [deliverPayload, self_bind] at h
  rcases hresume : is.resume with _ | ⟨id, isBlob, total, remaining⟩ | _ | _
  case payload =>
    rw [hresume] at h
    simp only at h
    split at h
    · cases h
      omega
    · cases h
      exact hpos
  all_goals
    rw [hresume] at h
    cases h
    exact hpos

/-- The bytes past the carry are consumed without a fault. -/
theorem faultless_consume (rest : List UInt8) (hsane : Sane is) :
    Faultless (Checked.consume rest) (consume rest) is := by
  refine faultless_self_bind hsane ?_
  rcases is.resume with _ | _ | _ | _
  case payload =>
    have hdeliver := faultless_deliverPayload hsane (Nat.zero_le rest.length)
    refine hdeliver.bind fun pos hpos => faultless_self_bind hdeliver.sane ?_
    split
    · refine faultless_onward_bind (deliverPayload_inside (Nat.zero_le _) hpos) ?_
      have hparse := faultless_latch (faultless_parse (rest.drop pos) hdeliver.sane)
      exact hparse.bind fun more _ => faultless_pure _ hparse.sane
    · exact faultless_pure _ hdeliver.sane
  all_goals exact faultless_latch (faultless_parse rest hsane)

/-- What parsing leaves of a chunk fits into the carry. -/
theorem consume_leaves {rest : List UInt8} {consumed : ℕ} (hsane : Sane is)
    (h : (consume rest is).result = .ok consumed) : (rest.drop consumed).length ≤ carryCap := by
  have hconsume := (consume_refines rest hsane.resume).1
  generalize consume rest is = parsed at h hconsume
  cases hconsume with
  | ok hreads _ _ =>
    cases h
    exact hreads.held.length_lt.le
  | rejected => cases h

/-- The in-place path does not fault: what it stashes fits the carry. -/
theorem faultless_feedRest (rest : List UInt8) (hsane : Sane is) :
    Faultless (Checked.feedRest rest) (feedRest rest) is := by
  have hconsume := faultless_consume rest hsane
  refine hconsume.bind fun consumed hconsumed => ?_
  have hsane' := hconsume.sane
  by_cases hmore : consumed < rest.length
  · simp only [if_pos hmore]
    refine faultless_onward_bind hmore.le ?_
    have hstash := faultless_stash hsane' (consume_leaves hsane hconsumed)
    exact hstash.bind fun _ _ => faultless_self_bind hstash.sane (faultless_pure _ hstash.sane)
  · simp only [if_neg hmore]
    exact faultless_self_bind hsane' (faultless_pure _ hsane')

/-- Settling the carry: the chunk is handed on inside its bounds, or it went into the carry
whole. -/
theorem faultless_settle {chunk : List UInt8} {held take consumed : ℕ} (hsane : Sane is)
    (hwithin : take ≤ chunk.length) (hroom : held + take ≤ carryCap)
    (hinside : consumed ≤ held + take) (hshort : consumed < held → take = chunk.length) :
    Faultless (Checked.settle chunk held take consumed)
      (if held ≤ consumed then do
        update fun is => { is with carryLen := 0 }
        pure (some (chunk.drop (consumed - held)))
      else do
        update fun is => is.storeCarry 0 ((is.carry.take (held + take)).drop consumed)
        update fun is => { is with carryLen := held + take - consumed }
        if take < chunk.length then latch (fail .invalidMsg) else pure none) is := by
  rw [Checked.settle]
  by_cases hle : held ≤ consumed
  · rw [if_pos hle, if_pos hle]
    have hemptied : Sane { is with carryLen := 0 } := ⟨hsane.depth, hsane.resume⟩
    refine faultless_update_bind hemptied ?_
    refine faultless_sub_bind hle ?_
    exact faultless_onward_bind (by omega) (faultless_pure _ hemptied)
  · have hall := hshort (Nat.lt_of_not_le hle)
    have hmore : ¬take < chunk.length := by omega
    rw [if_neg hle, if_neg hle, if_neg hmore, if_neg hmore]
    refine faultless_sub_bind hinside ?_
    refine faultless_check_bind (b := is) rfl ?_
    refine faultless_window_bind ?_ ?_
    · rw [carrySize]
      omega
    have hshift : Faultless
        (Checked.storeCarry 0 ((is.carry.drop consumed).take (held + take - consumed)))
        (update fun s => s.storeCarry 0 ((s.carry.take (held + take)).drop consumed)) is :=
      faultless_storeCarry hsane (by rw [List.length_take]; omega) (by simp only [List.drop_take])
    have hshifted := hshift.sane
    refine hshift.bind fun _ _ => ?_
    refine faultless_update_bind ⟨hshifted.depth, hshifted.resume⟩ ?_
    exact faultless_require_bind hall (faultless_pure _ ⟨hshifted.depth, hshifted.resume⟩)

/-- The carried bytes are continued without a fault between feeds. -/
theorem faultless_resumeCarried (chunk : List UInt8) (hwell : WellFormed is) (hsane : Sane is) :
    Faultless (Checked.resumeCarried chunk) (resumeCarried chunk) is := by
  have hfits : is.carryLen ≤ carryCap := hwell.fits.le
  have hlive := @storeCarry_take is chunk hfits
  refine faultless_self_bind hsane ?_
  refine faultless_sub_bind hfits ?_
  simp only at hlive ⊢
  generalize htake : min (carryCap - is.carryLen) chunk.length = take at hlive ⊢
  have hwithin : take ≤ chunk.length := htake ▸ Nat.min_le_right _ _
  have hroom : is.carryLen + take ≤ carryCap := by omega
  have hfront : (chunk.take take).length = take := by
    rw [List.length_take, Nat.min_eq_left hwithin]
  refine faultless_window_bind (by omega) ?_
  rw [List.drop_zero]
  have hstore := faultless_storeCarry (u := fun s => s.storeCarry is.carryLen (chunk.take take)) hsane
    (hfront.symm ▸ hroom) rfl
  have hstored : Sane (is.storeCarry is.carryLen (chunk.take take)) := hstore.sane
  refine hstore.bind fun _ _ => faultless_self_bind hstored ?_
  refine faultless_window_bind ?_ ?_
  · change 0 + _ ≤ (is.storeCarry is.carryLen (chunk.take take)).carry.length
    rw [carrySize]
    omega
  have hbuf : (update (fun s => s.storeCarry is.carryLen (chunk.take take)) is).is.carry.take
      (is.carryLen + take) = is.live ++ chunk.take take := hlive
  rw [List.drop_zero, hbuf]
  have hparse := faultless_latch (faultless_parse (is.live ++ chunk.take take) hstored)
  refine hparse.bind fun consumed hconsumed => ?_
  have hinside := parse_inside hstored hconsumed
  rw [List.length_append, hwell.live_length, hfront] at hinside
  refine faultless_settle hparse.sane hwithin hroom hinside fun hshort => ?_
  exact (stitched_short hwell htake (latch_result hconsumed) hshort).2

/-- A chunk is fed without a fault. -/
theorem faultless_feed (chunk : List UInt8) (hwell : WellFormed is) (hsane : Sane is) :
    Faultless (Checked.feed chunk) (feed chunk) is := by
  refine faultless_self_bind hsane ?_
  split
  · exact faultless_fail _ hsane
  refine faultless_self_bind hsane ?_
  split
  · exact faultless_feedRest chunk hsane
  · have hcarried := faultless_resumeCarried chunk hwell hsane
    refine hcarried.bind fun a _ => ?_
    rcases a with _ | rest
    · exact faultless_self_bind hcarried.sane (faultless_pure _ hcarried.sane)
    · exact faultless_feedRest rest hcarried.sane

/-- A stream that rejected its message stays as it is. -/
theorem faultless_feed_of_invalid (chunk : List UInt8) (hsane : Sane is)
    (hinvalid : is.invalid = true) : Faultless (Checked.feed chunk) (feed chunk) is := by
  refine faultless_self_bind hsane ?_
  rw [if_pos hinvalid, if_pos hinvalid]
  exact faultless_fail _ hsane

/-! ## Runs -/

/-- A new stream has nothing open and nothing in progress. -/
theorem sane_new : Sane .new := ⟨Nat.zero_le _, trivial⟩

/-- A reset stream has nothing open and nothing in progress. -/
theorem sane_reset (is : IStream) : Sane is.reset := ⟨Nat.zero_le _, trivial⟩

/-- A feed to a stream that feeds led to does not fault if the stream is sane. -/
theorem Fed.faultless_of_sane {bytes : List UInt8} (h : Fed bytes is) (hsane : Sane is)
    (chunk : List UInt8) : Faultless (Checked.feed chunk) (IStream.feed chunk) is := by
  rcases h.follows with hfollows | hinvalid
  · exact faultless_feed chunk hfollows.wellFormed hsane
  · exact faultless_feed_of_invalid chunk hsane hinvalid

/-- Feeds keep a stream sane. -/
theorem Fed.sane {bytes : List UInt8} (h : Fed bytes is) : Sane is := by
  induction h with
  | new => exact sane_new
  | @feed bytes is h chunk ih => exact (h.faultless_of_sane ih chunk).sane
  | @reset bytes is h ih => exact sane_reset is

/-- No feed to a stream that feeds led to faults. -/
theorem Fed.faultless {bytes : List UInt8} (h : Fed bytes is) (chunk : List UInt8) :
    Faultless (Checked.feed chunk) (IStream.feed chunk) is := h.faultless_of_sane h.sane chunk

end Sofab
