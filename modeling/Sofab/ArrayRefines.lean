import Sofab.Suspension

/-!
# The element loops and the payload path read bodies

Each loop of the decoder that reads the body of a field makes the callbacks of the reference
reading. It finishes the body, suspends it, or rejects it.
-/

namespace Sofab

open Reading Reading.Reader DecodeM

/-- The three ways a varint is read: the source's reader and the reference agree. -/
theorem readVarint_cases (buf : List UInt8) (pos : ℕ) :
    (∃ value next spelling, readVarint buf pos = .ok (some (value, next)) ∧ pos < next ∧
        next ≤ buf.length ∧
        readWord (buf.drop pos) = ⟨[], .done (spelling, value.toNat) (buf.drop next)⟩) ∨
      (readVarint buf pos = .ok none ∧ readWord (buf.drop pos) = ⟨[], .short (buf.drop pos)⟩) ∨
      (readVarint buf pos = .error .invalidMsg ∧ readWord (buf.drop pos) = ⟨[], .invalid⟩) := by
  rw [readVarint_eq, readWord]
  rcases h : Leb128.read fullGroups (buf.drop pos) with ⟨value, rest⟩ | _ | _
  · left
    obtain ⟨z, hz, hne, -, -⟩ := Leb128.read_done h
    have hlen : buf.length - pos = z.length + rest.length := by
      rw [← List.length_drop, hz, List.length_append]
    have hpos := List.length_pos_iff.mpr hne
    have hvalue : value < 2 ^ 64 := Leb128.read_value_lt h
    have hrest : rest = buf.drop (buf.length - rest.length) := by
      have hnext : buf.length - rest.length = pos + z.length := by omega
      rw [hnext, ← List.drop_drop, hz, List.drop_left]
    refine ⟨UInt64.ofNat value, buf.length - rest.length,
      (buf.drop pos).take ((buf.drop pos).length - rest.length), rfl, by omega, by omega, ?_⟩
    rw [UInt64.toNat_ofNat_of_lt' hvalue, ← hrest]
  · exact Or.inr (Or.inl ⟨rfl, rfl⟩)
  · exact Or.inr (Or.inr ⟨rfl, rfl⟩)

/-- The report of a loop that reads `body` from `pos` on, on a stream with nothing else in
progress. -/
inductive BodyRefines (buf : List UInt8) (pos : ℕ) (body : Resume) (is : IStream) :
    Parsed ℕ → Prop
  | done (notes : List Note) {next : ℕ}
      (read : readBody body (buf.drop pos) = ⟨notes, .done () (buf.drop next)⟩)
      (forward : pos ≤ next) (inside : next ≤ buf.length) :
      BodyRefines buf pos body is ⟨calls notes, is, .ok next⟩
  | suspended {made : List Callback} {body' : Resume} {stop : ℕ}
      (suspends : Suspends body (buf.drop pos) made body' (buf.drop stop))
      (forward : pos ≤ stop) (inside : stop ≤ buf.length) :
      BodyRefines buf pos body is ⟨made, { is with resume := body' }, .ok stop⟩
  | rejected (notes : List Note) {is' : IStream}
      (read : readBody body (buf.drop pos) = ⟨notes, .invalid⟩) :
      BodyRefines buf pos body is ⟨calls notes, is', .error .invalidMsg⟩

/-- Finished elements stand in front of what is read next. -/
theorem BodyRefines.after {buf : List UInt8} {pos next : ℕ} {body mid : Resume} {is : IStream}
    {parsed : Parsed ℕ} (notes : List Note)
    (hstep : ∀ t, readBody body (buf.drop pos ++ t) = (readBody mid (buf.drop next ++ t)).after notes)
    (hproper : ∀ c ∈ calls notes, Proper c) (hforward : pos ≤ next)
    (h : BodyRefines buf next mid is parsed) :
    BodyRefines buf pos body is (parsed.after (calls notes)) := by
  have hnow : readBody body (buf.drop pos) = (readBody mid (buf.drop next)).after notes := by
    simpa using hstep []
  cases h with
  | @done more last hread hlast hinside =>
    rw [Parsed.after, ← calls_append]
    refine .done _ ?_ (hforward.trans hlast) hinside
    rw [hnow, hread]
    rfl
  | suspended hsuspends hstop hinside =>
    exact .suspended (hsuspends.after _ hstep hproper) (hforward.trans hstop) hinside
  | @rejected more is' hread =>
    rw [Parsed.after, ← calls_append]
    refine .rejected _ ?_
    rw [hnow, hread]
    rfl

namespace IStream

/-- With ten readable bytes the bulk loop does what the tail loop does. -/
theorem intArray_eq (signed : Bool) (buf : List UInt8) (pos : ℕ) (id : Id) (rem : ℕ) :
    intArray signed buf pos id rem = intArrayTail signed buf id rem pos := by
  rw [intArray]
  induction rem generalizing pos with
  | zero => rfl
  | succ rem ih =>
    rw [intArrayBulk]
    split
    · next hroom =>
      rw [intArrayTail, readVarintReady_eq hroom, DecodeM.bind_assoc]
      rcases readVarintReady buf pos with e | ⟨value, next⟩
      · rfl
      · funext is
        change ((visit (.integer signed id value) >>= fun _ => intArrayBulk signed buf id rem next)
          >>= _) is = (visit (.integer signed id value) >>= fun _ => _) is
        rw [DecodeM.bind_assoc, visit_bind, visit_bind, ← ih next]
    · rfl

/-- The integer loop reads integer elements. -/
theorem intArrayTail_refines (signed : Bool) {buf : List UInt8} (id : Id) (rem : ℕ) {pos : ℕ}
    (is : IStream) (hpos : pos ≤ buf.length) :
    BodyRefines buf pos (.arrayInt id signed rem) is (intArrayTail signed buf id rem pos is) := by
  induction rem generalizing pos with
  | zero => exact BodyRefines.done [] rfl (Nat.le_refl _) hpos
  | succ rem ih =>
    rw [intArrayTail]
    rcases readVarint_cases buf pos with
      ⟨value, next, spelling, hread, hlt, hinside, hword⟩ | ⟨hread, hword⟩ | ⟨hread, hword⟩
    · rw [hread]
      have hstep (t : List UInt8) :
          readBody (.arrayInt id signed (rem + 1)) (buf.drop pos ++ t) =
            (readBody (.arrayInt id signed rem) (buf.drop next ++ t)).after
              [.varint spelling value.toNat, .call (.integer signed id value)] := by
        rw [readBody, integers_of_done (local_readWord.append hword t), UInt64.ofNat_toNat]
        rfl
      exact (ih hinside).after _ hstep (List.forall_mem_singleton.mpr (proper_integer _ _ _)) hlt.le
    · rw [hread]
      exact .suspended (Pending.suspends ⟨Nat.succ_pos _, hword⟩) (Nat.le_refl _) hpos
    · rw [hread]
      exact .rejected [] (bind_of_invalid (notedWord_of_invalid _ hword) _)

/-- The float loop reads float elements. -/
theorem fixArray_refines (fp64 : Bool) {buf : List UInt8} (id : Id) (rem : ℕ) {pos : ℕ}
    (is : IStream) (hpos : pos ≤ buf.length) :
    BodyRefines buf pos (.arrayFix id fp64 rem) is (fixArray fp64 buf id rem pos is) := by
  induction rem generalizing pos with
  | zero => exact BodyRefines.done [] rfl (Nat.le_refl _) hpos
  | succ rem ih =>
    rw [fixArray]
    have hlen : (buf.drop pos).length = buf.length - pos := List.length_drop
    split
    · next hshort =>
      exact .suspended (Pending.suspends ⟨Nat.succ_pos _, by omega⟩) (Nat.le_refl _) hpos
    · next hle =>
      have hle' : elemLen fp64 ≤ (buf.drop pos).length := by omega
      have hcall : emitFixlenValue fp64 buf pos id =
          .float fp64 id ((buf.drop pos).take (elemLen fp64)) := by
        cases fp64 <;> rfl
      have hproper : Proper (emitFixlenValue fp64 buf pos id) := hcall ▸ proper_float _ _ _
      have hstep (t : List UInt8) :
          readBody (.arrayFix id fp64 (rem + 1)) (buf.drop pos ++ t) =
            (readBody (.arrayFix id fp64 rem) (buf.drop (pos + elemLen fp64) ++ t)).after
              [.raw ((buf.drop pos).take (elemLen fp64)), .call (emitFixlenValue fp64 buf pos id)] := by
        have hfloats := floats_of_le id rem (Nat.le_trans hle' (List.length_append ▸ Nat.le_add_right _ t.length))
        rw [List.take_append_of_le_length hle', List.drop_append_of_le_length hle', List.drop_drop] at hfloats
        rw [hcall]
        exact hfloats
      exact (ih (by omega)).after _ hstep (List.forall_mem_singleton.mpr hproper) (Nat.le_add_right _ _)

/-- The integer loops read integer elements. -/
theorem intArray_refines (signed : Bool) {buf : List UInt8} (id : Id) (rem : ℕ) {pos : ℕ}
    (is : IStream) (hpos : pos ≤ buf.length) :
    BodyRefines buf pos (.arrayInt id signed rem) is (intArray signed buf pos id rem is) := by
  rw [intArray_eq]
  exact intArrayTail_refines signed id rem is hpos

/-- The payload path delivers what there is of a payload in progress. -/
theorem deliverPayload_refines {buf : List UInt8} {pos total remaining : ℕ} {id : Id}
    {isBlob : Bool} {is : IStream} (hpos : pos ≤ buf.length)
    (hresume : is.resume = .payload id isBlob total remaining) (hrem : 0 < remaining)
    (htotal : remaining ≤ total) :
    BodyRefines buf pos (.payload id isBlob total remaining) { is with resume := .none }
      (deliverPayload buf pos is) := by
  have hlen : (buf.drop pos).length = buf.length - pos := List.length_drop
  rw [deliverPayload, self_bind, hresume]
  simp only
  by_cases havail : 0 < min (buf.length - pos) remaining
  · rw [if_pos havail]
    by_cases hdone : remaining ≤ buf.length - pos
    · have hmin : min (buf.length - pos) remaining = remaining := Nat.min_eq_right hdone
      have hread : readBody (.payload id isBlob total remaining) (buf.drop pos) =
          ⟨[.raw ((buf.drop pos).take remaining), .call (.payload isBlob id total (total - remaining)
            ((buf.drop pos).take remaining))], .done () (buf.drop (pos + remaining))⟩ := by
        rw [readBody, payload, if_pos (by omega), List.drop_drop]
      rw [hmin, Nat.sub_self, if_pos rfl]
      exact .done _ hread (Nat.le_add_right _ _) (by omega)
    · have hmin : min (buf.length - pos) remaining = buf.length - pos := Nat.min_eq_left (by omega)
      have hwhole : (buf.drop pos).take (buf.length - pos) = buf.drop pos :=
        List.take_of_length_le hlen.le
      have hne : buf.drop pos ≠ [] := List.ne_nil_of_length_pos (by omega)
      have hsuspends := suspends_payload id isBlob hne (by omega) htotal
      have hstop : pos + (buf.length - pos) = buf.length := by omega
      rw [hlen, ← List.drop_length (l := buf)] at hsuspends
      rw [hmin, if_neg (by omega), hwhole, hstop]
      exact .suspended hsuspends hpos (Nat.le_refl _)
  · have hend : pos = buf.length := by omega
    have hnil : buf.drop pos = [] := List.drop_eq_nil_of_le (by omega)
    have hpending : Pending (.payload id isBlob total remaining) (buf.drop pos) :=
      ⟨hnil, hrem, htotal⟩
    have hsame : is = { { is with resume := .none } with
        resume := .payload id isBlob total remaining } := by
      rw [← hresume]
    rw [if_neg havail, DecodeM.pure_apply]
    conv in (Parsed.mk _ is _) => rw [hsame]
    exact .suspended hpending.suspends (Nat.le_refl _) hpos

end IStream

end Sofab
