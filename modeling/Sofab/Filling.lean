import Sofab.Blocks
import Sofab.Handing

/-!
# Filling buffers

A writer does two things to its buffers: it stores blocks in the room left, and it hands the
active buffer over once that is full and another byte is due. `Performed` is such a run, byte
for byte. A run of a writer emits its bytes.
-/

namespace Sofab

open Steps Step OStream

/-- A step that fills buffers with `bytes`, or stops short of them because a full buffer could
not be handed over. All stores of a block fall between the cursor it begins at and the end of the
buffer. Between the blocks the stream is changed by nothing but `change`. -/
inductive Performed (change : OStream → OStream → Prop) :
    OStream → List UInt8 → OStream × Exit Error Unit → Prop
  | done (os : OStream) : Performed change os [] (os, .ok ())
  | block {os : OStream} (block : List Part) {more : List UInt8}
      {result : OStream × Exit Error Unit}
      (room : os.offset + blockReserve block ≤ os.end_)
      (within : ∀ s ∈ blockStores os.offset block, s.Within os.offset os.end_)
      (rest : Performed change (os.perform block) more result) :
      Performed change os (blockBytes block ++ more) result
  | drained {os os₁ : OStream} {b : UInt8} {more : List UInt8}
      {result : OStream × Exit Error Unit}
      (full : os.end_ ≤ os.offset) (drain : drainFull os = (os₁, .ok ()))
      (rest : Performed change os₁ (b :: more) result) : Performed change os (b :: more) result
  | stopped {os os₁ os' : OStream} {e : Error} {b : UInt8} {more : List UInt8}
      (full : os.end_ ≤ os.offset) (drain : drainFull os = (os₁, .err e)) (same : change os₁ os') :
      Performed change os (b :: more) (os', .err e)
  | unwound {os os' : OStream} {b : UInt8} {more : List UInt8}
      (full : os.end_ ≤ os.offset) (drain : drainFull os = (os', .unwound)) :
      Performed change os (b :: more) (os', .unwound)
  | changed {os os₁ : OStream} {bytes : List UInt8} {result : OStream × Exit Error Unit}
      (same : change os os₁) (rest : Performed change os₁ bytes result) :
      Performed change os bytes result

/-- A writer fills buffers with `bytes` and changes nothing else. -/
abbrev Performs (bytes : List UInt8) (m : EncodeM Unit) : Prop :=
  ∀ os, Sound os → Performed Eq os bytes (m os)

/-- One run of a payload is stored as it is. -/
theorem perform_raw (os : OStream) (data : List UInt8) : os.perform [.raw data] = os.put data := by
  rw [perform, put, blockBytes, List.flatMap_singleton]
  rfl

/-- A full buffer is drained. -/
theorem makeRoom_of_full {os : OStream} (hfull : os.end_ ≤ os.offset) : makeRoom os = drainFull os :=
  if_pos hfull

/-- A buffer with room is left as it is. -/
theorem makeRoom_of_room {os : OStream} (hroom : os.offset < os.end_) : makeRoom os = (os, .ok ()) :=
  if_neg (Nat.not_le.mpr hroom)

section Performing

variable {change : OStream → OStream → Prop} {os os₁ : OStream} {bytes more : List UInt8}
  {result : OStream × Exit Error Unit}

/-- A block that is all there is. -/
theorem performed_block (block : List Part) (hroom : os.offset + blockReserve block ≤ os.end_) :
    Performed change os (blockBytes block) (os.perform block, .ok ()) := by
  have hwithin : ∀ s ∈ blockStores os.offset block, s.Within os.offset os.end_ := fun s hs =>
    (blockStores_within os.offset block s hs).mono (Nat.le_refl _) hroom
  rw [← List.append_nil (blockBytes block)]
  exact .block block hroom hwithin (.done _)

/-- Bytes that fit are filled in at once. -/
theorem performed_put {data : List UInt8} (hfit : os.offset + data.length ≤ os.end_) :
    Performed change os data (os.put data, .ok ()) := by
  have hblock := @performed_block change os [.raw data] hfit
  rwa [perform_raw, blockBytes, List.flatMap_singleton] at hblock

/-- Filling goes on where it came to. -/
theorem Performed.append (h : Performed change os bytes (os₁, .ok ()))
    (h' : Performed change os₁ more result) : Performed change os (bytes ++ more) result := by
  generalize hmid : (os₁, (Exit.ok () : Exit Error Unit)) = mid at h
  induction h with
  | done os =>
    cases hmid
    exact h'
  | block block room within rest ih =>
    rw [List.append_assoc]
    exact .block block room within (ih hmid)
  | drained full drain rest ih => exact .drained full drain (ih hmid)
  | stopped full drain same => cases hmid
  | unwound full drain => cases hmid
  | changed same rest ih => exact .changed same (ih hmid)

/-- Nothing follows a step that did not come through. -/
theorem Performed.cut {exit : Exit Error Unit} (h : Performed change os bytes (os₁, exit))
    (hexit : exit ≠ .ok ()) (more : List UInt8) :
    Performed change os (bytes ++ more) (os₁, exit) := by
  generalize hmid : (os₁, exit) = mid at h
  induction h with
  | done os =>
    cases hmid
    exact absurd rfl hexit
  | block block room within rest ih =>
    rw [List.append_assoc]
    exact .block block room within (ih hmid)
  | drained full drain rest ih => exact .drained full drain (ih hmid)
  | stopped full drain same =>
    cases hmid
    exact .stopped full drain same
  | unwound full drain =>
    cases hmid
    exact .unwound full drain
  | changed same rest ih => exact .changed same (ih hmid)

/-- What follows a step fills on behind it. -/
theorem Performed.bind {m : EncodeM Unit} {f : Unit → EncodeM Unit}
    (h : Performed change os bytes (m os))
    (hnext : ∀ os₁, m os = (os₁, .ok ()) → Performed change os₁ more (f () os₁)) :
    Performed change os (bytes ++ more) ((m >>= f) os) := by
  rcases hm : m os with ⟨os₁, u | e | _⟩
  · rw [hm] at h
    rw [bind_ok hm]
    exact h.append (hnext os₁ hm)
  · rw [hm] at h
    rw [bind_err hm]
    exact h.cut (by simp) more
  · rw [hm] at h
    rw [bind_unwound hm]
    exact h.cut (by simp) more

/-- Other changes allowed besides do no harm. -/
theorem Performed.mono {change' : OStream → OStream → Prop}
    (hchange : ∀ os os', change os os' → change' os os') (h : Performed change os bytes result) :
    Performed change' os bytes result := by
  induction h with
  | done os => exact .done os
  | block block room within rest ih => exact .block block room within ih
  | drained full drain rest ih => exact .drained full drain ih
  | stopped full drain same => exact .stopped full drain (hchange _ _ same)
  | unwound full drain => exact .unwound full drain
  | changed same rest ih => exact .changed (hchange _ _ same) ih

/-- A change at the end is one of the changes between the blocks. -/
theorem Performed.ending {os' : OStream} {exit : Exit Error Unit}
    (htrans : ∀ {a b c}, change a b → change b c → change a c)
    (h : Performed change os bytes (os₁, exit)) (hexit : exit ≠ .unwound) (hend : change os₁ os') :
    Performed change os bytes (os', exit) := by
  generalize hmid : (os₁, exit) = mid at h
  induction h with
  | done os =>
    cases hmid
    exact .changed hend (.done os')
  | block block room within rest ih => exact .block block room within (ih hmid)
  | drained full drain rest ih => exact .drained full drain (ih hmid)
  | stopped full drain same =>
    cases hmid
    exact .stopped full drain (htrans same hend)
  | unwound full drain =>
    cases hmid
    exact absurd rfl hexit
  | changed same rest ih => exact .changed same (ih hmid)

/-- What needs room is done once there is some. -/
theorem performed_makeRoom {f : Unit → EncodeM Unit} (hsound : Sound os) (hne : bytes ≠ [])
    (hnext : ∀ os₁, Sound os₁ → os₁.offset < os₁.end_ → Performed Eq os₁ bytes (f () os₁)) :
    Performed Eq os bytes ((makeRoom >>= f) os) := by
  obtain ⟨b, more, rfl⟩ := List.exists_cons_of_ne_nil hne
  by_cases hfull : os.end_ ≤ os.offset
  · have hdrained := makeRoom_drained hsound
    rcases hm : makeRoom os with ⟨os₁, u | e | _⟩
    · rw [hm] at hdrained
      cases hdrained with
      | ok reached dead room same =>
        rw [bind_ok hm]
        rw [makeRoom_of_full hfull] at hm
        exact .drained hfull hm (hnext os₁ reached.sound room)
    · rw [bind_err hm]
      rw [makeRoom_of_full hfull] at hm
      exact .stopped hfull hm rfl
    · rw [bind_unwound hm]
      rw [makeRoom_of_full hfull] at hm
      exact .unwound hfull hm
  · have hroom := Nat.lt_of_not_le hfull
    rw [bind_ok (makeRoom_of_room hroom)]
    exact hnext os hsound hroom

/-- What fills buffers with bytes emits them. -/
theorem Performed.emits (h : Performed Eq os bytes result) (hsound : Sound os) :
    Emits os bytes (SameFraming os) (SameFraming os) result := by
  have hdrained {os : OStream} (hsound : Sound os) (hfull : os.end_ ≤ os.offset) :
      Drained os (drainFull os) := makeRoom_of_full hfull ▸ makeRoom_drained hsound
  induction h with
  | done os => exact emits_pure hsound (.refl os)
  | block block room within rest ih =>
    have hblock := reached_perform hsound block room
    exact (ih hblock.sound).pushed hblock rfl ⟨rfl, rfl⟩
  | drained full drain rest ih =>
    have h := hdrained hsound full
    rw [drain] at h
    cases h with
    | ok reached dead room same => exact (ih reached.sound).pushed reached dead same
  | stopped full drain same =>
    have h := hdrained hsound full
    subst same
    rw [drain] at h
    cases h with
    | stopped reached spent framing => exact .stopped 0 reached (Nat.succ_pos _) spent framing
  | unwound full drain =>
    have h := hdrained hsound full
    rw [drain] at h
    cases h with
    | unwound broken => exact .unwound broken
  | changed same rest ih =>
    subst same
    exact ih hsound

end Performing

variable {bytes more : List UInt8} {m : EncodeM Unit}

/-- A writer that fills buffers with bytes pushes them. -/
theorem Performs.pushes (h : Performs bytes m) : Pushes bytes m := fun os hsound =>
  (h os hsound).emits hsound

/-- A writer that came through leaves a sound stream with its framing. -/
theorem Performs.reached (h : Performs bytes m) {os os₁ : OStream} (hsound : Sound os)
    (hm : m os = (os₁, .ok ())) : Reached os os₁ bytes ∧ SameFraming os os₁ := by
  have hemits := h.pushes os hsound
  rw [hm] at hemits
  cases hemits with
  | ok reached dead same => exact ⟨reached, same⟩

/-- Writers follow one another. -/
theorem Performs.bind {f : Unit → EncodeM Unit} (h : Performs bytes m)
    (hnext : Performs more (f ())) : Performs (bytes ++ more) (m >>= f) := fun os hsound =>
  (h os hsound).bind fun os₁ hm => hnext os₁ (h.reached hsound hm).1.sound

/-- Doing nothing fills in nothing. -/
theorem performs_pure : Performs [] (pure () : EncodeM Unit) := fun os _ => .done os

end Sofab
