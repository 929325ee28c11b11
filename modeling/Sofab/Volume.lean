import Sofab.Lib.Meter
import Sofab.Payload

/-!
# Nothing is amplified

A count or a length in a message promises something, but the visitor is called only for what is
there. Every callback is paid for by bytes of its own, and so is every byte it delivers.
-/

namespace Sofab

open Reading Reading.Reader IStream

/-- What a callback is charged: the payload bytes or the width of the float that it delivers, and
one where that is less or it delivers neither. -/
def Callback.volume : Callback → ℕ
  | .string _ _ _ chunk => max 1 chunk.length
  | .blob _ _ _ chunk => max 1 chunk.length
  | .fp32 _ _ => 4
  | .fp64 _ _ => 8
  | _ => 1

/-- What callbacks bring. -/
def volume (cs : List Callback) : ℕ := price Callback.volume cs

/-- What the callback in a note brings, if there is one. -/
def Note.volume : Note → ℕ
  | .call c => c.volume
  | _ => 0

/-- The notes of a reading are charged for their callbacks. -/
theorem price_volume (notes : List Note) : price Note.volume notes = volume (calls notes) := by
  induction notes with
  | nil => rfl
  | cons note notes ih =>
    rw [price_cons, ih]
    cases note with
    | call c => exact (price_cons Callback.volume c (calls notes)).symm
    | _ => exact Nat.zero_add _

/-- A payload is charged its bytes, and one if it is empty. -/
@[simp] theorem volume_payload (isBlob : Bool) (id : Id) (total offset : ℕ) (chunk : List UInt8) :
    (Callback.payload isBlob id total offset chunk).volume = max 1 chunk.length := by
  cases isBlob <;> rfl

/-- An integer is charged one. -/
theorem volume_integer (signed : Bool) (id : Id) (value : Unsigned) :
    (Callback.integer signed id value).volume = 1 := by
  cases signed <;> rfl

/-- A float is charged its width. -/
theorem volume_float (fp64 : Bool) (id : Id) (bytes : List UInt8) :
    (Callback.float fp64 id bytes).volume = elemLen fp64 := by
  cases fp64 <;> rfl

/-- There are no more callbacks than what they bring. -/
theorem length_le_volume (cs : List Callback) : cs.length ≤ volume cs := by
  induction cs with
  | nil => exact Nat.le_refl 0
  | cons c cs ih =>
    have hone : 1 ≤ c.volume := by cases c <;> simp [Callback.volume]
    rw [volume] at ih ⊢
    rw [List.length_cons, price_cons]
    omega

/-! ## Readers -/

section Paying

variable {credit : ℕ}

/-- A varint earns a credit of one. -/
theorem pays_readWord (credit : ℕ) : Pays Note.volume credit readWord fun _ => credit + 1 := by
  intro bs
  rw [readWord]
  split
  · next value rest hread =>
    obtain ⟨z, rfl, hne, -, -⟩ := Leb128.read_done hread
    have hpos := List.length_pos_iff.mpr hne
    change 0 + (credit + 1 + rest.length) ≤ _
    rw [List.length_append]
    omega
  · exact Nat.zero_le _
  · exact Nat.zero_le _

/-- A varint pays for something else. -/
theorem pays_notedWord {noted : List UInt8 → ℕ → Note}
    (h : ∀ spelling value, (noted spelling value).volume = 0) (credit : ℕ) :
    Pays Note.volume credit (notedWord noted) fun _ => credit + 1 := by
  refine (pays_readWord credit).bind fun a => ?_
  have hfree := @pays_note Note UInt8 Note.volume (credit + 1) (noted a.1 a.2)
  rw [h, Nat.zero_add] at hfree
  exact hfree.bind fun _ => pays_pure (Nat.le_refl _)

/-- A varint noted as it is spelled earns a credit of one. -/
theorem pays_word (credit : ℕ) : Pays Note.volume credit word fun _ => credit + 1 :=
  pays_notedWord (fun _ _ => rfl) credit

/-- A header earns a credit of one. -/
theorem pays_header (credit : ℕ) : Pays Note.volume credit header fun _ => credit + 1 := by
  refine pays_notedWord (fun spelling h => ?_) credit
  rw [headerNote]
  split <;> rfl

/-- Bytes taken as they are earn as much. -/
theorem pays_rawBytes (n credit : ℕ) :
    Pays Note.volume credit (rawBytes n) fun _ => credit + n := by
  intro bs
  rw [rawBytes]
  split
  · next hle =>
    change 0 + 0 + (credit + n + (bs.drop n).length) ≤ _
    rw [List.length_drop]
    omega
  · exact Nat.zero_le _

/-- Elements pay for themselves. -/
theorem pays_integers (id : Id) (signed : Bool) (n : ℕ) :
    Pays Note.volume 0 (integers id signed n) fun _ => 0 := by
  induction n with
  | zero => exact pays_pure (Nat.le_refl 0)
  | succ n ih =>
    refine (pays_word 0).bind fun value => ?_
    have hnote := @pays_note Note UInt8 Note.volume 0 (.call (.integer signed id (UInt64.ofNat value)))
    rw [Note.volume, volume_integer] at hnote
    exact hnote.bind fun _ => ih

/-- Float elements are paid for by their own bytes. -/
theorem pays_floats (id : Id) (fp64 : Bool) (n : ℕ) :
    Pays Note.volume 0 (floats id fp64 n) fun _ => 0 := by
  induction n with
  | zero => exact pays_pure (Nat.le_refl 0)
  | succ n ih =>
    refine (pays_rawBytes (elemLen fp64) 0).bind fun bytes => ?_
    have hnote := @pays_note Note UInt8 Note.volume 0 (.call (.float fp64 id bytes))
    rw [Note.volume, volume_float] at hnote
    rw [Nat.zero_add]
    exact hnote.bind fun _ => ih

/-- A payload pays for itself, but for an empty one. -/
theorem pays_payload (id : Id) (isBlob : Bool) (total remaining : ℕ) :
    Pays Note.volume 1 (payload id isBlob total remaining) fun _ => 0 := by
  have hprice (offset : ℕ) (chunk : List UInt8) :
      price Note.volume [.raw chunk, .call (.payload isBlob id total offset chunk)] ≤
        1 + chunk.length := by
    have hraw : (Note.raw chunk).volume = 0 := rfl
    rw [price_cons, price_cons, price_nil, hraw, Note.volume, volume_payload]
    omega
  intro bs
  rw [payload]
  split
  · next hle =>
    have hcost := hprice (total - remaining) (bs.take remaining)
    rw [List.length_take_of_le hle] at hcost
    change price Note.volume _ + (0 + (bs.drop remaining).length) ≤ _
    rw [List.length_drop]
    refine (Nat.add_le_add_right hcost _).trans ?_
    omega
  · split
    · exact Nat.zero_le _
    · exact hprice (total - remaining) bs

/-- The credit that a body needs. -/
def bodyCredit : Resume → ℕ
  | .payload _ _ _ _ => 1
  | _ => 0

/-- A body is paid for by its bytes and the credit it needs. -/
theorem pays_readBody (body : Resume) :
    Pays Note.volume (bodyCredit body) (readBody body) fun _ => 0 := by
  cases body with
  | none => exact pays_pure (Nat.le_refl 0)
  | payload id isBlob total remaining => exact pays_payload id isBlob total remaining
  | arrayInt id signed remaining => exact pays_integers id signed remaining
  | arrayFix id fp64 remaining => exact pays_floats id fp64 remaining

/-- An announcement is paid for by a word before it. -/
theorem pays_announce {depth : ℕ} {call : Callback} {body : Resume} (hone : call.volume = 1)
    (hcredit : 1 + bodyCredit body ≤ credit) :
    Pays Note.volume credit (announce depth call body) fun a => bodyCredit a.2 := by
  have hnote := @pays_note Note UInt8 Note.volume (bodyCredit body) (.call call)
  rw [Note.volume, hone] at hnote
  exact Pays.mono (hnote.bind fun _ => pays_pure (Nat.le_refl _)) hcredit

/-- The head of a fixlen field pays for its announcement and leaves what its body needs. -/
theorem pays_fixlenHead (depth : ℕ) (id : Id) :
    Pays Note.volume 1 (fixlenHead depth id) fun a => bodyCredit a.2 := by
  refine (pays_word 1).bind fun w => pays_demand ?_
  split
  · exact pays_demand (pays_announce rfl (by simp [bodyCredit]))
  · exact pays_demand (pays_announce rfl (by simp [bodyCredit]))
  · exact pays_announce rfl (by simp [bodyCredit])
  · exact pays_announce rfl (by simp [bodyCredit])
  · exact pays_reject

/-- The head of an integer array pays for its announcement and leaves what its body needs. -/
theorem pays_integersHead (depth : ℕ) (id : Id) (signed : Bool) :
    Pays Note.volume 1 (integersHead depth id signed) fun a => bodyCredit a.2 :=
  (pays_word 1).bind fun _ => pays_demand (pays_announce rfl (by simp [bodyCredit]))

/-- The head of a float array pays for its announcement and leaves what its body needs. -/
theorem pays_floatsHead (depth : ℕ) (id : Id) :
    Pays Note.volume 1 (floatsHead depth id) fun a => bodyCredit a.2 := by
  refine (pays_word 1).bind fun count => pays_demand ((pays_word 2).bind fun w => ?_)
  rw [floatsOf]
  split
  · exact pays_announce rfl (by simp [bodyCredit])
  · exact pays_announce rfl (by simp [bodyCredit])
  · exact pays_reject

/-- A head is paid for by its words. -/
theorem pays_readHead (depth : ℕ) :
    Pays Note.volume 0 (readHead depth) fun a => bodyCredit a.2 := by
  refine (pays_header 0).bind fun h => pays_demand ?_
  unfold typedHead
  split
  · exact (pays_word 1).bind fun _ => pays_announce rfl (by simp [bodyCredit])
  · exact (pays_word 1).bind fun _ => pays_announce rfl (by simp [bodyCredit])
  · exact pays_fixlenHead _ _
  · exact pays_integersHead _ _ _
  · exact pays_integersHead _ _ _
  · exact pays_floatsHead _ _
  · exact pays_demand (pays_announce rfl (by simp [bodyCredit]))
  · exact pays_demand (pays_announce rfl (by simp [bodyCredit]))

/-- A field pays for its own callbacks. -/
theorem pays_readField (depth : ℕ) : Pays Note.volume 0 (readField depth) fun _ => 0 :=
  (pays_readHead depth).bind fun a => (pays_readBody a.2).bind fun _ => pays_pure (Nat.le_refl 0)

end Paying

/-- A reading brings no more than its bytes. -/
theorem readFields_volume (depth : ℕ) (bs : List UInt8) :
    volume (calls (readFields depth bs).notes) ≤ bs.length := by
  rw [← price_volume]
  exact exhaust_pays pays_readField depth bs

/-- The pieces of payloads bring what the payloads do. -/
theorem Joined.volume_eq {run whole : List Callback} (h : Joined run whole)
    (hwithin : ∀ c ∈ whole, Within c) : volume run = volume whole := by
  induction h with
  | nil => rfl
  | call _ _ ih =>
    rw [volume, volume, price_cons, price_cons]
    exact congrArg _ (ih fun c hc => hwithin c (List.mem_cons_of_mem _ hc))
  | @piece isBlob id total offset chunk chunk' run whole hne hjoined ih =>
    obtain ⟨hfits, hlater⟩ := List.forall_mem_cons.mp hwithin
    rw [within_payload, List.length_append] at hfits
    have hrest : volume run =
        volume (.payload isBlob id total (offset + chunk.length) chunk' :: whole) :=
      ih (List.forall_mem_cons.mpr ⟨within_payload.mpr (by omega), hlater⟩)
    have hproper := proper_payload.mp (hjoined.whole_proper _ List.mem_cons_self)
    have hpos := List.length_pos_iff.mpr hne
    have hpos' : 0 < chunk'.length := List.length_pos_iff.mpr fun hnil => by
      have hzero := hproper hnil
      omega
    rw [volume, volume, price_cons, volume_payload] at hrest
    rw [volume, volume, price_cons, price_cons, volume_payload, volume_payload,
      List.length_append, hrest]
    omega

/-- What the visitor is called for, however often, brings no more than the bytes that were fed. In
particular there are no more callbacks than bytes. -/
theorem volume_le_fed (chunk : List UInt8) (rest : List (List UInt8)) :
    volume (feedAll IStream.new chunk rest).calls ≤ (chunk :: rest).flatten.length ∧
      (feedAll IStream.new chunk rest).calls.length ≤ (chunk :: rest).flatten.length := by
  obtain ⟨-, hjoined⟩ := feedAll_new_reads chunk rest
  have hwithin := readFields_calls announced_within delivered_within 0 (chunk :: rest).flatten
  have hall := (hjoined.volume_eq hwithin).trans_le (readFields_volume 0 _)
  exact ⟨hall, (length_le_volume _).trans hall⟩

end Sofab
