import Sofab.Bookkeeping

/-!
# Whether a float array is its default

A generated encoder omits an array field that equals its default, and asks for that by the bit
patterns: what is compared is the memory of the two slices. That comparison, the bytes on the
wire and the patterns themselves tell the same arrays apart.
-/

namespace Sofab

open Steps Step OStream Digits

/-- A float element type: its size in memory and its bit pattern. -/
class FloatBits (α : Type) where
  size : ℕ
  toBits : α → ℕ
  toBits_lt : ∀ e, toBits e < 256 ^ size
  toBits_injective : Function.Injective toBits

instance : FloatBits F32 := ⟨4, UInt32.toNat, UInt32.toNat_lt, fun _ _ => UInt32.toNat_inj.mp⟩

instance : FloatBits F64 := ⟨8, UInt64.toNat, UInt64.toNat_lt, fun _ _ => UInt64.toNat_inj.mp⟩

section Comparing

variable {α : Type} [FloatBits α]

open FloatBits

/-- The memory of an element. -/
def memory (host : Endian) (e : α) : List UInt8 :=
  match host with
  | .little => leBytes (size α) (toBits e)
  | .big => (leBytes (size α) (toBits e)).reverse

/-- Whether two slices have the same length and the same bit patterns: their first `n` bytes
are compared, where `n` is the size of the first. -/
def bitsEqual (host : Endian) (a b : List α) : Bool :=
  if a.length ≠ b.length then
    false
  else
    let n := a.length * size α
    let x := (a.flatMap (memory host)).take n
    let y := (b.flatMap (memory host)).take n
    -- a difference in the first word is found without the block compare
    if 8 ≤ x.length ∧ x.take 8 ≠ y.take 8 then
      false
    else
      x == y

/-- An element takes up its size in memory. -/
theorem memory_length (host : Endian) (e : α) : (memory host e).length = size α := by
  cases host <;> simp [memory]

/-- Elements are told apart by the little-endian bytes of their bits. -/
theorem leBits_injective : Function.Injective fun e : α => leBytes (size α) (toBits e) :=
  fun e f h => toBits_injective (leBytes_inj (toBits_lt e) (toBits_lt f) h)

/-- Elements are told apart by their memory, whatever the byte order. -/
theorem memory_injective (host : Endian) : Function.Injective (memory host : α → List UInt8) := by
  intro e f h
  cases host with
  | little => exact leBits_injective h
  | big => exact leBits_injective (List.reverse_injective h)

/-- A slice is as long in memory as its elements. -/
theorem memory_take (host : Endian) (a : List α) :
    (a.flatMap (memory host)).take (a.length * size α) = a.flatMap (memory host) := by
  refine List.take_of_length_le ?_
  simp [List.length_flatMap, memory_length]

/-- The comparison tells slices apart as their bit patterns do. -/
theorem bitsEqual_iff (host : Endian) (a b : List α) : bitsEqual host a b = true ↔ a = b := by
  rw [bitsEqual]
  by_cases hlen : a.length = b.length
  · rw [if_neg (not_not.mpr hlen)]
    dsimp only
    rw [memory_take, hlen, memory_take]
    constructor
    · intro h
      split at h
      · cases h
      · exact flatMap_inj_of_width (memory_length host) (memory_injective host) hlen
          (eq_of_beq h)
    · rintro rfl
      simp
  · rw [if_pos hlen]
    exact iff_of_false Bool.false_ne_true fun h => hlen (congrArg List.length h)

/-- The wire image tells arrays apart as their bit patterns do. -/
theorem floatsBytes_eq_iff (id : Id) (width : ℕ) (subtype : FixlenType) (a b : List α) :
    floatsBytes id a.length width subtype (a.flatMap fun e => leBytes (size α) (toBits e)) =
        floatsBytes id b.length width subtype (b.flatMap fun e => leBytes (size α) (toBits e)) ↔
      a = b := by
  refine ⟨fun h => ?_, fun h => by rw [h]⟩
  simp only [floatsBytes, List.append_assoc, List.append_cancel_left_eq] at h
  obtain ⟨hcount, hrest⟩ := Leb128.encode_append_inj h
  exact flatMap_inj_of_width (fun e => leBytes_length (size α) (toBits e)) leBits_injective hcount
    (List.append_cancel_left hrest)

end Comparing

variable {os : OStream}

/-- A field write that ends well adds the bytes of the field behind those of the headers held
back. -/
theorem Field.message_of_ok (host : Endian) {φ : Framing} {f : Field} (hsound : Sound os)
    (hframed : Framed os φ) (hok : (f.write host os).2 = .ok ()) :
    (f.write host os).1.message = os.message ++ (startHeaders φ.held ++ f.bytes) := by
  have hwrote := (Call.field f).write_wrote host hsound hframed
  change Wrote os φ _ (f.write host os) at hwrote
  generalize f.write host os = result at hwrote hok
  cases hwrote with
  | emitted hemit hemits =>
    cases hemits with
    | ok reached =>
      cases Call.emitted hemit with
      | field => exact reached.message
    | stopped => cases hok
    | unwound => cases hok
  | refused => cases hok

/-- Two field writes that both end well make the same message just if the fields have the same
bytes. -/
theorem message_eq_iff (host : Endian) (hos : Reachable host os) {f g : Field}
    (hf : (f.write host os).2 = .ok ()) (hg : (g.write host os).2 = .ok ()) :
    (f.write host os).1.message = (g.write host os).1.message ↔ f.bytes = g.bytes := by
  obtain ⟨hsound, φ, hframed⟩ := hos.tracked
  rw [Field.message_of_ok host hsound hframed hf, Field.message_of_ok host hsound hframed hg,
    List.append_cancel_left_eq, List.append_cancel_left_eq]

/-- With room for everything the bytes of a valid field are the message. -/
theorem unlimited_field (host : Endian) {f : Field} (hvalid : f.Valid) :
    (unlimited host [.field f]).1.message = f.bytes := by
  have hemit := @Call.emit_field Tape.new.framing f hvalid
  rw [unlimited_message, record, drive_cons, drive_nil, Call.record_ok hemit]
  rfl

/-- The bit patterns of two slices, the comparison of them, and their encodings by `field`, with
room for everything or in any stream where both go well, tell them apart alike. -/
structure ToldApart {α : Type} [FloatBits α] (host : Endian) (field : List α → Field)
    (a b : List α) : Prop where
  patterns : bitsEqual host a b = true ↔
    a.length = b.length ∧ ∀ i (ha : i < a.length) (hb : i < b.length), a[i] = b[i]
  bytes : bitsEqual host a b = true ↔
    (unlimited host [.field (field a)]).1.message = (unlimited host [.field (field b)]).1.message
  anywhere : ∀ os, Reachable host os → ((field a).write host os).2 = .ok () →
    ((field b).write host os).2 = .ok () → (bitsEqual host a b = true ↔
      ((field a).write host os).1.message = ((field b).write host os).1.message)

/-- Valid fields whose bytes are those of the patterns. -/
theorem toldApart {α : Type} [FloatBits α] (host : Endian) {field : List α → Field} {a b : List α}
    (ha : (field a).Valid) (hb : (field b).Valid) (hbytes : (field a).bytes = (field b).bytes ↔ a = b) :
    ToldApart host field a b where
  patterns := (bitsEqual_iff host a b).trans List.ext_getElem_iff
  bytes := by rw [unlimited_field host ha, unlimited_field host hb, hbytes, bitsEqual_iff]
  anywhere os hos hoka hokb := by rw [message_eq_iff host hos hoka hokb, hbytes, bitsEqual_iff]

/-- The default test agrees with the encoder on arrays of either width. -/
theorem bitsEqual_iff_same_encoding (host : Endian) {id : Id} (hid : id.toNat ≤ idMax) :
    (∀ a b : List F32, a.length ≤ arrayMax → b.length ≤ arrayMax →
      ToldApart host (.arrayFp32 id) a b) ∧
    ∀ a b : List F64, a.length ≤ arrayMax → b.length ≤ arrayMax →
      ToldApart host (.arrayFp64 id) a b :=
  ⟨fun a b ha hb => toldApart host ⟨hid, ha⟩ ⟨hid, hb⟩ (floatsBytes_eq_iff id 4 .fp32 a b),
    fun a b ha hb => toldApart host ⟨hid, ha⟩ ⟨hid, hb⟩ (floatsBytes_eq_iff id 8 .fp64 a b)⟩

/-- The two zeros, and two payloads of a NaN past the first word. -/
theorem bitsEqual_iff_same_encoding_zeros :
    (unlimited .big [.field (.arrayFp32 7 [0x80000000])]).1.message ≠
        (unlimited .big [.field (.arrayFp32 7 [0])]).1.message ∧
      (unlimited .little [.field (.arrayFp64 7 [0, 0x7FF8000000000001])]).1.message ≠
        (unlimited .little [.field (.arrayFp64 7 [0, 0x7FF8000000000002])]).1.message := by
  have hsingle := ((bitsEqual_iff_same_encoding .big (show (7 : Id).toNat ≤ idMax by decide)).1
    [0x80000000] [0] (by decide) (by decide)).bytes
  have hdouble := ((bitsEqual_iff_same_encoding .little (show (7 : Id).toNat ≤ idMax by decide)).2
    [0, 0x7FF8000000000001] [0, 0x7FF8000000000002] (by decide) (by decide)).bytes
  exact ⟨mt hsingle.mpr (by decide), mt hdouble.mpr (by decide)⟩

end Sofab
