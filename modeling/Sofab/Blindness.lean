import Sofab.IStream

/-!
# Parsing is blind to the carry

The parser works on the bytes it is handed. It neither looks at the carry nor touches it.
-/

namespace Sofab

open DecodeM IStream

variable {α β : Type}

/-- The stream with the carry of another. -/
def IStream.carrying (is other : IStream) : IStream :=
  { is with carry := other.carry, carrySize := other.carrySize, carryLen := other.carryLen }

/-- A step that neither looks at the carry nor touches it. -/
def Blind (m : DecodeM α) : Prop :=
  ∀ is other, m (is.carrying other) = ⟨(m is).calls, (m is).is.carrying other, (m is).result⟩

/-- Returning a value looks at no carry. -/
theorem blind_pure (a : α) : Blind (pure a : DecodeM α) := fun _ _ => rfl

/-- A callback looks at no carry. -/
theorem blind_visit (call : Callback) : Blind (visit call) := fun _ _ => rfl

/-- A failure looks at no carry. -/
theorem blind_fail (e : Error) : Blind (fail e : DecodeM α) := fun _ _ => rfl

/-- A reported result looks at no carry. -/
theorem blind_ofExcept (result : Except Error α) : Blind (ofExcept result) := fun _ _ => rfl

/-- A change of the stream that leaves the carry alone looks at none. -/
theorem blind_update {f : IStream → IStream}
    (hf : ∀ is other, f (is.carrying other) = (f is).carrying other) : Blind (update f) :=
  fun is other => congrArg (fun is => Parsed.mk [] is (.ok ())) (hf is other)

/-- Steps that look at no carry compose. -/
theorem Blind.bind {m : DecodeM α} {f : α → DecodeM β} (hm : Blind m) (hf : ∀ a, Blind (f a)) :
    Blind (m >>= f) := by
  intro is other
  have hcarried := hm is other
  rcases hrun : m is with ⟨calls, is', e | a⟩
  · rw [hrun] at hcarried
    rw [bind_error hcarried, bind_error hrun]
  · rw [hrun] at hcarried
    rw [bind_ok hcarried, bind_ok hrun, hf a]
    rfl

/-- A step may look at another part of the stream. -/
theorem blind_self_bind {f : IStream → DecodeM α} (hf : ∀ is, Blind (f is))
    (hread : ∀ is other, f (is.carrying other) = f is) : Blind (self >>= f) := by
  intro is other
  rw [self_bind, self_bind, hread]
  exact hf is is other

/-- A choice that does not depend on the stream. -/
theorem blind_ite {p : Prop} [Decidable p] {m n : DecodeM α} (hpos : Blind m) (hneg : Blind n) :
    Blind (if p then m else n) := by
  split
  · exact hpos
  · exact hneg

/-- Latching the result of such a step looks at no carry. -/
theorem blind_latch {m : DecodeM α} (hm : Blind m) : Blind (latch m) := by
  intro is other
  rw [latch, latch, hm is other]
  rcases m is with ⟨calls, is', e | a⟩
  · simp only
    split <;> rfl
  · rfl

/-- A blind step leaves the carry as it was. -/
theorem Blind.kept {m : DecodeM α} (hm : Blind m) (is : IStream) :
    (m is).is.carry = is.carry ∧ (m is).is.carryLen = is.carryLen := by
  have hself : (m is).is = (m is).is.carrying is := congrArg Parsed.is (hm is is)
  have hcarry := congrArg IStream.carry hself
  have hlen := congrArg IStream.carryLen hself
  exact ⟨hcarry, hlen⟩

/-- The elements that are read in bulk need no carry. -/
theorem blind_intArrayBulk (signed : Bool) (buf : List UInt8) (id : Id) (rem p : ℕ) :
    Blind (intArrayBulk signed buf id rem p) := by
  induction rem generalizing p with
  | zero => exact blind_pure _
  | succ rem ih =>
    rw [intArrayBulk]
    split
    · exact (blind_ofExcept _).bind fun a => (blind_visit _).bind fun _ => ih a.2
    · exact blind_pure _

/-- The elements that are read one by one at the end of the buffer need no carry. -/
theorem blind_intArrayTail (signed : Bool) (buf : List UInt8) (id : Id) (rem p : ℕ) :
    Blind (intArrayTail signed buf id rem p) := by
  induction rem generalizing p with
  | zero => exact blind_pure _
  | succ rem ih =>
    rw [intArrayTail]
    refine (blind_ofExcept _).bind fun a => ?_
    rcases a with _ | ⟨val, next⟩
    · exact (blind_update fun _ _ => rfl).bind fun _ => blind_pure _
    · exact (blind_visit _).bind fun _ => ih next

/-- Integer elements need no carry. -/
theorem blind_intArray (signed : Bool) (buf : List UInt8) (pos : ℕ) (id : Id) (rem : ℕ) :
    Blind (intArray signed buf pos id rem) :=
  (blind_intArrayBulk signed buf id rem pos).bind fun a =>
    blind_intArrayTail signed buf id a.1 a.2

/-- Float elements need no carry. -/
theorem blind_fixArray (fp64 : Bool) (buf : List UInt8) (id : Id) (rem p : ℕ) :
    Blind (fixArray fp64 buf id rem p) := by
  induction rem generalizing p with
  | zero => exact blind_pure _
  | succ rem ih =>
    rw [fixArray]
    split
    · exact (blind_update fun _ _ => rfl).bind fun _ => blind_pure _
    · exact (blind_visit _).bind fun _ => ih _

/-- A payload needs no carry. -/
theorem blind_deliverPayload (buf : List UInt8) (pos : ℕ) : Blind (deliverPayload buf pos) := by
  refine blind_self_bind (fun is => ?_) fun _ _ => rfl
  split
  · simp only
    split
    · exact (blind_visit _).bind fun _ => (blind_update fun _ _ => rfl).bind fun _ => blind_pure _
    · exact blind_pure _
  · exact blind_pure _

/-- The item in progress is continued without the carry. -/
theorem blind_resumeItem (buf : List UInt8) (pos : ℕ) : Blind (resumeItem buf pos) := by
  refine blind_self_bind (fun is => ?_) fun _ _ => rfl
  split
  · exact blind_pure _
  · exact blind_deliverPayload buf pos
  · exact (blind_update fun _ _ => rfl).bind fun _ => blind_intArray _ _ _ _ _
  · exact (blind_update fun _ _ => rfl).bind fun _ => blind_fixArray _ _ _ _ _

/-- Whether an item was suspended is not said by the carry. -/
theorem blind_orSuspended (pos : ℕ) : Blind (orSuspended pos) := by
  refine blind_self_bind (fun is => ?_) fun _ _ => rfl
  split
  · exact blind_pure _
  · exact blind_pure _

/-- The arm of a varint needs no carry. -/
theorem blind_parseVarint (signed : Bool) (buf : List UInt8) (fieldStart pos : ℕ) (id : Id) :
    Blind (parseVarint signed buf fieldStart pos id) := by
  refine (blind_ofExcept _).bind fun a => ?_
  rcases a with _ | ⟨val, next⟩
  · exact blind_pure _
  · exact (blind_visit _).bind fun _ => blind_pure _

/-- The arm of a float needs no carry. -/
theorem blind_parseFloat (fp64 : Bool) (buf : List UInt8) (pos : ℕ) (id : Id) (len : ℕ) :
    Blind (parseFloat fp64 buf pos id len) := by
  rw [parseFloat]
  split
  · exact blind_fail _
  · exact (blind_visit _).bind fun _ => (blind_fixArray _ _ _ _ _).bind blind_orSuspended

/-- The arm of a payload needs no carry. -/
theorem blind_parsePayload (isBlob : Bool) (buf : List UInt8) (pos : ℕ) (id : Id) (len : ℕ) :
    Blind (parsePayload isBlob buf pos id len) := by
  refine (blind_visit _).bind fun _ => ?_
  split
  · exact (blind_visit _).bind fun _ => blind_pure _
  · exact (blind_update fun _ _ => rfl).bind fun _ =>
      (blind_deliverPayload buf pos).bind fun _ => blind_pure _

/-- The arm of a fixlen field needs no carry. -/
theorem blind_parseFixlen (buf : List UInt8) (fieldStart pos : ℕ) (id : Id) :
    Blind (parseFixlen buf fieldStart pos id) := by
  refine (blind_ofExcept _).bind fun a => ?_
  rcases a with _ | ⟨word, next⟩
  · exact blind_pure _
  refine blind_ite (blind_fail _) ?_
  refine blind_ite (blind_parseFloat _ _ _ _ _) ?_
  refine blind_ite (blind_parseFloat _ _ _ _ _) ?_
  exact blind_ite (blind_parsePayload _ _ _ _ _) (blind_fail _)

/-- The arm of an integer array needs no carry. -/
theorem blind_parseVarintArray (signed : Bool) (buf : List UInt8) (fieldStart pos : ℕ) (id : Id) :
    Blind (parseVarintArray signed buf fieldStart pos id) := by
  refine (blind_ofExcept _).bind fun a => ?_
  rcases a with _ | ⟨count, next⟩
  · exact blind_pure _
  · simp only
    split
    · exact blind_fail _
    · exact (blind_visit _).bind fun _ => (blind_intArray _ _ _ _ _).bind blind_orSuspended

/-- The arm of a float array needs no carry. -/
theorem blind_parseFixlenArray (buf : List UInt8) (fieldStart pos : ℕ) (id : Id) :
    Blind (parseFixlenArray buf fieldStart pos id) := by
  refine (blind_ofExcept _).bind fun a => ?_
  rcases a with _ | ⟨count, next⟩
  · exact blind_pure _
  simp only
  split
  · exact blind_fail _
  refine (blind_ofExcept _).bind fun a => ?_
  rcases a with _ | ⟨word, next'⟩
  · exact blind_pure _
  simp only
  split
  · exact blind_fail _
  · exact (blind_visit _).bind fun _ => (blind_fixArray _ _ _ _ _).bind blind_orSuspended

/-- The arm that opens a sequence needs no carry. -/
theorem blind_parseSequenceStart (pos : ℕ) (id : Id) : Blind (parseSequenceStart pos id) := by
  refine blind_self_bind (fun is => ?_) fun _ _ => rfl
  split
  · exact blind_fail _
  · exact (blind_update fun _ _ => rfl).bind fun _ => (blind_visit _).bind fun _ => blind_pure _

/-- The arm that closes a sequence needs no carry. -/
theorem blind_parseSequenceEnd (pos : ℕ) : Blind (parseSequenceEnd pos) := by
  refine blind_self_bind (fun is => ?_) fun _ _ => rfl
  split
  · exact blind_fail _
  · exact (blind_update fun _ _ => rfl).bind fun _ => (blind_visit _).bind fun _ => blind_pure _

/-- A field is parsed without the carry. -/
theorem blind_parseField (buf : List UInt8) (fieldStart : ℕ) : Blind (parseField buf fieldStart) := by
  refine (blind_ofExcept _).bind fun a => ?_
  rcases a with _ | ⟨header, pos⟩
  · exact blind_pure _
  refine blind_ite (blind_fail _) ?_
  refine blind_ite (blind_parseVarint _ _ _ _ _) ?_
  refine blind_ite (blind_parseVarint _ _ _ _ _) ?_
  refine blind_ite (blind_parseFixlen _ _ _ _) ?_
  refine blind_ite (blind_parseVarintArray _ _ _ _ _) ?_
  refine blind_ite (blind_parseVarintArray _ _ _ _ _) ?_
  refine blind_ite (blind_parseFixlenArray _ _ _ _) ?_
  refine blind_ite (blind_parseSequenceStart _ _) ?_
  exact blind_ite (blind_parseSequenceEnd _) (blind_fail _)

/-- The field loop needs no carry. -/
theorem blind_parseFields (buf : List UInt8) (pos : ℕ) : Blind (parseFields buf pos) := by
  induction hleft : buf.length - pos using Nat.strongRecOn generalizing pos with
  | _ left ih =>
    subst hleft
    intro is other
    by_cases hend : buf.length ≤ pos
    · rw [parseFields_of_le _ hend, parseFields_of_le _ hend]
    · have hlt := Nat.lt_of_not_le hend
      have hfield := blind_parseField buf pos is other
      rcases hturn : parseField buf pos is with ⟨calls, is', e | next | stop⟩
      · rw [hturn] at hfield
        rw [parseFields_of_error hlt hfield, parseFields_of_error hlt hturn]
      · have hforward := parseField_advances (congrArg Parsed.result hturn)
        rw [hturn] at hfield
        rw [parseFields_of_proceed hlt hfield, parseFields_of_proceed hlt hturn,
          ih _ (by omega) next rfl]
        rfl
      · rw [hturn] at hfield
        rw [parseFields_of_finish hlt hfield, parseFields_of_finish hlt hturn]

/-- All of the parser needs no carry. -/
theorem blind_parse (buf : List UInt8) : Blind (parse buf) := by
  refine blind_self_bind (fun is => ?_) fun _ _ => rfl
  split
  · exact blind_parseFields buf 0
  · refine (blind_resumeItem buf 0).bind fun pos => blind_self_bind (fun is => ?_) fun _ _ => rfl
    split
    · exact blind_parseFields buf pos
    · exact blind_pure _

/-- The bytes past the carry are consumed without it. -/
theorem blind_consume (rest : List UInt8) : Blind (consume rest) := by
  refine blind_self_bind (fun is => ?_) fun _ _ => rfl
  split
  · refine (blind_deliverPayload rest 0).bind fun pos => blind_self_bind (fun is => ?_) fun _ _ => rfl
    split
    · exact (blind_latch (blind_parse _)).bind fun _ => blind_pure _
    · exact blind_pure _
  · exact blind_latch (blind_parse rest)

end Sofab
