import Sofab.OStream

/-!
# What a caller does with an encoder

Field and array writers, the sequence writers, and the two operations on buffers. A caller
makes them in any order and may ignore what each of them returns.
-/

namespace Sofab

open Steps Step OStream

/-- A field or array write. -/
inductive Field : Type 1
  | unsigned (id : Id) (value : Unsigned)
  | signed (id : Id) (value : Signed)
  | boolean (id : Id) (value : Bool)
  | fp32 (id : Id) (value : F32)
  | fp64 (id : Id) (value : F64)
  | str (id : Id) (text : String)
  | blob (id : Id) (data : List UInt8)
  | fixlen (id : Id) (data : List UInt8) (subtype : FixlenType)
  | arrayUnsigned {α : Type} [UnsignedElem α] (id : Id) (data : List α)
  | arraySigned {α : Type} [SignedElem α] (id : Id) (data : List α)
  | arrayFp32 (id : Id) (data : List F32)
  | arrayFp64 (id : Id) (data : List F64)

/-- A writer call. -/
inductive Call : Type 1
  | field (f : Field)
  | sequenceBeginLazy (id : Id)
  | sequenceEnd
  | sequenceEndKeep

/-- A writer call or an operation on the buffers. -/
inductive Op : Type 1
  | call (c : Call)
  | flush
  | bufferSet (buffer : List UInt8) (offset : ℕ)

/-- Make a field or array write. -/
def Field.write (host : Endian) : Field → EncodeM Unit
  | .unsigned id value => writeUnsigned id value
  | .signed id value => writeSigned id value
  | .boolean id value => writeBoolean id value
  | .fp32 id value => writeFp32 id value
  | .fp64 id value => writeFp64 id value
  | .str id text => writeStr id text
  | .blob id data => writeBlob id data
  | .fixlen id data subtype => writeFixlen id data subtype
  | @Field.arrayUnsigned _ _ id data => writeArrayUnsigned id data
  | @Field.arraySigned _ _ id data => writeArraySigned id data
  | .arrayFp32 id data => writeArrayFp32 host id data
  | .arrayFp64 id data => writeArrayFp64 host id data

/-- Make a writer call. -/
def Call.write (host : Endian) : Call → EncodeM Unit
  | .field f => f.write host
  | .sequenceBeginLazy id => writeSequenceBeginLazy id
  | .sequenceEnd => writeSequenceEnd
  | .sequenceEndKeep => writeSequenceEndKeep

/-- Make a writer call or an operation on the buffers. -/
def Op.run (host : Endian) : Op → EncodeM Unit
  | .call c => c.write host
  | .flush => do
    let _ ← OStream.flush
    pure ()
  | .bufferSet buffer offset => OStream.bufferSet buffer offset

/-- Make writer calls in order, whatever each of them returns. -/
def writeAll (host : Endian) (calls : List Call) (os : OStream) :
    OStream × List (Exit Error Unit) :=
  drive (Call.write host) calls os

/-- Make operations in order, whatever each of them returns. -/
def runAll (host : Endian) (ops : List Op) (os : OStream) : OStream × List (Exit Error Unit) :=
  drive (Op.run host) ops os

/-- The writer calls among operations. -/
def callsOf : List Op → List Call
  | [] => []
  | .call c :: ops => c :: callsOf ops
  | _ :: ops => callsOf ops

/-- The identifier of a field. -/
def Field.id : Field → Id
  | .unsigned id _ => id
  | .signed id _ => id
  | .boolean id _ => id
  | .fp32 id _ => id
  | .fp64 id _ => id
  | .str id _ => id
  | .blob id _ => id
  | .fixlen id _ _ => id
  | @Field.arrayUnsigned _ _ id _ => id
  | @Field.arraySigned _ _ id _ => id
  | .arrayFp32 id _ => id
  | .arrayFp64 id _ => id

/-- A payload agrees with its subtype. -/
def Agrees (data : List UInt8) : FixlenType → Prop
  | .fp32 => data.length = 4
  | .fp64 => data.length = 8
  | .str => isUtf8 data = true
  | .blob => True

/-- The length of a field is one that the format allows, and its payload is of its subtype. -/
def Field.Fits : Field → Prop
  | .str _ text => text.toUTF8.data.toList.length ≤ fixlenMax
  | .blob _ data => data.length ≤ fixlenMax
  | .fixlen _ data subtype => Agrees data subtype ∧ data.length ≤ fixlenMax
  | @Field.arrayUnsigned _ _ _ data => data.length ≤ arrayMax
  | @Field.arraySigned _ _ _ data => data.length ≤ arrayMax
  | .arrayFp32 _ data => data.length ≤ arrayMax
  | .arrayFp64 _ data => data.length ≤ arrayMax
  | _ => True

/-- The arguments of a field write are valid. -/
def Field.Valid (field : Field) : Prop := field.id.toNat ≤ idMax ∧ field.Fits

instance (data : List UInt8) : DecidablePred (Agrees data) := fun subtype => by
  cases subtype <;> unfold Agrees <;> infer_instance

instance : DecidablePred Field.Fits := fun field => by
  cases field <;> unfold Field.Fits <;> infer_instance

instance : DecidablePred Field.Valid := fun _ => inferInstanceAs (Decidable (_ ∧ _))

end Sofab
