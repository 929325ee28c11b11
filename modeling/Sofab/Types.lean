import Mathlib.Data.Nat.Notation

/-!
# Shared types and wire constants

The numeric ceilings are kept as natural numbers and compared through `toNat`. Floats are
their IEEE-754 bit patterns: the codec copies them and never does arithmetic on them.
-/

namespace Sofab

/-- Field identifier. -/
abbrev Id := UInt32

/-- Unsigned wire value. -/
abbrev Unsigned := UInt64

/-- Signed wire value. -/
abbrev Signed := Int64

/-- A 32-bit float, as its bit pattern. -/
abbrev F32 := UInt32

/-- A 64-bit float, as its bit pattern. -/
abbrev F64 := UInt64

/-- Largest valid field id, `i32::MAX`. -/
def idMax : ℕ := 2147483647

/-- Maximum number of elements in an array, `i32::MAX`. -/
def arrayMax : ℕ := 2147483647

/-- Maximum number of bytes in a fixlen field, `i32::MAX`. -/
def fixlenMax : ℕ := 2147483647

/-- Smallest capacity of a buffer installed together with a sink. -/
def minOutputBuffer : ℕ := 1

/-- Maximum nested-sequence depth. -/
def maxDepth : ℕ := 255

/-! The wire types: the low three bits of a field header. -/

def tVarintUnsigned : UInt8 := 0
def tVarintSigned : UInt8 := 1
def tFixlen : UInt8 := 2
def tVarintArrayUnsigned : UInt8 := 3
def tVarintArraySigned : UInt8 := 4
def tFixlenArray : UInt8 := 5
def tSequenceStart : UInt8 := 6
def tSequenceEnd : UInt8 := 7

/-- Sub-type of a fixed-length field. -/
inductive FixlenType
  | fp32
  | fp64
  | str
  | blob
  deriving DecidableEq, Repr

/-- The 3-bit tag inside the fixlen word. -/
def FixlenType.tag : FixlenType → UInt8
  | .fp32 => 0
  | .fp64 => 1
  | .str => 2
  | .blob => 3

/-- Element category of an array, as reported at its start. -/
inductive ArrayKind
  | unsigned
  | signed
  | fp32
  | fp64
  deriving DecidableEq, Repr

/-- Errors of the encoder and decoder. -/
inductive Error
  | argument
  | bufferFull
  | invalidMsg
  | limitExceeded
  deriving DecidableEq, Repr

end Sofab
