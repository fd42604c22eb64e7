import JitBackend.Kind
import JitBackend.Ieee

/-!
# Constants

A constant is a kind with the bit pattern of a value in two words, the second one for the imaginary part of a complex
number. `Const.ofBits` keeps the pattern canonical: integers are extended to the word according to their signedness,
four-byte floats fill the low half. Two constants of equal kind and pattern are therefore equal values.
-/

namespace JitBackend

abbrev Word := BitVec 64

/-- The canonical pattern of kind `k` with the low bits of `w`. -/
def Kind.canonical (k : Kind) (w : Word) : Word :=
  match k with
  | .void => 0
  | .bool => if w = 0 then 0 else 1
  | .int8 => (w.setWidth 8).signExtend 64
  | .int16 => (w.setWidth 16).signExtend 64
  | .int32 => (w.setWidth 32).signExtend 64
  | .uint8 => (w.setWidth 8).setWidth 64
  | .uint16 => (w.setWidth 16).setWidth 64
  | .uint32 | .float32 | .complex64 => (w.setWidth 32).setWidth 64
  | .int64 | .uint64 | .float64 | .complex128 | .ptr => w

structure Const where
  kind : Kind
  re : Word
  im : Word
  deriving DecidableEq, Repr

namespace Const

open Ieee

/-- The constant of kind `k` with the low bits of the two words. -/
def ofBits (k : Kind) (re im : Word) : Const :=
  ⟨k, k.canonical re, if k.isComplex then k.canonical im else 0⟩

/-- The constant of kind `k` and value `i`: an integer kind takes it modulo its width, a float kind rounds it. -/
def ofInt (k : Kind) (i : Int) : Const :=
  match k with
  | .float32 | .complex64 => ofBits k (.ofNat 64 (Ieee.ofInt binary32 i)) 0
  | .float64 | .complex128 => ofBits k (.ofNat 64 (Ieee.ofInt binary64 i)) 0
  | _ => ofBits k (.ofInt 64 i) 0

def zero (k : Kind) : Const := ofBits k 0 0

def bool (b : Bool) : Const := ofBits .bool (if b then 1 else 0) 0

def int64 (i : Int) : Const := ofInt .int64 i

def uint8 (n : Nat) : Const := ofBits .uint8 (.ofNat 64 n) 0

def ptr (w : Word) : Const := ofBits .ptr w 0

/-- A float of kind `k` from a `binary64` pattern. -/
def float (k : Kind) (n : Nat) : Const :=
  match k with
  | .float32 => ofBits .float32 (.ofNat 64 (convert binary64 binary32 n)) 0
  | _ => ofBits .float64 (.ofNat 64 n) 0

/-- A complex number of kind `k` from two `binary64` patterns. -/
def complex (k : Kind) (re im : Nat) : Const :=
  match k with
  | .complex64 =>
    ofBits .complex64 (.ofNat 64 (convert binary64 binary32 re)) (.ofNat 64 (convert binary64 binary32 im))
  | _ => ofBits .complex128 (.ofNat 64 re) (.ofNat 64 im)

/-- The real part as a `binary64` pattern; integers are rounded. -/
def asFloat (c : Const) : Nat :=
  match c.kind with
  | .float32 | .complex64 => convert binary32 binary64 (c.re.setWidth 32).toNat
  | .float64 | .complex128 => c.re.toNat
  | k => Ieee.ofInt binary64 (if k.isSigned then c.re.toInt else c.re.toNat)

/-- Both parts as `binary64` patterns. -/
def asComplex (c : Const) : Nat × Nat :=
  match c.kind with
  | .complex64 =>
    (convert binary32 binary64 (c.re.setWidth 32).toNat, convert binary32 binary64 (c.im.setWidth 32).toNat)
  | .complex128 => (c.re.toNat, c.im.toNat)
  | _ => (c.asFloat, 0)

/-- The integer part of a `binary64` pattern, kept within the signed words. -/
def signedPart (n : Nat) : Int := toIntWithin binary64 (BitVec.intMin 64).toInt (BitVec.intMax 64).toInt n

/-- The integer part of a `binary64` pattern, kept within the unsigned words. -/
def unsignedPart (n : Nat) : Int := toIntWithin binary64 0 (BitVec.allOnes 64).toNat n

/-- The value as a signed word: the pattern read as signed, or the integer part of a float kept within the word. -/
def asInt (c : Const) : Int :=
  if c.kind.isFloat then signedPart c.asFloat else c.re.toInt

/-- The pattern as an unsigned number of the width of the kind. -/
def asNat (c : Const) : Nat := if c.kind.isSigned then (c.re.setWidth c.kind.bits).toNat else c.re.toNat

def asBool (c : Const) : Bool := c.re != 0

def isZero (c : Const) : Bool :=
  if c.kind.isFloat then eq binary64 c.asFloat 0
  else if c.kind.isComplex then eq binary64 c.asComplex.1 0 && eq binary64 c.asComplex.2 0
  else c.re == 0

/-- Whether sign extension from four bytes gives the value back; narrow kinds always do. -/
def fitsInt32 (c : Const) : Bool := c.kind.size ≤ 4 || (BitVec.ofInt 32 c.asInt).toInt == c.asInt

/-- Whether the pattern can stand in an instruction as a sign-extended four-byte immediate. -/
def fitsImmediate (c : Const) : Bool := c.kind.size ≤ 4 || (c.re.setWidth 32).signExtend 64 == c.re

end Const

end JitBackend
