import JitBackend.Error

/-!
# Folding of constants

Conversion between kinds and the operations on constants. Integer arithmetic is modulo the width of the left operand's
kind, signed or unsigned as the kind is; float arithmetic is that of the kind, and complex arithmetic is done on
eight-byte floats. Division by zero and a negative shift count fail.
-/

namespace JitBackend

/-- The answer of a comparison between operands that stand in the order `o`. -/
def CompareOp.ofOrdering (op : CompareOp) (o : Ordering) : Bool :=
  match op with
  | .eql => o == .eq
  | .neq => o != .eq
  | .lss => o == .lt
  | .leq => o != .gt
  | .gtr => o == .gt
  | .geq => o != .lt

namespace Const

open Ieee

/-- Conversion to kind `k`. -/
def convert (c : Const) (k : Kind) : Except Error Const :=
  let bad := .error (.invalidOp (UnaryOp.cast : Op) [c.kind, k])
  if c.kind.isComplex && !k.isComplex then bad
  else if k.isWord then
    if c.kind.isFloat then
      if k.isSigned then .ok (ofInt k (signedPart c.asFloat))
      else .ok (ofBits k (.ofInt 64 (unsignedPart c.asFloat)) 0)
    else .ok (ofBits k c.re 0)
  else if k.isFloat then .ok (float k c.asFloat)
  else if k.isComplex then .ok (complex k c.asComplex.1 c.asComplex.2)
  else if k.isBool && c.kind.isBool then .ok c
  else bad

/-! ## One operand -/

def neg (c : Const) : Const :=
  if c.kind.isFloat then float c.kind (binary64.negate c.asFloat)
  else if c.kind.isComplex then complex c.kind (binary64.negate c.asComplex.1) (binary64.negate c.asComplex.2)
  else ofBits c.kind (-c.re) 0

def inv (c : Const) : Const := ofBits c.kind (~~~c.re) 0

def lnot (c : Const) : Const := bool !c.asBool

/-! ## Two operands -/

/-- The comparison of two `binary64` patterns; a non-number differs from everything and is in no order. -/
def compareFloat (op : CompareOp) (a b : Nat) : Bool :=
  match op with
  | .eql => eq binary64 a b
  | .neq => !eq binary64 a b
  | .lss => lt binary64 a b
  | .leq => le binary64 a b
  | .gtr => lt binary64 b a
  | .geq => le binary64 b a

def compare (op : CompareOp) (x y : Const) : Except Error Bool :=
  if x.kind.isFloat then .ok (compareFloat op x.asFloat y.asFloat)
  else if x.kind.isComplex then
    let equal := eq binary64 x.asComplex.1 y.asComplex.1 && eq binary64 x.asComplex.2 y.asComplex.2
    match op with
    | .eql => .ok equal
    | .neq => .ok !equal
    | _ => .error (.invalidOp (BinaryOp.compare op : Op) [x.kind, y.kind])
  else if x.kind.isSigned then .ok (op.ofOrdering (Ord.compare x.asInt y.asInt))
  else .ok (op.ofOrdering (Ord.compare x.asNat y.asNat))

/-- Shift of the pattern; a right shift extends by the sign of a signed kind. -/
def shift (left : Bool) (x y : Const) : Except Error Const :=
  if y.kind.isSigned && y.asInt < 0 then .error (.negativeShift y.asInt)
  else
    let count := y.asNat
    .ok <| ofBits x.kind (if left then if 64 ≤ count then 0 else x.re <<< count
      else if x.kind.isSigned then x.re.sshiftRight (min count 63)
      else if 64 ≤ count then 0 else x.re >>> count) 0

def floatArith (f : Format) (op : ArithOp) (a b : Nat) : Option Nat :=
  match op with
  | .add => some (add f a b)
  | .sub => some (sub f a b)
  | .mul => some (mul f a b)
  | .quo => some (div f a b)
  | _ => none

/-- Arithmetic on complex numbers as pairs of `binary64` patterns. -/
def complexArith (op : ArithOp) : Nat × Nat → Nat × Nat → Option (Nat × Nat)
  | (a, b), (c, d) =>
    let sum := add binary64
    let difference := sub binary64
    let product := mul binary64
    let quotient := div binary64
    match op with
    | .add => some (sum a c, sum b d)
    | .sub => some (difference a c, difference b d)
    | .mul => some (difference (product a c) (product b d), sum (product a d) (product b c))
    | .quo =>
      let norm := sum (product c c) (product d d)
      some (quotient (sum (product a c) (product b d)) norm, quotient (difference (product b c) (product a d)) norm)
    | _ => none

/-- Integer arithmetic on patterns. `none` is division by zero; shifts are not done here. -/
def wordArith (signed : Bool) (op : ArithOp) (a b : Word) : Option Word :=
  match op with
  | .add => some (a + b)
  | .sub => some (a - b)
  | .mul => some (a * b)
  | .quo => if b = 0 then none else some (if signed then a.sdiv b else a / b)
  | .rem => if b = 0 then none else some (if signed then a.srem b else a % b)
  | .and => some (a &&& b)
  | .or => some (a ||| b)
  | .xor => some (a ^^^ b)
  | .andNot => some (a &&& ~~~b)
  | .shl | .shr => some a

def arith (op : ArithOp) (x y : Const) : Except Error Const :=
  let bad := .error (.invalidOp (BinaryOp.arith op : Op) [x.kind, y.kind])
  match op with
  | .shl => shift true x y
  | .shr => shift false x y
  | op =>
    match x.kind with
    | .float32 =>
      let narrow := Ieee.convert binary64 binary32
      match floatArith binary32 op (narrow x.asFloat) (narrow y.asFloat) with
      | some r => .ok (ofBits .float32 (.ofNat 64 r) 0)
      | none => bad
    | .float64 =>
      match floatArith binary64 op x.asFloat y.asFloat with
      | some r => .ok (ofBits .float64 (.ofNat 64 r) 0)
      | none => bad
    | .complex64 | .complex128 =>
      match complexArith op x.asComplex y.asComplex with
      | some (re, im) => .ok (complex x.kind re im)
      | none => bad
    | .void | .bool => bad
    | k =>
      match wordArith k.isSigned op x.re y.re with
      | some r => .ok (ofBits k r 0)
      | none => .error (.divisionByZero k)

/-- The value of an operation on two constants. -/
def binary (op : BinaryOp) (x y : Const) : Except Error Const :=
  match op with
  | .compare c => (compare c x y).map bool
  | .logic .and => .ok (bool (x.asBool && y.asBool))
  | .logic .or => .ok (bool (x.asBool || y.asBool))
  | .arith a => arith a x y
  | op => .error (.invalidOp (op : Op) [x.kind, y.kind])

end Const

end JitBackend
