import JitBackend.Const.Basic
import JitBackend.Decimal.Shortest
import JitBackend.Text.Hex

/-!
# Text of constants

Pointers are written in hexadecimal, other integers in decimal, floats as shortest decimals of their value widened to
eight bytes, and complex numbers as `(1+2i)`.
-/

namespace JitBackend

namespace Const

def text (c : Const) : String :=
  match c.kind with
  | .void => "void"
  | .bool => if c.asBool then "true" else "false"
  | .ptr => Text.hex c.re.toNat
  | .float32 | .float64 => Decimal.text Ieee.binary64 c.asFloat
  | .complex64 | .complex128 =>
    "(" ++ Decimal.text Ieee.binary64 c.asComplex.1 ++ Decimal.signedText Ieee.binary64 c.asComplex.2 ++ "i)"
  | k => if k.isSigned then toString c.re.toInt else toString c.re.toNat

end Const

end JitBackend
