/-!
# Hexadecimal text

Digits of a number in base sixteen, with leading zeros up to a least width.
-/

namespace JitBackend.Text

/-- The digits of `n` in base sixteen, in small letters. -/
def hexDigits (n : Nat) : List Char := Nat.toDigits 16 n

/-- `n` in small hexadecimal digits, at least `width` of them. -/
def hexPad (width n : Nat) : String :=
  String.ofList (List.replicate (width - (hexDigits n).length) '0' ++ hexDigits n)

/-- `n` in capital hexadecimal digits, at least `width` of them. -/
def hexPadUpper (width n : Nat) : String := (hexPad width n).toUpper

/-- `n` in hexadecimal behind the mark `0x`. -/
def hex (n : Nat) : String := "0x" ++ hexPad 1 n

end JitBackend.Text
