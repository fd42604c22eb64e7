/-!
# Binary floating-point numbers

Numbers of the binary interchange formats as bit patterns, and exact arithmetic on them: a pattern is decoded into
`± m · 2 ^ q`, the operation is carried out on integers, and the result is rounded to the nearest number of the
format, a tie to the even one.

An operation with an operand that is not a number returns that operand made quiet, the left one first. An operation
with no answer (`∞ - ∞`, `0 · ∞`, `0 / 0`, `∞ / ∞`) returns the quiet pattern with the sign set and an empty payload.
-/

namespace JitBackend.Ieee

/-- A binary format: `precision` significant bits, `exponentBits` bits of biased exponent. -/
structure Format where
  precision : Nat
  exponentBits : Nat

def binary32 : Format := ⟨24, 8⟩
def binary64 : Format := ⟨53, 11⟩

namespace Format

variable (f : Format)

/-- Bits of a pattern below the exponent field. -/
def fractionBits : Nat := f.precision - 1

/-- The exponent `q` of the smallest positive number `2 ^ q`. -/
def leastExponent : Int := 3 - (1 <<< (f.exponentBits - 1) : Nat) - f.precision

/-- The magnitude pattern of infinity. -/
def infinity : Nat := ((1 <<< f.exponentBits) - 1) <<< f.fractionBits

/-- The sign bit as a number. -/
def signBit : Nat := 1 <<< (f.fractionBits + f.exponentBits)

/-- The bit that tells a quiet non-number from a signalling one. -/
def quietBit : Nat := 1 <<< (f.fractionBits - 1)

def isNegative (n : Nat) : Bool := f.signBit ≤ n

def magnitude (n : Nat) : Nat := n % f.signBit

def isNaN (n : Nat) : Bool := f.infinity < f.magnitude n

/-- The pattern of a sign and a magnitude. -/
def pattern (negative : Bool) (magnitude : Nat) : Nat := if negative then f.signBit + magnitude else magnitude

/-- What an operation with no answer returns. -/
def noNumber : Nat := f.pattern true (f.infinity + f.quietBit)

def quiet (n : Nat) : Nat := n ||| f.quietBit

def negate (n : Nat) : Nat := f.pattern (!f.isNegative n) (f.magnitude n)

end Format

/-- A number, decoded: `finite s m q` is `± m · 2 ^ q`. -/
inductive Value
  | nan (pattern : Nat) | infinite (negative : Bool) | finite (negative : Bool) (m : Nat) (q : Int)

def decode (f : Format) (n : Nat) : Value :=
  let mag := f.magnitude n
  let neg := f.isNegative n
  if f.infinity < mag then .nan n
  else if mag = f.infinity then .infinite neg
  else
    let e := mag >>> f.fractionBits
    let frac := mag % (1 <<< f.fractionBits)
    if e = 0 then .finite neg frac f.leastExponent
    else .finite neg ((1 <<< f.fractionBits) + frac) (f.leastExponent + (e - 1 : Nat))

/-- `m / 2 ^ s` rounded to the nearest integer, a tie to the even one. -/
def shiftRound (m s : Nat) : Nat :=
  let low := m >>> s
  let unit := 1 <<< s
  let rest := 2 * (m % unit)
  if unit < rest ∨ (rest = unit ∧ low % 2 = 1) then low + 1 else low

/-- The pattern nearest to `± m · 2 ^ q`. -/
def round (f : Format) (negative : Bool) (m : Nat) (q : Int) : Nat :=
  if m = 0 then f.pattern negative 0
  else
    let unit := max (q + (m.log2 + 1 : Nat) - f.precision) f.leastExponent
    let scaled := if unit ≤ q then m <<< (q - unit).toNat else shiftRound m (unit - q).toNat
    let mag := ((unit - f.leastExponent).toNat <<< f.fractionBits) + scaled
    f.pattern negative (min mag f.infinity)

/-- The pattern of a decoded number in the format `f`; `g` is the format it was decoded from. A non-number keeps its
sign and the leading bits of its payload. -/
def encode (g f : Format) : Value → Nat
  | .nan n =>
    let payload := g.magnitude n - g.infinity
    let moved := if g.precision ≤ f.precision then payload <<< (f.precision - g.precision)
      else payload >>> (g.precision - f.precision)
    f.quiet (f.pattern (g.isNegative n) (f.infinity + moved))
  | .infinite s => f.pattern s f.infinity
  | .finite s m q => round f s m q

/-- Conversion between formats. -/
def convert (g f : Format) (n : Nat) : Nat := encode g f (decode g n)

def ofInt (f : Format) (i : Int) : Nat := round f (i < 0) i.natAbs 0

/-- The integer part of a number, its fraction cut off, kept within `lo` and `hi`; zero for a non-number. -/
def toIntWithin (f : Format) (lo hi : Int) (n : Nat) : Int :=
  match decode f n with
  | .nan _ => 0
  | .infinite s => if s then lo else hi
  | .finite s m q =>
    let whole := if 0 ≤ q then m <<< q.toNat else m >>> (-q).toNat
    max lo (min hi (if s then -(whole : Int) else whole))

/-- Carries out an operation on decoded numbers, the rule for non-numbers applied first. -/
def lift (f : Format) (op : Value → Value → Nat) (a b : Nat) : Nat :=
  if f.isNaN a then f.quiet a else if f.isNaN b then f.quiet b else op (decode f a) (decode f b)

/-- A sign and a magnitude as an integer. -/
def signed (negative : Bool) (m : Nat) : Int := if negative then -(m : Int) else m

def addValue (f : Format) : Value → Value → Nat
  | .infinite s, .infinite t => if s = t then f.pattern s f.infinity else f.noNumber
  | .infinite s, _ => f.pattern s f.infinity
  | _, .infinite t => f.pattern t f.infinity
  | .finite s m q, .finite t n r =>
    let low := min q r
    let sum := signed s (m <<< (q - low).toNat) + signed t (n <<< (r - low).toNat)
    if sum = 0 then f.pattern (s && t) 0 else round f (sum < 0) sum.natAbs low
  | _, _ => f.noNumber

def mulValue (f : Format) : Value → Value → Nat
  | .infinite s, .infinite t => f.pattern (s ^^ t) f.infinity
  | .infinite s, .finite t n _ => if n = 0 then f.noNumber else f.pattern (s ^^ t) f.infinity
  | .finite s m _, .infinite t => if m = 0 then f.noNumber else f.pattern (s ^^ t) f.infinity
  | .finite s m q, .finite t n r => round f (s ^^ t) (m * n) (q + r)
  | _, _ => f.noNumber

/-- The quotient is taken to more places than the format keeps, and a remainder sets one more place, so that it
rounds as the exact quotient does. -/
def divValue (f : Format) : Value → Value → Nat
  | .infinite _, .infinite _ => f.noNumber
  | .infinite s, .finite t _ _ => f.pattern (s ^^ t) f.infinity
  | .finite s _ _, .infinite t => f.pattern (s ^^ t) 0
  | .finite s m q, .finite t n r =>
    if n = 0 then if m = 0 then f.noNumber else f.pattern (s ^^ t) f.infinity
    else
      let up := f.precision + 2 + n.log2
      let whole := (m <<< up) / n
      let sticky := if (m <<< up) % n = 0 then 0 else 1
      round f (s ^^ t) (2 * whole + sticky) (q - r - (up + 1 : Nat))
  | _, _ => f.noNumber

def add (f : Format) : Nat → Nat → Nat := lift f (addValue f)

def sub (f : Format) (a b : Nat) : Nat :=
  if f.isNaN a || f.isNaN b then lift f (addValue f) a b else add f a (f.negate b)

def mul (f : Format) : Nat → Nat → Nat := lift f (mulValue f)

def div (f : Format) : Nat → Nat → Nat := lift f (divValue f)

/-- The place of a number in the order; both zeros have the place zero. -/
def rank (f : Format) (n : Nat) : Int := signed (f.isNegative n) (f.magnitude n)

def eq (f : Format) (a b : Nat) : Bool := !f.isNaN a && !f.isNaN b && rank f a = rank f b

def lt (f : Format) (a b : Nat) : Bool := !f.isNaN a && !f.isNaN b && rank f a < rank f b

def le (f : Format) (a b : Nat) : Bool := !f.isNaN a && !f.isNaN b && rank f a ≤ rank f b

end JitBackend.Ieee
