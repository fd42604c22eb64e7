import JitBackend.Ieee

/-!
# Shortest decimals

The decimal with the fewest digits that lies within the interval of reals that round to a given binary number, the
nearest of those, of two equally near the greater one. Written positionally, without an exponent.
-/

namespace JitBackend.Decimal

open Ieee

/-- The reals that round to a number, in units of `2 ^ q / 4`: the number itself and the two ends, which belong to it
when `closed`. -/
structure Neighbourhood where
  low : Nat
  mid : Nat
  high : Nat
  q : Int
  closed : Bool

/-- The neighbourhood of `m · 2 ^ q`. Below a power of two the next number is half as far away. -/
def neighbourhood (f : Format) (m : Nat) (q : Int) : Neighbourhood :=
  let narrow := m = 1 <<< f.fractionBits ∧ f.leastExponent < q
  { low := 4 * m - (if narrow then 1 else 2), mid := 4 * m, high := 4 * m + 2, q := q - 2, closed := m % 2 = 0 }

/-- The power `10 ^ n`. -/
def tens (n : Nat) : Nat := Nat.pow 10 n

/-- `a · 2 ^ q` as a fraction in units of `10 ^ e`. -/
def inUnits (a : Nat) (q e : Int) : Nat × Nat :=
  ((a * tens (-e).toNat) <<< q.toNat, tens e.toNat <<< (-q).toNat)

/-- Whether `d · 10 ^ e` lies in the neighbourhood. -/
def Neighbourhood.contains (n : Neighbourhood) (d : Nat) (e : Int) : Bool :=
  let (low, den) := inUnits n.low n.q e
  let (high, _) := inUnits n.high n.q e
  if n.closed then low ≤ d * den && d * den ≤ high else low < d * den && d * den < high

/-- The number nearest to the middle among the two neighbours on the grid of multiples of `10 ^ e` that lie in the
neighbourhood. -/
def Neighbourhood.onGrid (n : Neighbourhood) (e : Int) : Option Nat :=
  let (mid, den) := inUnits n.mid n.q e
  let below := mid / den
  match n.contains below e, n.contains (below + 1) e with
  | true, true => some (if 2 * (mid % den) < den then below else below + 1)
  | true, false => some below
  | false, true => some (below + 1)
  | false, false => none

/-- The first hit on grids from `10 ^ e` downwards, over `steps` grids; the last grid always has one. -/
def Neighbourhood.search (n : Neighbourhood) : Nat → Int → Nat × Int
  | 0, e => ((inUnits n.mid n.q e).1 / (inUnits n.mid n.q e).2, e)
  | steps + 1, e =>
    match n.onGrid e with
    | some d => (d, e)
    | none => n.search steps (e - 1)

/-- The number of decimal digits before the point of `m · 2 ^ q`, negative when zeros follow the point. -/
def leadingPlace (m : Nat) (q : Int) : Int :=
  let (num, den) := inUnits m q 0
  if den ≤ num then (Nat.toDigits 10 (num / den)).length
  else
    -- `den / num` has `k` digits: the first digit stands `k` places behind the point, or one more
    let k := (Nat.toDigits 10 (den / num)).length
    if den ≤ num * tens (k - 1) then 2 - (k : Int) else 1 - (k : Int)

/-- Digits `d` and exponent `e` of the shortest decimal `d · 10 ^ e` for `m · 2 ^ q`. -/
def shortest (f : Format) (m : Nat) (q : Int) : Nat × Int :=
  (neighbourhood f m q).search (f.precision + 2) (leadingPlace m q - 1)

/-- Removes the zeros at the end of a list of digits, counting them. -/
def trimZeros (digits : List Char) : List Char × Nat :=
  let zeros := digits.reverse.takeWhile (· = '0')
  ((digits.reverse.drop zeros.length).reverse, zeros.length)

/-- `d · 10 ^ e` written positionally. -/
def positional (d : Nat) (e : Int) : String :=
  let (digits, zeros) := trimZeros (Nat.toDigits 10 d)
  let e := e + zeros
  let point := digits.length + e
  if 0 ≤ e then String.ofList (digits ++ List.replicate e.toNat '0')
  else if 0 < point then String.ofList (digits.take point.toNat ++ '.' :: digits.drop point.toNat)
  else String.ofList ('0' :: '.' :: List.replicate (-point).toNat '0' ++ digits)

/-- The text of a number without its sign. -/
def magnitudeText (f : Format) (n : Nat) : String :=
  match decode f n with
  | .nan _ => "NaN"
  | .infinite _ => "inf"
  | .finite _ m q => if m = 0 then "0" else let (d, e) := shortest f m q; positional d e

/-- The text of a number. A non-number has no sign; a negative zero has one. -/
def text (f : Format) (n : Nat) : String :=
  if f.isNegative n && !f.isNaN n then "-" ++ magnitudeText f n else magnitudeText f n

/-- The text of a number with its sign, also where that is a plus. -/
def signedText (f : Format) (n : Nat) : String :=
  if f.isNegative n || f.isNaN n then text f n else "+" ++ text f n

end JitBackend.Decimal
