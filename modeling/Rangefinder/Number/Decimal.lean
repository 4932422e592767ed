import Rangefinder.Number.Rounding

/-!
# Shortest decimal text of a number

A finite number is written with the fewest significant digits that still read back as the same
binary64 number; among candidates of that length the nearest one is taken, and of two equally
near ones the greater. The notation is always positional: there is no exponent mark, and an
integral value has no decimal point.
-/

namespace Rangefinder.Number

/-- A positive decimal `digits * 10^exponent`. -/
structure Decimal where
  digits : Nat
  exponent : Int

/-- The `k`-th power of ten as a rational, for any integer `k`. -/
def pow10 : Int → Rat
  | .ofNat k => ((Nat.pow 10 k : Nat) : Int)
  | .negSucc k => 1 / ((Nat.pow 10 (k + 1) : Nat) : Int)

/-- The exponent of the least power of ten above a positive rational. -/
def decimalPoint (x : Rat) : Int :=
  if 1 ≤ x then ((Nat.toDigits 10 x.floor.toNat).length : Int)
  else
    let d : Int := ((Nat.toDigits 10 (1 / x).floor.toNat).length : Int)
    if x = pow10 (1 - d) then 2 - d else 1 - d

/-- The numbers that round to a given positive number, as distances below and above it; the
ends belong to them when `closed` is set. -/
structure RoundingGap where
  below : Rat
  above : Rat
  closed : Bool

/-- The rounding gap of a positive binary64 value: half a grid step on both sides, and half of
that below a power of two, where the grid gets finer. -/
def roundingGap (x : Rat) : RoundingGap :=
  let q := BinaryFormat.binary64.gridExponent x
  let m := (scalePow2 x (-q)).floor.toNat
  let half := scalePow2 1 (q - 1)
  { below := if m = 4503599627370496 then half / 2 else half
    above := half
    closed := m % 2 == 0 }

/-- The decimal of `n` digits that reads back as `x`, if there is one: of the two neighbours of
`x` on the grid of `n` digits the one that lies in the rounding gap, the nearer one if both do. -/
def decimalOfLength? (x : Rat) (gap : RoundingGap) (point : Int) (n : Nat) : Option Decimal :=
  let e := point - n
  let unit := pow10 e
  let d := (x / unit).floor.toNat
  let under := x - (d : Int) * unit
  let excess := unit - under
  let within (distance limit : Rat) : Bool :=
    decide (distance < limit) || (gap.closed && decide (distance = limit))
  match within under gap.below, within excess gap.above with
  | true, true => if excess ≤ under then some ⟨d + 1, e⟩ else some ⟨d, e⟩
  | true, false => some ⟨d, e⟩
  | false, true => some ⟨d + 1, e⟩
  | false, false => none

/-- The shortest decimal of a positive binary64 value; seventeen digits always suffice. -/
def shortestDecimal (x : Rat) : Decimal :=
  let gap := roundingGap x
  let point := decimalPoint x
  ((List.range 17).findSome? fun n => decimalOfLength? x gap point (n + 1)).getD ⟨0, 0⟩

/-- Positional text of a decimal, without trailing zeros after the point. -/
def Decimal.positional (d : Decimal) : String :=
  let digits := (Nat.toDigits 10 d.digits)
  match d.exponent with
  | .ofNat k => String.ofList (digits ++ List.replicate k '0')
  | .negSucc k =>
    let places := k + 1
    let padded := List.replicate (places + 1 - digits.length) '0' ++ digits
    let whole := padded.take (padded.length - places)
    let fraction := ((padded.drop (padded.length - places)).reverse.dropWhile (· == '0')).reverse
    if fraction.isEmpty then String.ofList whole
    else String.ofList (whole ++ '.' :: fraction)

/-- Decimal text of a number. -/
def toText : Number → String
  | nan => "NaN"
  | posInf => "inf"
  | negInf => "-inf"
  | negZero => "-0"
  | finite x =>
    if x = 0 then "0"
    else
      let text := (shortestDecimal (magnitude x)).positional
      if x < 0 then "-" ++ text else text

end Rangefinder.Number
