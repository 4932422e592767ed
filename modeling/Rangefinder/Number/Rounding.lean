import Rangefinder.Number.Basic

/-!
# Rounding to a binary floating-point format

A binary format keeps the integer multiples `m * 2^q` with at most `precision` bits in `m` and
`q` not below `minExponent`. `BinaryFormat.round` sends an exact rational to the nearest of
them, halves going to the even multiple, and to an infinity from the overflow threshold on.
-/

namespace Rangefinder

/-- A rational times a power of two with any integer exponent. -/
def scalePow2 (x : Rat) : Int → Rat
  | .ofNat k => x * (pow2 k : Int)
  | .negSucc k => x / (pow2 (k + 1) : Int)

/-- The rational `m * 2^q`. -/
def ofBinary (m : Int) : Int → Rat
  | .ofNat k => ((m * pow2 k : Int) : Rat)
  | .negSucc k => mkRat m (pow2 (k + 1))

/-- The integer `m` for which `m * 2^q` is nearest to a rational; of two equally near ones, the even
one. -/
def nearestMultiple (x : Rat) : Int → Int
  | .ofNat k => nearestQuotient x.num (x.den * pow2 k)
  | .negSucc k => nearestQuotient (x.num * pow2 (k + 1)) x.den

/-- The exponent of the greatest power of two not above the magnitude of a rational other than 0. -/
def floorLog2 (x : Rat) : Int :=
  let n := x.num.natAbs
  let k : Int := (n.log2 : Int) - (x.den.log2 : Int)
  let covered : Bool := match k with
    | .ofNat j => decide (x.den * pow2 j ≤ n)
    | .negSucc j => decide (x.den ≤ n * pow2 (j + 1))
  if covered then k else k - 1

/-- A binary floating-point format. -/
structure BinaryFormat where
  /-- The number of bits of a significand. -/
  precision : Nat
  /-- The exponent of the least positive value. -/
  minExponent : Int
  /-- The exponent of the least power of two that is too large to be finite. -/
  overflowExponent : Int

namespace BinaryFormat

/-- The double precision format. -/
def binary64 : BinaryFormat := ⟨53, -1074, 1024⟩

/-- The single precision format. -/
def binary32 : BinaryFormat := ⟨24, -149, 128⟩

/-- The exponent of the grid on which values of the magnitude of a rational other than 0 are
kept. -/
def gridExponent (f : BinaryFormat) (x : Rat) : Int :=
  max (floorLog2 x + 1 - f.precision) f.minExponent

/-- The number of the format nearest to a rational. Integers of at most `precision` bits are
kept as they are, which needs no search for their grid. -/
def round (f : BinaryFormat) (x : Rat) : Number :=
  if x.den = 1 ∧ x.num.natAbs ≤ pow2 f.precision then .finite x
  else
    let q := f.gridExponent x
    let m := nearestMultiple x q
    if m = 0 then .signedZero (decide (x.num < 0))
    else if f.overflowExponent ≤ (m.natAbs.log2 : Int) + q then .signedInf (decide (x.num < 0))
    else .finite (ofBinary m q)

/-- The number of the format nearest to the square root of a positive rational. -/
def roundSqrt (f : BinaryFormat) (x : Rat) : Number :=
  let q := Int.fdiv (floorLog2 x) 2 + 1 - f.precision
  let y := scalePow2 x (-2 * q)
  let n := y.floor.toNat.sqrt
  let up := decide (((2 * n + 1) * (2 * n + 1) : Nat) * y.den < 4 * y.num.natAbs)
  .finite (ofBinary (if up then (n : Int) + 1 else (n : Int)) q)

end BinaryFormat

end Rangefinder
