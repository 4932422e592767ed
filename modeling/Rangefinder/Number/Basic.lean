import Rangefinder.Int32

/-!
# Numbers

A number of the machine is NaN, an infinity, negative zero or a finite value. Finite values are
kept as exact rationals, so comparison and rounding to an integer are exact by construction; only
arithmetic that leaves the binary64 grid has to round, and that is the business of
`Rangefinder.Number.Arithmetic`.
-/

namespace Rangefinder

/-- A number: NaN, an infinity, negative zero, or a finite value (`finite 0` is positive zero). -/
inductive Number where
  | nan
  | negInf
  | posInf
  | negZero
  | finite (value : Rat)
deriving DecidableEq, Inhabited

/-- The integer nearest to a rational on the side of zero. -/
def truncate (x : Rat) : Int := Int.tdiv x.num x.den

/-- The distance of a rational from zero. -/
def magnitude (x : Rat) : Rat := if x < 0 then -x else x

/-- The integer nearest to the quotient of an integer and a positive one; of two equally near ones,
the even one. -/
def nearestQuotient (n : Int) (d : Nat) : Int :=
  let m := n / d
  let rest := 2 * (n % d)
  if rest < d then m
  else if d < rest then m + 1
  else if m % 2 = 0 then m else m + 1

/-- The integer nearest to a rational; of two equally near ones, the even one. -/
def nearestEven (x : Rat) : Int := nearestQuotient x.num x.den

namespace Number

/-- An integer as a number. -/
def ofInt (n : Int) : Number := finite n

/-- One for true and zero for false. -/
def ofBool (b : Bool) : Number := if b then ofInt 1 else ofInt 0

/-- Zero with the given sign. -/
def signedZero (negative : Bool) : Number := if negative then negZero else finite 0

/-- Infinity with the given sign. -/
def signedInf (negative : Bool) : Number := if negative then negInf else posInf

/-- The number is NaN. -/
def isNaN : Number → Bool
  | nan => true
  | _ => false

/-- The number is one of the infinities. -/
def isInfinite : Number → Bool
  | negInf | posInf => true
  | _ => false

/-- The value of a finite number; both zeros have the value 0. -/
def toRat? : Number → Option Rat
  | negZero => some 0
  | finite x => some x
  | _ => none

/-- The value of a finite number, and 0 for NaN and the infinities. -/
def toRat (a : Number) : Rat := a.toRat?.getD 0

/-- The sign bit: set for negative numbers and negative zero. -/
def signBit : Number → Bool
  | negInf | negZero => true
  | finite x => decide (x < 0)
  | _ => false

/-- A finite number without a fractional part. -/
def isIntegral : Number → Bool
  | negZero => true
  | finite x => x.den == 1
  | _ => false

/-- The number is below the other one; never with NaN on a side. -/
def lt : Number → Number → Bool
  | nan, _ | _, nan => false
  | _, negInf => false
  | negInf, _ => true
  | posInf, _ => false
  | _, posInf => true
  | a, b => decide (a.toRat < b.toRat)

/-- The two numbers are equal in value: NaN equals nothing and the two zeros are equal. -/
def equal : Number → Number → Bool
  | nan, _ | _, nan => false
  | negInf, negInf | posInf, posInf => true
  | negInf, _ | _, negInf | posInf, _ | _, posInf => false
  | a, b => decide (a.toRat = b.toRat)

/-- The number is below the other one or equal to it. -/
def le (a b : Number) : Bool := a.lt b || a.equal b

/-- The number counts as true: it is neither a zero nor NaN. -/
def isTruthy (a : Number) : Bool := !(a.isNaN || a.equal (finite 0))

/-- The number with the opposite sign. -/
def neg : Number → Number
  | nan => nan
  | negInf => posInf
  | posInf => negInf
  | negZero => finite 0
  | finite x => if x = 0 then negZero else finite (-x)

/-- The number without its sign. -/
def abs : Number → Number
  | negInf => posInf
  | negZero => finite 0
  | finite x => finite (magnitude x)
  | a => a

/-- The greatest integer not above the number. -/
def floor : Number → Number
  | finite x => finite x.floor
  | a => a

/-- The least integer not below the number; negative zero for a negative fraction of one. -/
def ceil : Number → Number
  | finite x => if x < 0 ∧ x.ceil = 0 then negZero else finite x.ceil
  | a => a

/-- The number without its fraction; negative zero for a negative fraction of one. -/
def trunc : Number → Number
  | finite x => if x < 0 ∧ truncate x = 0 then negZero else finite (truncate x)
  | a => a

/-- The nearest integer, halves going to the even one; a zero keeps the sign of the number. -/
def roundEven : Number → Number
  | finite x => if x < 0 ∧ nearestEven x = 0 then negZero else finite (nearestEven x)
  | a => a

/-- The number confined to the interval from `lo` to `hi`. -/
def clamp (a lo hi : Number) : Number :=
  if a.lt lo then lo else if hi.lt a then hi else a

/-- The number without its fraction as an integer from `lo` to `hi`, at the nearest of the two when
it is out of reach; zero for NaN. -/
def toIntWithin (lo hi : Int) : Number → Int
  | negInf => lo
  | posInf => hi
  | finite x => max lo (min hi (truncate x))
  | _ => 0

/-- The number without its fraction as a signed 64-bit integer, at the nearest limit when it is
out of reach; zero for NaN. -/
def toInt64 : Number → Int := toIntWithin (-9223372036854775808) 9223372036854775807

/-- The smaller of two numbers, NaN when one of them is NaN. -/
def minimum (a b : Number) : Number :=
  if a.isNaN || b.isNaN then nan else if b.lt a then b else a

/-- The greater of two numbers, NaN when one of them is NaN. -/
def maximum (a b : Number) : Number :=
  if a.isNaN || b.isNaN then nan else if a.lt b then b else a

end Number

end Rangefinder
