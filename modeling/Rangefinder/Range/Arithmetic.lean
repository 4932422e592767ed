import Rangefinder.Range.Lattice

/-!
# Ranges of arithmetic results

For each arithmetic operation, the range of its results in terms of the ranges of its operands.
-/

namespace Rangefinder.Range

/-- The result of an operation on two bounds, or the given sentinel when one of them is missing. -/
def onBounds (op : Int → Int → Int) (absent : Int) (x y : Option Int) : Except Fault Int :=
  match x, y with
  | some a, some b => fitInt64 (op a b)
  | _, _ => .ok absent

/-- The exponent of a sum or difference: a carry adds at most one bit, and infinities may cancel
to NaN. -/
def sumExponent (r s : Range) : Except Fault Nat :=
  if r.canBeNonFinite && s.canBeNonFinite then .ok nanExponent
  else
    let e := max r.exponent s.exponent
    if e ≤ maxFiniteExponent then fitUint16 (e + 1) else .ok e

/-- The range of a sum. -/
def add (r s : Range) : Except Fault Range := do
  between (← onBounds (· + ·) noLowerBound r.lower s.lower)
    (← onBounds (· + ·) noUpperBound r.upper s.upper)
    (r.fractional || s.fractional) (← sumExponent r s)

/-- The range of a difference. -/
def sub (r s : Range) : Except Fault Range := do
  between (← onBounds (· - ·) noLowerBound r.lower s.upper)
    (← onBounds (· - ·) noUpperBound r.upper s.lower)
    (r.fractional || s.fractional) (← sumExponent r s)

/-- The exponent of a product: the bits of the factors add up, and only a zero times an infinity
is a new NaN. -/
def productExponent (r s : Range) : Except Fault Nat :=
  if !r.canBeNonFinite && !s.canBeNonFinite then do
    let e := (← fitUint16 ((← r.bits) + (← s.bits))) - 1
    return if maxFiniteExponent < e then infinityExponent else e
  else if !r.canBeNaN && !s.canBeNaN && !(r.canBeZero && s.canBeNonFinite) &&
      !(s.canBeZero && r.canBeNonFinite) then
    return infinityExponent
  else
    return nanExponent

/-- The least and the greatest product of a number between `a` and `b` and one between `c` and
`d`. -/
def productBounds (a b c d : Int) : Except Fault (Int × Int) := do
  if 0 ≤ a ∧ 0 ≤ c then return (← fitInt64 (a * c), ← fitInt64 (b * d))
  else if b ≤ 0 ∧ d ≤ 0 then return (← fitInt64 (b * d), ← fitInt64 (a * c))
  else if 0 ≤ a ∧ d ≤ 0 then return (← fitInt64 (b * c), ← fitInt64 (a * d))
  else if b ≤ 0 ∧ 0 ≤ c then return (← fitInt64 (a * d), ← fitInt64 (b * c))
  else
    let w ← fitInt64 (a * c)
    let x ← fitInt64 (a * d)
    let y ← fitInt64 (b * c)
    let z ← fitInt64 (b * d)
    return (min (min w x) (min y z), max (max w x) (max y z))

/-- The range of a product. -/
def mul (r s : Range) : Except Fault Range := do
  let fractional := r.fractional || s.fractional
  let exponent ← productExponent r s
  if r.isClosed && s.isClosed then
    let (l, h) ← productBounds r.lo r.hi s.lo s.hi
    between l h fractional exponent
  else
    between noLowerBound noUpperBound fractional exponent

/-- A product of integers of the two ranges may be negative zero. -/
def mayMulToNegativeZero (r s : Range) : Bool :=
  !((decide (0 ≤ r.lo) && decide (0 ≤ s.lo)) || (decide (r.hi < 0) && decide (s.hi < 0)) ||
    decide (0 < r.lo) || decide (0 < s.lo))

/-- The range of a quotient, which is an integer when `integral` is set. A divisor of magnitude
at least one never moves the dividend away from zero; with other divisors, or open operands,
nothing is known. -/
def div (r s : Range) (integral : Bool) : Except Fault Range :=
  if r.isClosed && s.isClosed then do
    let exponent ← (if integral then pure int32Exponent else r.finiteExponent)
    if 1 ≤ s.lo then between (min r.lo 0) (max r.hi 0) (!integral) exponent
    else if s.hi ≤ -1 then
      between (min (← fitInt64 (-r.hi)) 0) (max (← fitInt64 (-r.lo)) 0) (!integral) exponent
    else return unknown
  else .ok unknown

/-- The greatest magnitude of an endpoint. -/
def endpointMagnitude (r : Range) : Except Fault Int :=
  return max (← fitInt64 r.lo.natAbs) (← fitInt64 r.hi.natAbs)

/-- The range of a remainder with the sign of the dividend: its magnitude is at most that of the
dividend and below that of the divisor. -/
def mod (r s : Range) : Except Fault Range :=
  if r.isClosed && s.isClosed && !s.canBeZero then do
    let greatest ← s.endpointMagnitude
    let divisor ← (if r.fractional || s.fractional then pure greatest else fitInt64 (greatest - 1))
    let bound := min (← r.endpointMagnitude) divisor
    let lower ← (if 0 ≤ r.lo then pure 0 else fitInt64 (-bound))
    between lower (if r.hi ≤ 0 then 0 else bound)
      (r.fractional || s.fractional) (min (← r.finiteExponent) (← s.finiteExponent))
  else .ok unknown

/-- The negated endpoint, the greatest int32 in place of the one that is too great. -/
def negateEndpoint (n : Int) : Except Fault Int :=
  if n = int32Min then .ok int32Max else fitInt32 (-n)

/-- The range of an absolute value. The least int32 has no positive counterpart in int32, so a
range that reaches it is open above afterwards. -/
def abs (r : Range) : Except Fault Range := do
  raw (max (max 0 r.lo) (← negateEndpoint r.hi)) true (max (max 0 r.hi) (← negateEndpoint r.lo))
    (r.isClosed && decide (r.lo ≠ int32Min)) r.fractional r.exponent

/-- The range of the smaller of two numbers. -/
def minimum (r s : Range) : Except Fault Range :=
  if r.canBeNaN || s.canBeNaN then .ok unknown
  else
    raw (min r.lo s.lo) (r.lower.isSome && s.lower.isSome) (min r.hi s.hi) (r.upper.isSome || s.upper.isSome)
      (r.fractional || s.fractional) (max r.exponent s.exponent)

/-- The range of the greater of two numbers. -/
def maximum (r s : Range) : Except Fault Range :=
  if r.canBeNaN || s.canBeNaN then .ok unknown
  else
    raw (max r.lo s.lo) (r.lower.isSome || s.lower.isSome) (max r.hi s.hi) (r.upper.isSome && s.upper.isSome)
      (r.fractional || s.fractional) (max r.exponent s.exponent)

/-- The range of a number rounded to an integer in either direction. The endpoints are integers
already; on an open side the magnitude may still grow by one. -/
def rounded (r : Range) : Except Fault Range := do
  let exponent ←
    (if r.isClosed then pure r.impliedExponent
    else if r.fractional && decide (r.exponent < maxFiniteExponent) then fitUint16 (r.exponent + 1)
    else pure r.exponent)
  checked { r.numeric with fractional := false, exponent := exponent }

/-- The least integer whose square is at least `n`. -/
def ceilSqrt (n : Nat) : Nat := if n.sqrt * n.sqrt = n then n.sqrt else n.sqrt + 1

/-- The range of a square root; below zero, and for NaN, nothing is known. -/
def sqrt (r : Range) : Except Fault Range :=
  if r.lo < 0 ∨ r.canBeNaN = true then .ok unknown
  else
    between 0 ((r.upper.map fun h => (ceilSqrt h.toNat : Int)).getD noUpperBound) true r.exponent

end Rangefinder.Range
