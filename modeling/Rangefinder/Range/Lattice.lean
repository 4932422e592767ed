import Rangefinder.Range.Basic

/-!
# Refining and joining ranges

Operations that narrow a range to what a test or a representation proves about it, and the union
and intersection of two ranges. All of them keep the rules of ranges or report a fault.
-/

namespace Rangefinder.Range

/-- Raises the lower bound to at least `x`. -/
def atLeast (r : Range) (x : Int) : Except Fault Range :=
  if x ≤ r.hi then normalize { r with lower := some (max r.lo x) }
  else .error .crossedRefinement

/-- Lowers the upper bound to at most `x`. -/
def atMost (r : Range) (x : Int) : Except Fault Range :=
  if r.lo ≤ x then normalize { r with upper := some (min r.hi x) }
  else .error .crossedRefinement

/-- Takes over the numbers of another range, keeping the symbolic bounds; also tells whether
anything changed. -/
def update (r s : Range) : Except Fault (Range × Bool) :=
  if r.sameNumbers s then .ok (r, false)
  else do
    let r ← checked { s with symbolicLower := r.symbolicLower, symbolicUpper := r.symbolicUpper }
    return (r, true)

/-- The least range that covers two ranges. -/
def union (r s : Range) : Except Fault Range :=
  raw (min r.lo s.lo) (r.lower.isSome && s.lower.isSome) (max r.hi s.hi) (r.upper.isSome && s.upper.isSome)
    (r.fractional || s.fractional) (max r.exponent s.exponent)

/-- The range of an int32 value: endpoints as they are, fractions dropped. -/
def clipToInt32 (r : Range) : Except Fault Range :=
  if r.isInt32 then .ok r else r.setInt32 r.lo r.hi

/-- The range after reduction to int32: anything beyond int32 may become any int32. -/
def wrapToInt32 (r : Range) : Except Fault Range :=
  if r.isClosed then
    if r.fractional then normalize { r with fractional := false } else .ok r
  else r.setInt32 int32Min int32Max

/-- The range after reduction to a shift count below 32. -/
def wrapToShiftCount (r : Range) : Except Fault Range := do
  let r ← r.wrapToInt32
  if r.lo < 0 ∨ 32 ≤ r.hi then
    if Int.fdiv r.lo 32 = Int.fdiv r.hi 32 then r.setInt32 (r.lo % 32) (r.hi % 32)
    else r.setInt32 0 31
  else return r

/-- The range after reduction to a truth value. -/
def wrapToBoolean (r : Range) : Except Fault Range := do
  let r ← r.wrapToInt32
  if r.isBoolean then return r else r.setInt32 0 1

/-- The int32 reading of a uint32 range that is open above: numbers beyond int32 read as negative
ones, so the lower endpoint drops to the least int32. -/
def extendToNegative (r : Range) : Except Fault Range :=
  if r.upper.isSome then .error .boundedAbove
  else checked { r with lower := r.lower.map fun _ => int32Min }

/-- The range of an operand read as an int32. -/
def asInt32 (r : Range) : Except Fault Range := r.numeric.wrapToInt32

/-- The numbers in both ranges; nothing when the ranges provably share no number.

Ranges that lie apart may still share NaN, and two half-open ranges may close each other while
both hold NaN; in these cases the result is the range of all numbers. When only one range is
fractional, an exponent below that of int32 may say more than the endpoints. -/
def intersect (r s : Range) : Except Fault (Option Range) := do
  let lower := max r.lo s.lo
  let upper := min r.hi s.hi
  if upper < lower then
    return if r.canBeNaN && s.canBeNaN then some unknown else none
  else
    let bounded := r.lower.isSome || s.lower.isSome
    let boundedAbove := r.upper.isSome || s.upper.isSome
    let exponent := min r.exponent s.exponent
    if bounded && boundedAbove && exponent == nanExponent then return some unknown
    else
      let fractional := r.fractional && s.fractional
      let result (lower : Int) (bounded : Bool) (upper : Int) (boundedAbove : Bool) :
          Except Fault (Option Range) :=
        some <$> raw lower bounded upper boundedAbove fractional exponent
      if r.fractional != s.fractional && decide (exponent < int32Exponent) then
        let limit : Int := (pow2 (← fitShift (exponent + 1)) : Int) - 1
        let lower := max lower (← fitInt32 (-limit))
        let upper := min upper (← fitInt32 limit)
        if upper < lower then return none else result lower true upper true
      else
        result lower bounded upper boundedAbove

end Rangefinder.Range
