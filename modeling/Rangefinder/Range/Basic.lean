import Rangefinder.Fault
import Rangefinder.Number.Rounding

/-!
# Numeric ranges

A range describes the numbers that a value may take. It keeps an int32 bound on each side where
there is one, whether fractions are possible, and an exponent: every finite number of the range
lies strictly between -2^(e+1) and 2^(e+1). Two exponents beyond the finite ones say that the
infinities, or the infinities and NaN, belong to the range as well.

A side without a bound is open; the matching int32 limit stands in for its endpoint. A range that
has passed `Range.normalize` satisfies `Range.WellFormed` and has the tightest exponent that its
int32 bounds imply. Operations that compute an endpoint and, apart from it, whether it is a bound hand
both to `Range.raw`, which refuses an endpoint that is no bound and not the limit either.
-/

namespace Rangefinder

/-- The exponent of the int32 numbers of greatest magnitude. -/
def int32Exponent : Nat := 31

/-- From this exponent on, arithmetic on integral numbers may round. -/
def roundingExponent : Nat := 52

/-- The greatest exponent of a finite number. -/
def maxFiniteExponent : Nat := 1023

/-- The exponent of a range that holds infinities but not NaN. -/
def infinityExponent : Nat := 1024

/-- The exponent of a range that holds infinities and NaN. -/
def nanExponent : Nat := 65535

/-- An endpoint below every int32; it stands for no lower bound. -/
def noLowerBound : Int := int32Min - 1

/-- An endpoint above every int32; it stands for no upper bound. -/
def noUpperBound : Int := int32Max + 1

/-- What is known of a numeric value. -/
structure Range where
  /-- The greatest known int32 below all finite numbers of the range. -/
  lower : Option Int
  /-- The least known int32 above all finite numbers of the range. -/
  upper : Option Int
  /-- Numbers with a fractional part are possible. -/
  fractional : Bool
  /-- The bound on the magnitude, or one of the two exponents beyond the finite ones. -/
  exponent : Nat
  /-- The symbolic lower bound, an entry of the arena of the analysis. -/
  symbolicLower : Option Nat
  /-- The symbolic upper bound, an entry of the arena of the analysis. -/
  symbolicUpper : Option Nat
deriving DecidableEq

namespace Range

/-- The lower endpoint, the least int32 on an open side. -/
def lo (r : Range) : Int := r.lower.getD int32Min

/-- The upper endpoint, the greatest int32 on an open side. -/
def hi (r : Range) : Int := r.upper.getD int32Max

/-- The range has an int32 bound on both sides. -/
def isClosed (r : Range) : Bool := r.lower.isSome && r.upper.isSome

/-- The exponent of the endpoint of greater magnitude. -/
def impliedExponent (r : Range) : Nat := (max r.lo.natAbs r.hi.natAbs).log2

/-- The rules that every range obeys: its endpoints are int32 values in order, an open side leaves
room for numbers beyond int32, and the exponent is meaningful and covers the endpoints. -/
def WellFormed (r : Range) : Prop :=
  int32Min ≤ r.lo ∧ r.lo ≤ r.hi ∧ r.hi ≤ int32Max ∧
  (r.isClosed = true ∨ int32Exponent ≤ r.exponent) ∧
  (r.exponent ≤ maxFiniteExponent ∨ r.exponent = infinityExponent ∨ r.exponent = nanExponent) ∧
  r.hi.natAbs.log2 ≤ r.exponent ∧
  r.lo.natAbs.log2 ≤ r.exponent

instance (r : Range) : Decidable r.WellFormed := inferInstanceAs (Decidable (_ ∧ _))

/-- The range itself, or a fault when it breaks the rules of ranges. -/
def checked (r : Range) : Except Fault Range :=
  if r.WellFormed then .ok r else .error .invalidRange

/-- Checking a range returns it exactly when it obeys the rules. -/
theorem checked_eq_ok {r s : Range} : r.checked = .ok s ↔ r.WellFormed ∧ r = s := by
  unfold checked
  split <;> simp_all

/-- Tightens what int32 bounds on both sides imply: the exponent, and that a single point is an
integer. -/
def tighten (r : Range) : Range :=
  if r.isClosed then
    { r with
      exponent := min r.impliedExponent r.exponent
      fractional := r.fractional && decide (r.lo ≠ r.hi) }
  else r

/-- The tightened range, or a fault when it breaks the rules of ranges. -/
def normalize (r : Range) : Except Fault Range := r.checked.map tighten

/-- An endpoint as a bound, or a fault when it is to be none and is not the limit that stands in for it. -/
def boundOf (endpoint : Int) (isBound : Bool) (limit : Int) : Except Fault (Option Int) :=
  if isBound then .ok (some endpoint) else if endpoint = limit then .ok none else .error .invalidRange

/-- The range with the given endpoints, each with whether it is a bound. -/
def raw (lower : Int) (bounded : Bool) (upper : Int) (boundedAbove fractional : Bool) (exponent : Nat) :
    Except Fault Range := do
  normalize ⟨← boundOf lower bounded int32Min, ← boundOf upper boundedAbove int32Max, fractional, exponent,
    none, none⟩

/-- A lower endpoint as an int32 bound: none below int32, the greatest int32 above it. -/
def lowerBound (x : Int) : Option Int :=
  if int32Max < x then some int32Max else if x < int32Min then none else some x

/-- An upper endpoint as an int32 bound: none above int32, the least int32 below it. -/
def upperBound (x : Int) : Option Int :=
  if int32Max < x then none else if x < int32Min then some int32Min else some x

/-- Replaces the numeric part of a range; an open side raises the exponent to that of int32. -/
def set (r : Range) (l h : Int) (fractional : Bool) (exponent : Nat) : Except Fault Range :=
  let bounded := { r with lower := lowerBound l, upper := upperBound h, fractional := fractional }
  normalize { bounded with
    exponent := if bounded.isClosed then exponent else max exponent int32Exponent }

/-- The range between two endpoints; an endpoint outside int32 leaves its side open. -/
def between (l h : Int) (fractional : Bool) (exponent : Nat) : Except Fault Range :=
  set ⟨none, none, fractional, exponent, none, none⟩ l h fractional exponent

/-- The range that holds every number. -/
def unknown : Range := ⟨none, none, true, nanExponent, none, none⟩

/-- The int32 values between two endpoints. -/
def int32 (l h : Int) : Except Fault Range := between l h false int32Exponent

/-- The uint32 values between two endpoints. -/
def uint32 (l h : Int) : Except Fault Range := between l h false int32Exponent

/-- The numbers between two endpoints, fractions included. -/
def double (l h : Int) (exponent : Nat) : Except Fault Range := between l h true exponent

/-- The range of one integer, open where the integer is outside int32. -/
def single (n : Int) : Except Fault Range := between n n false nanExponent

/-- The range of every int32. -/
def anyInt32 : Range := ⟨some int32Min, some int32Max, false, int32Exponent, none, none⟩

/-- The range of the two truth values. -/
def anyBoolean : Range := ⟨some 0, some 1, false, 0, none, none⟩

/-- The exponent of a finite value, with everything below one at exponent zero. -/
def exponentOf (x : Rat) : Nat :=
  if magnitude x < 1 then 0 else min (magnitude x).floor.toNat.log2 maxFiniteExponent

/-- The exponent that the endpoints of a constant or an interval demand; beyond uint32 the
endpoints demand no more than uint32 does. -/
def endpointExponent (l h : Int) : Nat := (min (max l.natAbs h.natAbs) 4294967295).log2

/-- The range of one number. -/
def ofNumber : Number → Except Fault Range
  | .nan => .ok unknown
  | .posInf => between noUpperBound noUpperBound false infinityExponent
  | .negInf => between noLowerBound noLowerBound false infinityExponent
  | .negZero => between 0 0 false 0
  | .finite x =>
    between x.floor x.ceil (x.den != 1)
      (max (exponentOf x) (endpointExponent x.floor x.ceil))

/-- The exponent of an interval's end. -/
def endExponent : Number → Nat
  | .nan => nanExponent
  | .posInf | .negInf => infinityExponent
  | .negZero => 0
  | .finite x => exponentOf x

/-- An end of an interval moved to an integer by `rounding`, or to the matching sentinel when it
lies beyond int32; NaN sets no bound and yields `absent`. -/
def endpointOf (rounding : Rat → Int) (absent : Int) : Number → Int
  | .nan => absent
  | .posInf => noUpperBound
  | .negInf => noLowerBound
  | .negZero => 0
  | .finite x => max noLowerBound (min noUpperBound (rounding x))

/-- The range of all numbers between two numbers. It never holds NaN unless an end is NaN. -/
def betweenNumbers (l h : Number) : Except Fault Range :=
  let lower := endpointOf Rat.floor noLowerBound l
  let upper := endpointOf Rat.ceil noUpperBound h
  let le := endExponent l
  let he := endExponent h
  let crossesZero := (l.isNaN || l.lt (.ofInt 0)) && (h.isNaN || (Number.ofInt 0).lt h)
  between lower upper (crossesZero || decide (min le he < roundingExponent))
    (max (max le he) (endpointExponent lower upper))

/-- Makes the whole int32 interval between two endpoints of a range, keeping its symbolic
bounds. -/
def setInt32 (r : Range) (l h : Int) : Except Fault Range :=
  checked { r with
    lower := some l, upper := some h, fractional := false
    exponent := (max l.natAbs h.natAbs).log2 }

/-- Adds NaN to a range that is open on a side; a closed range cannot hold NaN. -/
def withNaN (r : Range) : Range := if r.isClosed then r else { r with exponent := nanExponent }

/-- The range without its symbolic bounds. -/
def numeric (r : Range) : Range := { r with symbolicLower := none, symbolicUpper := none }

/-- The two ranges describe the same numbers; symbolic bounds are left aside. -/
def sameNumbers (r s : Range) : Bool := r.numeric == s.numeric

/-- All numbers of the range are int32. -/
def isInt32 (r : Range) : Bool := r.isClosed && !r.fractional

/-- All numbers of the range are zero or one. -/
def isBoolean (r : Range) : Bool := decide (0 ≤ r.lo) && decide (r.hi ≤ 1) && !r.fractional

/-- Arithmetic that ends in this range may have rounded. -/
def mayRound (r : Range) : Bool := r.fractional || decide (roundingExponent ≤ r.exponent)

/-- Zero lies between the endpoints. -/
def canBeZero (r : Range) : Bool := decide (r.lo ≤ 0) && decide (0 ≤ r.hi)

/-- NaN belongs to the range. -/
def canBeNaN (r : Range) : Bool := r.exponent == nanExponent

/-- An infinity or NaN may belong to the range. -/
def canBeNonFinite (r : Range) : Bool := decide (infinityExponent ≤ r.exponent)

/-- All numbers of the range are finite and negative. -/
def isNegative (r : Range) : Bool := decide (r.hi < 0) && !r.canBeNonFinite

/-- All numbers of the range are finite and not negative. -/
def isNonNegative (r : Range) : Bool := decide (0 ≤ r.lo) && !r.canBeNonFinite

/-- A finite negative number is possible. -/
def canBeNegative (r : Range) : Bool := decide (r.lo < 0)

/-- A finite number that is not negative is possible. -/
def canBeNonNegative (r : Range) : Bool := decide (0 ≤ r.hi)

/-- The range holds every number. -/
def isUnknown (r : Range) : Bool :=
  r.lower.isNone && r.upper.isNone && r.fractional && r.exponent == nanExponent

/-- The range holds every int32 and nothing else. -/
def isAnyInt32 (r : Range) : Bool :=
  r.isInt32 && decide (r.lo = int32Min) && decide (r.hi = int32Max)

/-- The exponent of a range of finite numbers. -/
def finiteExponent (r : Range) : Except Fault Nat :=
  if r.canBeNonFinite then .error .infiniteExponent else .ok r.exponent

/-- The number of bits of a range of finite numbers. -/
def bits (r : Range) : Except Fault Nat := do fitUint16 ((← r.finiteExponent) + 1)

/-- The number belongs to the range. -/
def contains (r : Range) : Number → Bool
  | .nan => r.canBeNaN
  | .posInf => r.canBeNonFinite && r.upper.isNone
  | .negInf => r.canBeNonFinite && r.lower.isNone
  | .negZero => holds r 0
  | .finite x => holds r x
where
  /-- A finite value belongs to the range. -/
  holds (r : Range) (x : Rat) : Bool :=
    r.lower.all (fun l : Int => decide ((l : Rat) ≤ x)) &&
    r.upper.all (fun h : Int => decide (x ≤ (h : Rat))) &&
    (r.fractional || x.den == 1) &&
    (r.canBeNonFinite || decide (magnitude x < (pow2 (r.exponent + 1) : Int)))

end Range

end Rangefinder
