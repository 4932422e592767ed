import Rangefinder.Range.Lattice

/-!
# Ranges of bitwise results

Bitwise operations read their operands as int32, so each range below first reduces the ranges of
the operands to int32.
-/

namespace Rangefinder.Range

/-- The range of a bitwise conjunction. It is bounded by every operand that is not negative. -/
def and (r s : Range) : Except Fault Range := do
  let r ← r.asInt32
  let s ← s.asInt32
  if r.lo < 0 ∧ s.lo < 0 then int32 int32Min (max r.hi s.hi)
  else int32 0 (if s.lo < 0 then r.hi else if r.lo < 0 then s.hi else min r.hi s.hi)

/-- The least int32 with the leading ones that every int32 from a negative `l` up to -1 has. -/
def leadingOnes (l : Int) : Except Fault Int := return Word.not (← coveringMask (Word.not l).toNat)

/-- The range of a bitwise disjunction. Disjunction with 0 or -1 is exact; otherwise leading zeros
that both operands share survive, and so do leading ones of either. -/
def or (r s : Range) : Except Fault Range := do
  let r ← r.asInt32
  let s ← s.asInt32
  if r.lo = r.hi ∧ r.lo = 0 then return s
  else if r.lo = r.hi ∧ r.lo = -1 then return r
  else if s.lo = s.hi ∧ s.lo = 0 then return r
  else if s.lo = s.hi ∧ s.lo = -1 then return s
  else if 0 ≤ r.lo ∧ 0 ≤ s.lo then
    int32 (max r.lo s.lo) (← coveringMask (max r.hi s.hi).toNat)
  else
    let fromLeft ← (if r.hi < 0 then leadingOnes r.lo else pure int32Min)
    let fromRight ← (if s.hi < 0 then leadingOnes s.lo else pure int32Min)
    int32 (max fromLeft fromRight) (if r.hi < 0 ∨ s.hi < 0 then -1 else int32Max)

/-- The endpoints of an exclusive disjunction of a number between `a` and `b` and one between `c`
and `d`, where no interval is wholly negative. -/
def xorBounds (a b c d : Int) : Except Fault (Int × Int) := do
  if a = 0 ∧ b = 0 then return (c, d)
  else if c = 0 ∧ d = 0 then return (a, b)
  else if 0 ≤ a ∧ 0 ≤ c then
    let right := Nat.lor d.toNat (← coveringMask b.toNat)
    let left := Nat.lor b.toNat (← coveringMask d.toNat)
    return (0, (min right left : Nat))
  else return (int32Min, int32Max)

/-- The range of a bitwise exclusive disjunction. A negative operand is complemented, and the
result is complemented back for each operand that was. -/
def xor (r s : Range) : Except Fault Range := do
  let r ← r.asInt32
  let s ← s.asInt32
  let (a, b) := if r.hi < 0 then (Word.not r.hi, Word.not r.lo) else (r.lo, r.hi)
  let (c, d) := if s.hi < 0 then (Word.not s.hi, Word.not s.lo) else (s.lo, s.hi)
  let (l, h) ← xorBounds a b c d
  if decide (r.hi < 0) != decide (s.hi < 0) then int32 (Word.not h) (Word.not l) else int32 l h

/-- The range of a bitwise complement. -/
def not (r : Range) : Except Fault Range := do
  let r ← r.asInt32
  int32 (Word.not r.hi) (Word.not r.lo)

/-- Shifting the int32 left by `s` places loses no bit and leaves the sign as it is. -/
def fitsShift (x : Int) (s : Nat) : Prop := IsInt32 (x * pow2 (s + 1))

instance (x : Int) (s : Nat) : Decidable (fitsShift x s) := inferInstanceAs (Decidable (IsInt32 _))

/-- The range of a left shift by a constant. -/
def shiftLeftBy (r : Range) (count : Int) : Except Fault Range := do
  let r ← r.asInt32
  let s := Word.shiftCount count
  if fitsShift r.lo s ∧ fitsShift r.hi s then int32 (r.lo * pow2 s) (r.hi * pow2 s)
  else int32 int32Min int32Max

/-- The range of an arithmetic right shift by a constant. -/
def shiftRightBy (r : Range) (count : Int) : Except Fault Range := do
  let r ← r.asInt32
  let s := Word.shiftCount count
  int32 (Word.shiftRight r.lo s) (Word.shiftRight r.hi s)

/-- The range of an unsigned right shift by a constant. Operands of one sign shift exactly. -/
def shiftRightUnsignedBy (r : Range) (count : Int) : Except Fault Range := do
  let r ← r.asInt32
  let s := Word.shiftCount count
  if r.isNonNegative || r.isNegative then
    uint32 (Word.shiftRightUnsigned r.lo s) (Word.shiftRightUnsigned r.hi s)
  else uint32 0 (Word.shiftRightUnsigned (-1) s)

/-- The range of a shift count. -/
def shiftCount (r : Range) : Except Fault Range := r.numeric.wrapToShiftCount

/-- The range of a left shift. -/
def shiftLeft (r s : Range) : Except Fault Range := do
  let count ← s.shiftCount
  if count.lo = count.hi then r.shiftLeftBy count.lo else int32 int32Min int32Max

/-- The range of an arithmetic right shift: greater counts move every number towards zero. -/
def shiftRight (r s : Range) : Except Fault Range := do
  let r ← r.asInt32
  let count ← s.shiftCount
  int32 (Word.shiftRight r.lo (← fitShift (if r.lo < 0 then count.lo else count.hi)))
    (Word.shiftRight r.hi (← fitShift (if 0 ≤ r.hi then count.lo else count.hi)))

/-- The range of an unsigned right shift. -/
def shiftRightUnsigned (r s : Range) : Except Fault Range := do
  let count ← s.shiftCount
  if count.lo = count.hi then r.shiftRightUnsignedBy count.lo
  else
    let r ← r.asInt32
    let top := if r.isNonNegative then r.hi else -1
    uint32 0 (Word.shiftRightUnsigned top (← fitShift count.lo))

end Rangefinder.Range
