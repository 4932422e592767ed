import Rangefinder.Number.Rounding

/-!
# Arithmetic on numbers

Sum, difference, product, quotient and square root are the exact results rounded to binary64;
the remainder is exact. NaN, the infinities and the sign of a zero follow the usual rules for
binary floating point: opposite infinities cancel to NaN, a zero times an infinity is NaN, and
an exact zero is negative only where both the operation and its operands force the sign.

The conversion to int32 is made of these operations: a number without its fraction is reduced modulo
2^32, and what does not fit an int32 then is lowered by 2^32.
-/

namespace Rangefinder.Number

/-- The binary64 number nearest to a rational. -/
def ofRat (x : Rat) : Number := BinaryFormat.binary64.round x

/-- Sum of two numbers. -/
def add : Number → Number → Number
  | nan, _ | _, nan => nan
  | posInf, negInf | negInf, posInf => nan
  | posInf, _ | _, posInf => posInf
  | negInf, _ | _, negInf => negInf
  | negZero, negZero => negZero
  | a, b => ofRat (a.toRat + b.toRat)

/-- Difference of two numbers. -/
def sub (a b : Number) : Number := a.add b.neg

/-- Product of two numbers. -/
def mul (a b : Number) : Number :=
  let negative := a.signBit != b.signBit
  match a.toRat?, b.toRat? with
  | some x, some y =>
    let product := x * y
    if product = 0 then signedZero negative else ofRat product
  | _, _ =>
    if a.isNaN || b.isNaN || a.equal (finite 0) || b.equal (finite 0) then nan
    else signedInf negative

/-- Quotient of two numbers. -/
def div (a b : Number) : Number :=
  let negative := a.signBit != b.signBit
  match a.toRat?, b.toRat? with
  | some x, some y =>
    if y = 0 then (if x = 0 then nan else signedInf negative)
    else if x = 0 then signedZero negative
    else ofRat (x / y)
  | _, _ =>
    if a.isNaN || b.isNaN || (a.isInfinite && b.isInfinite) then nan
    else if b.isInfinite then signedZero negative
    else signedInf negative

/-- Remainder of the division that truncates; it has the sign of the dividend. -/
def rem (a b : Number) : Number :=
  match a.toRat?, b.toRat? with
  | some x, some y =>
    if y = 0 then nan
    else
      let r := x - y * truncate (x / y)
      if r = 0 then signedZero a.signBit else finite r
  | some _, none => if b.isNaN then nan else a
  | none, _ => nan

/-- Remainder that is not negative: a negative one is raised by the size of the divisor. -/
def remEuclid (a b : Number) : Number :=
  let r := a.rem b
  if r.lt (finite 0) then r.add b.abs else r

/-- The int32 congruent modulo 2^32 to the number without its fraction; zero for NaN and the
infinities. -/
def toInt32 (a : Number) : Int :=
  if a.isNaN || a.isInfinite then 0
  else
    let m := a.trunc.remEuclid (ofInt 4294967296)
    let signed := if (ofInt 2147483648).le m then m.sub (ofInt 4294967296) else m
    signed.toIntWithin int32Min int32Max

/-- Square root; NaN below zero. -/
def sqrt : Number → Number
  | nan | negInf => nan
  | posInf => posInf
  | negZero => negZero
  | finite x =>
    if x < 0 then nan else if x = 0 then finite 0 else BinaryFormat.binary64.roundSqrt x

/-- The nearest number of single precision. -/
def toSingle : Number → Number
  | finite x => BinaryFormat.binary32.round x
  | a => a

end Rangefinder.Number
