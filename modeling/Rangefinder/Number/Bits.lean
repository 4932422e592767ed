import Rangefinder.Number.Rounding

/-!
# Binary64 words

The interchange encoding of numbers: a sign bit, eleven bits of biased exponent and 52 bits of
fraction. All NaN words denote the one NaN.
-/

namespace Rangefinder.Number

/-- The number a binary64 word denotes. -/
def ofBits (bits : UInt64) : Number :=
  let word := bits.toNat
  let negative := decide (9223372036854775808 ≤ word)
  let biased := word / 4503599627370496 % 2048
  let fraction := word % 4503599627370496
  let signed (x : Rat) : Number := finite (if negative then -x else x)
  if biased = 2047 then (if fraction = 0 then signedInf negative else nan)
  else if biased = 0 then
    if fraction = 0 then signedZero negative
    else signed (scalePow2 (fraction : Int) (-1074))
  else signed (scalePow2 ((fraction + 4503599627370496 : Nat) : Int) ((biased : Int) - 1075))

/-- The binary64 word of a number that binary64 can hold. -/
def toBits : Number → UInt64
  | nan => 9221120237041090560
  | posInf => 9218868437227405312
  | negInf => 18442240474082181120
  | negZero => 9223372036854775808
  | finite x =>
    if x = 0 then 0
    else
      let a := magnitude x
      let e := floorLog2 a
      let word : Nat :=
        if e < -1022 then (scalePow2 a 1074).floor.toNat
        else (e + 1022).toNat * 4503599627370496 + (scalePow2 a (52 - e)).floor.toNat
      UInt64.ofNat (if x < 0 then word + 9223372036854775808 else word)

end Rangefinder.Number
