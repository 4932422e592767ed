import Rangefinder.Fault

/-!
# Signed 32-bit integers among the integers

The analysis and the machine compute with int32 values as plain integers. This module gives
the limits of int32, the test that an integer is one, the reduction modulo 2^32 that brings any
integer back into int32, and the bitwise operations of 32-bit words on integers so reduced. Where
an intermediate result has to fit a word, the word is named by the check that the result passes.
-/

namespace Rangefinder

/-- The least int32. -/
def int32Min : Int := -2147483648

/-- The greatest int32. -/
def int32Max : Int := 2147483647

/-- The greatest uint32. -/
def uint32Max : Int := 4294967295

/-- The integer fits a signed 32-bit word. -/
def IsInt32 (n : Int) : Prop := int32Min ≤ n ∧ n ≤ int32Max

instance (n : Int) : Decidable (IsInt32 n) := inferInstanceAs (Decidable (_ ∧ _))

/-- The integer itself when it fits int32, nothing when it overflows. -/
def checkInt32 (n : Int) : Option Int := if IsInt32 n then some n else none

/-- The check returns exactly the integers that fit int32. -/
theorem checkInt32_eq_some {n m : Int} : checkInt32 n = some m ↔ IsInt32 n ∧ n = m := by
  unfold checkInt32
  split <;> simp_all

/-- The integer fits a signed 64-bit word. -/
def IsInt64 (n : Int) : Prop := -9223372036854775808 ≤ n ∧ n ≤ 9223372036854775807

instance (n : Int) : Decidable (IsInt64 n) := inferInstanceAs (Decidable (_ ∧ _))

/-- The int32 congruent to `n` modulo 2^32. -/
def wrapInt32 (n : Int) : Int := Int.bmod n 4294967296

/-- Reduction modulo 2^32 ends in int32. -/
theorem wrapInt32_isInt32 (n : Int) : IsInt32 (wrapInt32 n) := by
  have lower := Int.le_bmod (x := n) (m := 4294967296) (by decide)
  have upper := Int.bmod_lt (x := n) (m := 4294967296) (by decide)
  unfold IsInt32 wrapInt32 int32Min int32Max
  omega

/-- Reduction modulo 2^32 keeps what is in int32 already. -/
theorem wrapInt32_of_isInt32 {n : Int} (h : IsInt32 n) : wrapInt32 n = n := by
  unfold IsInt32 int32Min int32Max at h
  unfold wrapInt32
  rw [Int.bmod_def]
  omega

/-- The uint32 congruent to `n` modulo 2^32. -/
def wrapUint32 (n : Int) : Nat := (n % 4294967296).toNat

/-- The `k`-th power of two. -/
def pow2 (k : Nat) : Nat := Nat.pow 2 k

/-- The integer, or a fault when it leaves int32. -/
def fitInt32 (n : Int) : Except Fault Int := if IsInt32 n then .ok n else .error .overflow

/-- The integer, or a fault when it leaves the signed 64-bit integers. -/
def fitInt64 (n : Int) : Except Fault Int := if IsInt64 n then .ok n else .error .wideOverflow

/-- The check returns exactly the integers that fit 64 bits. -/
theorem fitInt64_eq_ok {n m : Int} : fitInt64 n = .ok m ↔ IsInt64 n ∧ n = m := by
  unfold fitInt64
  split <;> simp_all

/-- The number, or a fault when it leaves the unsigned 16-bit integers. -/
def fitUint16 (n : Nat) : Except Fault Nat := if n < 65536 then .ok n else .error .overflow

/-- When a number fits. -/
theorem fitUint16_eq_ok {n m : Nat} : fitUint16 n = .ok m ↔ n < 65536 ∧ n = m := by
  unfold fitUint16
  split
  · next fits => simp [fits]
  · next large => simp [large]

/-- The number of places to shift a 32-bit word by, or a fault when none of its bits would stay. -/
def fitShift (n : Int) : Except Fault Nat :=
  if 0 ≤ n ∧ n < 32 then .ok n.toNat else .error .wideShift

/-- The least number of the form 2^k - 1 that is at least `n`: the word of ones shifted right by
the number of leading zeros of `n`. Zero has 32 of them. -/
def coveringMask (n : Nat) : Except Fault Nat := do
  let _ ← fitShift (if n = 0 then 32 else 31 - n.log2)
  return pow2 (n.log2 + 1) - 1

namespace Word

/-- Bitwise conjunction of two 32-bit words, read as int32. -/
def and (x y : Int) : Int := (BitVec.ofInt 32 x &&& BitVec.ofInt 32 y).toInt

/-- Bitwise disjunction of two 32-bit words, read as int32. -/
def or (x y : Int) : Int := (BitVec.ofInt 32 x ||| BitVec.ofInt 32 y).toInt

/-- Bitwise exclusive disjunction of two 32-bit words, read as int32. -/
def xor (x y : Int) : Int := (BitVec.ofInt 32 x ^^^ BitVec.ofInt 32 y).toInt

/-- Bitwise complement: every int32 and its complement add up to -1. -/
def not (x : Int) : Int := -1 - x

/-- The number of places a word is shifted by: the count modulo 32. -/
def shiftCount (n : Int) : Nat := (n % 32).toNat

/-- Left shift by `s` places; bits that leave the word are lost. -/
def shiftLeft (x : Int) (s : Nat) : Int := wrapInt32 (x * pow2 s)

/-- Right shift by `s` places that copies the sign bit. -/
def shiftRight (x : Int) (s : Nat) : Int := Int.fdiv x (pow2 s)

/-- Right shift by `s` places of the word read as a uint32. -/
def shiftRightUnsigned (x : Int) (s : Nat) : Nat := wrapUint32 x / pow2 s

end Word

end Rangefinder
