import Mathlib.Data.Rat.Floor
import Mathlib.Tactic.FieldSimp
import Mathlib.Tactic.Linarith
import Mathlib.Tactic.Positivity
import Mathlib.Tactic.Ring
import Rangefinder.Machine.Instruction

/-!
# Integers among the numbers

On integers of moderate size the arithmetic of the machine is exact: sums, differences, products
and remainders of int32 values are the integers that they should be, and comparisons compare
integers. So the conversion of any finite number to int32 is exact as well (`toInt32_of_toRat?`). A
quotient is the one result that rounds; without a remainder it does not (`div_ofInt`).
-/

namespace Rangefinder

/-- `pow2` gives powers of two. -/
theorem pow2_eq (k : Nat) : pow2 k = 2 ^ k := rfl

/-- They are positive. -/
theorem pow2_pos (k : Nat) : 0 < pow2 k := by
  rw [pow2_eq]
  positivity

/-- A number has an exponent up to `e` when it is below the next power of two. -/
theorem log2_le_iff {n e : Nat} : n.log2 ≤ e ↔ n < pow2 (e + 1) := by
  rw [pow2_eq]
  rcases Nat.eq_zero_or_pos n with rfl | pos
  · simp
  · rw [← Nat.log2_lt (by omega), Nat.lt_succ_iff]

/-- Logarithms are monotone. -/
theorem log2_mono {m n : Nat} (h : m ≤ n) : m.log2 ≤ n.log2 :=
  log2_le_iff.mpr (h.trans_lt (log2_le_iff.mp le_rfl))

/-- The logarithm of a maximum is bounded like both parts. -/
theorem log2_max_le_iff {m n e : Nat} : (max m n).log2 ≤ e ↔ m.log2 ≤ e ∧ n.log2 ≤ e := by
  rw [log2_le_iff, log2_le_iff, log2_le_iff, max_lt_iff]

/-- Powers of two are monotone. -/
theorem pow2_le_pow2 {k l : Nat} (h : k ≤ l) : pow2 k ≤ pow2 l := Nat.pow_le_pow_right (by decide) h

/-- The next power is twice as large. -/
theorem pow2_succ (k : Nat) : pow2 (k + 1) = 2 * pow2 k := by rw [pow2_eq, pow2_eq, pow_succ']

/-- No int32 is larger than 2^31. -/
theorem IsInt32.natAbs_le {n : Int} (h : IsInt32 n) : n.natAbs ≤ 2147483648 := by
  unfold IsInt32 int32Min int32Max at h
  omega

namespace Number

variable {a b n : Int} {x y : Number} {p q : Rat} {value : Rat}

/-- An integer has itself as its value. -/
theorem toRat_ofInt (n : Int) : (ofInt n).toRat = n := rfl

/-- Integers are different numbers. -/
theorem ofInt_inj : ofInt a = ofInt b ↔ a = b := by
  rw [ofInt, ofInt, Number.finite.injEq, Int.cast_inj]

/-- A number with a value is that value, or negative zero. -/
theorem eq_of_toRat? (h : x.toRat? = some value) :
    x = finite value ∨ x = negZero ∧ value = 0 := by
  cases x with
  | finite value => exact .inl (congrArg finite (Option.some.inj h))
  | negZero => exact .inr ⟨rfl, (Option.some.inj h).symm⟩
  | nan | negInf | posInf => cases h

/-- Numbers with values compare as their values do. -/
theorem lt_of_values (hx : x.toRat? = some p) (hy : y.toRat? = some q) :
    x.lt y = decide (p < q) := by
  rcases eq_of_toRat? hx with rfl | ⟨rfl, left⟩ <;> rcases eq_of_toRat? hy with rfl | ⟨rfl, right⟩
  · rfl
  · rw [right]; rfl
  · rw [left]; rfl
  · rw [left, right]; rfl

/-- Finite numbers are equal if their values are. -/
theorem equal_of_values (hx : x.toRat? = some p) (hy : y.toRat? = some q) :
    x.equal y = decide (p = q) := by
  rcases eq_of_toRat? hx with rfl | ⟨rfl, left⟩ <;> rcases eq_of_toRat? hy with rfl | ⟨rfl, right⟩
  · rfl
  · rw [right]; rfl
  · rw [left]; rfl
  · rw [left, right]; rfl

/-- Finite numbers are ordered by their values. -/
theorem le_of_values (hx : x.toRat? = some p) (hy : y.toRat? = some q) :
    x.le y = decide (p ≤ q) := by
  rw [le, lt_of_values hx hy, equal_of_values hx hy, ← Bool.decide_or]
  exact decide_eq_decide.mpr le_iff_lt_or_eq.symm

/-- Integral numbers are ordered strictly by their values. -/
theorem lt_of_toRat? (hx : x.toRat? = some (a : Rat)) (hy : y.toRat? = some (b : Rat)) :
    x.lt y = decide (a < b) :=
  (lt_of_values hx hy).trans (decide_eq_decide.mpr Int.cast_lt)

/-- Integral numbers are equal if their values are. -/
theorem equal_of_toRat? (hx : x.toRat? = some (a : Rat)) (hy : y.toRat? = some (b : Rat)) :
    x.equal y = decide (a = b) :=
  (equal_of_values hx hy).trans (decide_eq_decide.mpr Int.cast_inj)

/-- Integral numbers are ordered by their values. -/
theorem le_of_toRat? (hx : x.toRat? = some (a : Rat)) (hy : y.toRat? = some (b : Rat)) :
    x.le y = decide (a ≤ b) :=
  (le_of_values hx hy).trans (decide_eq_decide.mpr Int.cast_le)

/-- Integers are ordered strictly as integers. -/
@[simp] theorem lt_ofInt : (ofInt a).lt (ofInt b) = decide (a < b) := lt_of_toRat? rfl rfl

/-- Integers are equal as integers. -/
@[simp] theorem equal_ofInt : (ofInt a).equal (ofInt b) = decide (a = b) := equal_of_toRat? rfl rfl

/-- Integers are ordered as integers. -/
@[simp] theorem le_ofInt : (ofInt a).le (ofInt b) = decide (a ≤ b) := le_of_toRat? rfl rfl

/-- Integers are numbers. -/
@[simp] theorem isNaN_ofInt : (ofInt n).isNaN = false := rfl

/-- Integers are integral. -/
@[simp] theorem isIntegral_ofInt : (ofInt n).isIntegral = true := by
  simp [ofInt, isIntegral]

/-- A number is integral when its value is an integer. -/
theorem isIntegral_iff : x.isIntegral = true ↔ ∃ n : Int, x.toRat? = some (n : Rat) := by
  constructor
  · intro integral
    cases x with
    | finite value =>
      exact ⟨value.num, congrArg some ((Rat.den_eq_one_iff value).mp (beq_iff_eq.mp integral)).symm⟩
    | negZero => exact ⟨0, rfl⟩
    | nan | negInf | posInf => cases integral
  · rintro ⟨n, value⟩
    rcases eq_of_toRat? value with rfl | ⟨rfl, -⟩
    · exact isIntegral_ofInt
    · rfl

/-- All integers but zero are true. -/
@[simp] theorem isTruthy_ofInt : (ofInt n).isTruthy = decide (n ≠ 0) := by
  have : (finite 0) = ofInt 0 := by simp [ofInt]
  rw [isTruthy, isNaN_ofInt, this, equal_ofInt, Bool.false_or, decide_not]

/-- Booleans are zero and one. -/
theorem ofBool_eq (c : Bool) : ofBool c = ofInt (if c then 1 else 0) := by
  cases c <;> rfl

/-- The sign bit of an integer is its sign. -/
@[simp] theorem signBit_ofInt : (ofInt n).signBit = decide (n < 0) := by
  have : (ofInt n).signBit = decide ((n : Rat) < 0) := rfl
  rw [this]
  exact decide_eq_decide.mpr Int.cast_lt_zero

/-- Integers are their own truncation. -/
theorem truncate_intCast (n : Int) : truncate (n : Rat) = n := by
  simp [truncate]

/-- An integer between the limits is converted to itself. -/
theorem toIntWithin_of_toRat? {lo hi : Int} (hx : x.toRat? = some (a : Rat)) (lower : lo ≤ a)
    (upper : a ≤ hi) : x.toIntWithin lo hi = a := by
  rcases eq_of_toRat? hx with rfl | ⟨rfl, zero⟩
  · rw [toIntWithin, truncate_intCast, min_eq_right upper, max_eq_right lower]
  · exact (Int.cast_eq_zero.mp zero).symm

/-- An int32 is read as itself. -/
theorem toInt64_ofInt (h : IsInt32 n) : (ofInt n).toInt64 = n := by
  unfold IsInt32 int32Min int32Max at h
  exact toIntWithin_of_toRat? rfl (by omega) (by omega)

/-- An integer leaves int32 unless it is one. -/
@[simp] theorem leavesInt32_ofInt : (ofInt n).leavesInt32 = decide (¬IsInt32 n) := by
  rw [leavesInt32, lt_ofInt, lt_ofInt, ← Bool.decide_or]
  refine decide_eq_decide.mpr ?_
  unfold IsInt32
  omega

/-- Integers of at most 53 bits are numbers as they are. -/
theorem ofRat_intCast (h : n.natAbs ≤ 9007199254740992) : ofRat (n : Rat) = ofInt n := by
  rw [ofRat, BinaryFormat.round, if_pos]
  · rfl
  · exact ⟨by simp, by simpa [pow2_eq, BinaryFormat.binary64] using h⟩

/-- The negation of a finite number has the negated value. -/
theorem toRat?_neg (hx : x.toRat? = some value) : x.neg.toRat? = some (-value) := by
  rcases eq_of_toRat? hx with rfl | ⟨rfl, rfl⟩
  · rw [neg]
    split
    · next zero => simp [toRat?, zero]
    · rfl
  · simp [neg, toRat?]

/-- A sum of integers is rounded once; a zero may keep its sign. -/
theorem add_of_toRat? (hx : x.toRat? = some (a : Rat)) (hy : y.toRat? = some (b : Rat)) :
    x.add y = ofRat ((a + b : Int) : Rat) ∨ x.add y = negZero ∧ a + b = 0 := by
  rw [Int.cast_add]
  rcases eq_of_toRat? hx with rfl | ⟨rfl, left⟩ <;> rcases eq_of_toRat? hy with rfl | ⟨rfl, right⟩
  · exact .inl rfl
  · exact .inl (by rw [right]; rfl)
  · exact .inl (by rw [left]; rfl)
  · refine .inr ⟨rfl, ?_⟩
    rw [Int.cast_eq_zero.mp left, Int.cast_eq_zero.mp right, Int.add_zero]

/-- Sums of at most 53 bits are exact. -/
theorem toRat?_add (hx : x.toRat? = some (a : Rat)) (hy : y.toRat? = some (b : Rat))
    (small : (a + b).natAbs ≤ 9007199254740992) : (x.add y).toRat? = some ((a + b : Int) : Rat) := by
  rcases add_of_toRat? hx hy with sum | ⟨sum, zero⟩
  · rw [sum, ofRat_intCast small]
    rfl
  · rw [sum, zero]
    rfl

/-- Small differences are exact. -/
theorem toRat?_sub (hx : x.toRat? = some (a : Rat)) (hy : y.toRat? = some (b : Rat))
    (small : (a - b).natAbs ≤ 9007199254740992) : (x.sub y).toRat? = some ((a - b : Int) : Rat) := by
  have negated : y.neg.toRat? = some ((-b : Int) : Rat) := by rw [toRat?_neg hy, Int.cast_neg]
  rw [sub, Int.sub_eq_add_neg]
  exact toRat?_add hx negated (by rwa [← Int.sub_eq_add_neg])

/-- Small sums of integers are exact. -/
theorem add_ofInt (h : (a + b).natAbs ≤ 9007199254740992) :
    (ofInt a).add (ofInt b) = ofInt (a + b) := by
  have : (ofInt a).add (ofInt b) = ofRat ((a : Rat) + b) := rfl
  rw [this, ← Int.cast_add, ofRat_intCast h]

/-- Small differences of integers are exact. -/
theorem sub_ofInt (h : (a - b).natAbs ≤ 9007199254740992) :
    (ofInt a).sub (ofInt b) = ofInt (a - b) := by
  by_cases zero : b = 0
  · subst zero
    have : (ofInt a).sub (ofInt 0) = ofRat ((a : Rat) + 0) := by
      rw [sub, ofInt, ofInt, neg, if_pos (by simp)]
      rfl
    rw [this, add_zero, Int.sub_zero]
    exact ofRat_intCast (by simpa using h)
  · have : (ofInt a).sub (ofInt b) = ofRat ((a : Rat) + -b) := by
      rw [sub, ofInt, ofInt, neg, if_neg (by simpa using zero)]
      rfl
    rw [this, ← sub_eq_add_neg, ← Int.cast_sub, ofRat_intCast h]

/-- A product of integers is rounded once. Its sign matters only where it is zero. -/
theorem mul_ofInt (sign : a * b = 0 → 0 ≤ a ∧ 0 ≤ b) :
    (ofInt a).mul (ofInt b) = ofRat ((a * b : Int) : Rat) := by
  have product : (ofInt a).mul (ofInt b) =
      if (a : Rat) * b = 0 then signedZero ((ofInt a).signBit != (ofInt b).signBit)
      else ofRat ((a : Rat) * b) := rfl
  rw [product, ← Int.cast_mul]
  by_cases zero : a * b = 0
  · obtain ⟨left, right⟩ := sign zero
    rw [zero, if_pos (by simp), signBit_ofInt, signBit_ofInt, decide_eq_false (by omega),
      decide_eq_false (by omega), ofRat_intCast (by decide)]
    rfl
  · rw [if_neg (by exact_mod_cast zero)]

/-- The minimum of integers is that of their values. -/
theorem minimum_ofInt : (ofInt a).minimum (ofInt b) = ofInt (min a b) := by
  rw [minimum, isNaN_ofInt, isNaN_ofInt, lt_ofInt, Bool.or_self, if_neg (by simp), min_def]
  by_cases lt : b < a
  · rw [if_pos (by simpa using lt), if_neg (by omega)]
  · rw [if_neg (by simpa using lt), if_pos (by omega)]

/-- The maximum of integers is that of their values. -/
theorem maximum_ofInt : (ofInt a).maximum (ofInt b) = ofInt (max a b) := by
  rw [maximum, isNaN_ofInt, isNaN_ofInt, lt_ofInt, Bool.or_self, if_neg (by simp), max_def]
  by_cases lt : a < b
  · rw [if_pos (by simpa using lt), if_pos (by omega)]
  · rw [if_neg (by simpa using lt)]
    by_cases eq : a = b
    · rw [if_pos (by omega), eq]
    · rw [if_neg (by omega)]

/-- The magnitude of an integer is exact. -/
theorem abs_ofInt : (ofInt n).abs = ofInt n.natAbs := by
  rw [ofInt, abs, magnitude, ofInt, Number.finite.injEq]
  split
  · next neg =>
    have : n < 0 := Int.cast_lt_zero.mp neg
    rw [← Int.cast_neg, Int.cast_inj]
    omega
  · next pos =>
    have : ¬n < 0 := fun neg => pos (Int.cast_lt_zero.mpr neg)
    rw [Int.cast_inj]
    omega

end Number

open Number

/-! ### Quotients and remainders -/

/-- Truncation commutes with negation. -/
theorem truncate_neg (x : Rat) : truncate (-x) = -truncate x := by
  simp [truncate, Int.neg_tdiv]

/-- From zero on truncation rounds down. -/
theorem truncate_of_nonneg {x : Rat} (h : 0 ≤ x) : truncate x = ⌊x⌋ := by
  rw [truncate, Int.tdiv_eq_ediv_of_nonneg (Rat.num_nonneg.mpr h), Rat.floor_def']

/-- The truncated quotient of naturals. -/
theorem truncate_natCast_div (m k : Nat) : truncate ((m : Rat) / k) = (m : Int).tdiv k := by
  rw [truncate_of_nonneg (by positivity)]
  have := Rat.floor_intCast_div_natCast (m : Int) k
  rw [Int.tdiv_eq_ediv_of_nonneg (by positivity)]
  simpa using this

/-- The truncated quotient of integers. -/
theorem truncate_div (a b : Int) : truncate ((a : Rat) / b) = a.tdiv b := by
  obtain ⟨m, rfl | rfl⟩ := a.eq_nat_or_neg <;> obtain ⟨k, rfl | rfl⟩ := b.eq_nat_or_neg
  · simpa using truncate_natCast_div m k
  · have := truncate_natCast_div m k
    simp only [Int.cast_natCast, Int.cast_neg, div_neg, truncate_neg, this, Int.tdiv_neg]
  · have := truncate_natCast_div m k
    simp only [Int.cast_natCast, Int.cast_neg, neg_div, truncate_neg, this, Int.neg_tdiv]
  · have := truncate_natCast_div m k
    simp only [Int.cast_natCast, Int.cast_neg, neg_div_neg_eq, this, Int.tdiv_neg, Int.neg_tdiv, neg_neg]

/-- Truncation does not pass an integer below. -/
theorem le_truncate {x : Rat} {l : Int} (h : (l : Rat) ≤ x) : l ≤ truncate x := by
  rcases le_total 0 x with pos | neg
  · rw [truncate_of_nonneg pos]
    exact Int.le_floor.mpr h
  · have := truncate_of_nonneg (neg_nonneg.mpr neg)
    rw [truncate_neg] at this
    have : ⌊-x⌋ ≤ -l := by
      have : (⌊-x⌋ : Rat) ≤ -x := Int.floor_le _
      have : (⌊-x⌋ : Rat) ≤ (-l : Int) := by push_cast; linarith
      exact Int.cast_le.mp this
    omega

/-- Truncation does not pass an integer above. -/
theorem truncate_le {x : Rat} {h : Int} (le : x ≤ h) : truncate x ≤ h := by
  have := le_truncate (x := -x) (l := -h) (by push_cast; linarith)
  rw [truncate_neg] at this
  omega

/-- What truncated division leaves over. -/
theorem sub_mul_truncate (a b : Int) :
    (a : Rat) - b * (truncate ((a : Rat) / b) : Int) = (a.tmod b : Int) := by
  rw [truncate_div, Int.tmod_def]
  push_cast
  ring

/-- A negative remainder is the residue less the divisor. -/
theorem emod_eq_of_tmod {a b : Int} (pos : 0 < b) :
    a % b = if a.tmod b < 0 then a.tmod b + b else a.tmod b := by
  have above := Int.lt_tmod_of_pos a pos
  have below := Int.tmod_lt_of_pos a pos
  have same : a % b = a.tmod b % b := by
    conv_lhs => rw [← Int.mul_tdiv_add_tmod a b, Int.mul_add_emod_self_left]
  rw [same]
  split
  · rw [← Int.add_emod_right, Int.emod_eq_of_lt (by omega) (by omega)]
  · exact Int.emod_eq_of_lt (by omega) below

/-- The remainder of integers has the sign of the dividend, also if it is zero. -/
theorem rem_ofInt {a b : Int} (ne : b ≠ 0) :
    (ofInt a).rem (ofInt b) =
      if a.tmod b = 0 then signedZero (decide (a < 0)) else ofInt (a.tmod b) := by
  have : (ofInt a).rem (ofInt b) = if (b : Rat) = 0 then nan
    else if (a : Rat) - b * (truncate ((a : Rat) / b) : Int) = 0 then signedZero (ofInt a).signBit
      else finite ((a : Rat) - b * (truncate ((a : Rat) / b) : Int)) := rfl
  rw [this, if_neg (by simpa using ne), sub_mul_truncate, signBit_ofInt]
  simp only [Int.cast_eq_zero]
  rfl

/-! ### Reading as int32 -/

namespace Number

variable {a b n : Int} {x y : Number} {p : Rat}

/-- Truncating a number truncates its value. -/
theorem toRat?_trunc (hx : x.toRat? = some p) : x.trunc.toRat? = some (truncate p : Rat) := by
  rcases eq_of_toRat? hx with rfl | ⟨rfl, rfl⟩
  · rw [trunc]
    split
    · next fraction => rw [fraction.2]; rfl
    · rfl
  · rfl

/-- The remainder of two integers is exact; its sign is that of the dividend. -/
theorem toRat?_rem (hx : x.toRat? = some (a : Rat)) (hy : y.toRat? = some (b : Rat)) (ne : b ≠ 0) :
    (x.rem y).toRat? = some ((a.tmod b : Int) : Rat) := by
  simp only [rem, hx, hy, sub_mul_truncate, Int.cast_eq_zero, if_neg ne]
  split
  · next zero => cases x.signBit <;> rw [zero] <;> rfl
  · rfl

/-- The remainder that is not negative is the residue of the dividend. -/
theorem toRat?_remEuclid (hx : x.toRat? = some (a : Rat)) (pos : 0 < b)
    (small : b ≤ 9007199254740992) : (x.remEuclid (ofInt b)).toRat? = some ((a % b : Int) : Rat) := by
  have rest : (x.rem (ofInt b)).toRat? = some ((a.tmod b : Int) : Rat) := toRat?_rem hx rfl (by omega)
  have negative : (x.rem (ofInt b)).lt (finite 0) = decide (a.tmod b < 0) :=
    lt_of_toRat? (b := 0) rest rfl
  have above := Int.lt_tmod_of_pos a pos
  simp only [remEuclid, negative, emod_eq_of_tmod pos, abs_ofInt, decide_eq_true_eq]
  split
  · have size : (ofInt b.natAbs).toRat? = some (b : Rat) := by
      rw [Int.natAbs_of_nonneg (Int.le_of_lt pos)]
      rfl
    exact toRat?_add rest size (by omega)
  · exact rest

/-- Infinities and NaN become zero. -/
theorem toInt32_of_nonFinite (h : x.toRat? = none) : x.toInt32 = 0 := by
  cases x with
  | finite p | negZero => cases h
  | nan | negInf | posInf => rfl

/-- The conversion drops the fraction of a finite number and reduces the rest modulo 2^32. Every step is
exact: from the remainder on, only integers below 2^32 are added and subtracted. -/
theorem toInt32_of_toRat? (hx : x.toRat? = some p) : x.toInt32 = wrapInt32 (truncate p) := by
  have finite : (x.isNaN || x.isInfinite) = false := by
    rcases eq_of_toRat? hx with rfl | ⟨rfl, -⟩ <;> rfl
  have reduced := toRat?_remEuclid (toRat?_trunc hx) (b := 4294967296) (by decide) (by decide)
  have lower := Int.emod_nonneg (truncate p) (b := 4294967296) (by decide)
  have upper := Int.emod_lt_of_pos (truncate p) (b := 4294967296) (by decide)
  have above : (ofInt 2147483648).le (x.trunc.remEuclid (ofInt 4294967296)) =
      decide (2147483648 ≤ truncate p % 4294967296) := le_of_toRat? rfl reduced
  rw [wrapInt32, Int.bmod_def, Nat.cast_ofNat]
  simp only [toInt32, finite, above, decide_eq_true_eq, Bool.false_eq_true, if_false]
  unfold int32Min int32Max
  by_cases large : 2147483648 ≤ truncate p % 4294967296
  · have lowered := toRat?_sub reduced (y := ofInt 4294967296) (b := 4294967296) rfl (by omega)
    rw [if_pos large, if_neg (by omega)]
    exact toIntWithin_of_toRat? lowered (by omega) (by omega)
  · rw [if_neg large, if_pos (by omega)]
    exact toIntWithin_of_toRat? reduced (by omega) (by omega)

/-- An integer is reduced modulo 2^32. -/
@[simp] theorem toInt32_ofInt : (ofInt n).toInt32 = wrapInt32 n := by
  rw [toInt32_of_toRat? (x := ofInt n) rfl, truncate_intCast]

/-- An int32 is converted to itself. -/
theorem toInt32_of_isInt32 (h : IsInt32 n) : (ofInt n).toInt32 = n := by
  rw [toInt32_ofInt, wrapInt32_of_isInt32 h]

end Number

/-! ### Rounding -/

/-- The nearest integer to a quotient is not above an integer that the quotient is not above. -/
theorem nearestQuotient_le {n h : Int} {d : Nat} (pos : 0 < d) (le : n ≤ h * d) :
    nearestQuotient n d ≤ h := by
  have split := Int.mul_ediv_add_emod n d
  have nonneg := Int.emod_nonneg n (b := d) (by omega)
  have below : n / d ≤ h := Int.ediv_le_of_le_mul (by omega) le
  have next : 2 * (n % d) < d ∨ n / d + 1 ≤ h := by
    by_contra both
    push Not at both
    have : n / d = h := by omega
    rw [this] at split
    have : n % d ≤ 0 := by nlinarith
    omega
  unfold nearestQuotient
  dsimp only
  split_ifs <;> omega

/-- The nearest integer to a quotient is not below an integer that the quotient is not below. -/
theorem le_nearestQuotient {n l : Int} {d : Nat} (pos : 0 < d) (le : l * d ≤ n) :
    l ≤ nearestQuotient n d := by
  have : l ≤ n / d := Int.le_ediv_of_mul_le (by omega) le
  unfold nearestQuotient
  dsimp only
  split_ifs <;> omega

/-- The exponent of an integer. -/
theorem floorLog2_intCast {n : Int} (ne : n ≠ 0) : floorLog2 (n : Rat) = n.natAbs.log2 := by
  have covered : pow2 n.natAbs.log2 ≤ n.natAbs := by
    rw [pow2_eq]
    exact Nat.log2_self_le (by omega)
  have one : Nat.log2 1 = 0 := by decide
  simp [floorLog2, one, covered]

/-- An integer of more than 53 bits is rounded to a number beyond int32 on its own side. -/
theorem ofRat_beyond_int32 {n : Int} (large : 9007199254740992 < n.natAbs) :
    (if n < 0 then (ofRat (n : Rat)).lt (ofInt int32Min) else (ofInt int32Max).lt (ofRat (n : Rat))) =
      true := by
  have ne : n.natAbs ≠ 0 := by omega
  have log : 53 ≤ n.natAbs.log2 := by
    rw [Nat.le_log2 ne]
    omega
  obtain ⟨k, hk⟩ : ∃ k, n.natAbs.log2 = 52 + (k + 1) := ⟨n.natAbs.log2 - 53, by omega⟩
  have grid : BinaryFormat.binary64.gridExponent (n : Rat) = .ofNat (k + 1) := by
    rw [BinaryFormat.gridExponent, floorLog2_intCast (by omega), hk]
    unfold BinaryFormat.binary64
    dsimp only
    rw [Int.ofNat_eq_natCast, max_eq_left] <;> omega
  -- The rounded significand has at least 53 bits.
  set m := nearestMultiple (n : Rat) (.ofNat (k + 1)) with hm
  have hm' : m = nearestQuotient n (1 * pow2 (k + 1)) := by simp [hm, nearestMultiple]
  have pos : 0 < pow2 (k + 1) := pow2_pos _
  have size : 4503599627370496 * pow2 (k + 1) ≤ n.natAbs := by
    have := Nat.log2_self_le ne
    rw [hk, pow_add] at this
    simpa [pow2_eq] using this
  have bits : if n < 0 then m ≤ -4503599627370496 else 4503599627370496 ≤ m := by
    rw [hm', Nat.one_mul]
    split
    · exact nearestQuotient_le pos (by omega)
    · exact le_nearestQuotient pos (by omega)
  have two : 2 ≤ pow2 (k + 1) := by
    rw [pow2_eq, pow_succ]
    have : 1 ≤ 2 ^ k := Nat.one_le_two_pow
    omega
  have nonzero : m ≠ 0 := by
    split at bits <;> omega
  have result : ofRat (n : Rat) = signedInf (decide (n < 0)) ∨
      ofRat (n : Rat) = ofInt (m * pow2 (k + 1)) := by
    rw [ofRat, BinaryFormat.round, if_neg (by simpa [pow2_eq, BinaryFormat.binary64] using large)]
    dsimp only
    rw [grid, ← hm, if_neg nonzero, Rat.num_intCast]
    split
    · exact .inl rfl
    · exact .inr rfl
  split at bits
  · next negative =>
    have far : m * pow2 (k + 1) ≤ -4503599627370496 * 2 := by nlinarith
    rw [if_pos negative]
    rcases result with same | same
    · rw [same, decide_eq_true negative]
      rfl
    · rw [same, lt_ofInt, decide_eq_true_iff]
      unfold int32Min
      omega
  · next positive =>
    have far : 4503599627370496 * 2 ≤ m * pow2 (k + 1) := by nlinarith
    rw [if_neg positive]
    rcases result with same | same
    · rw [same, decide_eq_false positive]
      rfl
    · rw [same, lt_ofInt, decide_eq_true_iff]
      unfold int32Max
      omega

/-- Integers that doubles may round leave int32. -/
theorem leavesInt32_ofRat {n : Int} (large : 9007199254740992 < n.natAbs) :
    (ofRat (n : Rat)).leavesInt32 = true := by
  have beyond := ofRat_beyond_int32 large
  rw [leavesInt32, Bool.or_eq_true]
  split at beyond
  · exact .inl beyond
  · exact .inr beyond

/-- The rational quotient of two integers is their integer quotient where nothing remains. -/
theorem div_eq_tdiv {a b : Int} (ne : b ≠ 0) (exact : a.tmod b = 0) :
    (a : Rat) / b = (a.tdiv b : Int) := by
  have : b * a.tdiv b = a := by
    have := Int.mul_tdiv_add_tmod a b
    rwa [exact, add_zero] at this
  rw [div_eq_iff (by exact_mod_cast ne)]
  exact_mod_cast (by rw [mul_comm]; exact this.symm)

/-- A quotient without remainder is exact. -/
theorem div_ofInt {a b : Int} (ha : IsInt32 a) (ne : b ≠ 0) (nonzero : a ≠ 0)
    (exact : a.tmod b = 0) : (ofInt a).div (ofInt b) = ofInt (a.tdiv b) := by
  have unfolded : (ofInt a).div (ofInt b) =
      if (b : Rat) = 0 then
        (if (a : Rat) = 0 then nan else signedInf ((ofInt a).signBit != (ofInt b).signBit))
      else if (a : Rat) = 0 then signedZero ((ofInt a).signBit != (ofInt b).signBit)
      else ofRat ((a : Rat) / b) := rfl
  rw [unfolded, if_neg (by simpa using ne), if_neg (by simpa using nonzero), div_eq_tdiv ne exact]
  refine ofRat_intCast ?_
  have := Int.natAbs_tdiv_le_natAbs a b
  have := ha.natAbs_le
  omega

end Rangefinder
