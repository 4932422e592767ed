import Mathlib.Algebra.Order.Field.Power
import Rangefinder.Number.Bits
import Rangefinder.Proofs.Number.Exact

/-!
# Doubles

A finite double is `m * 2^q` with an integer `m` of at most 53 bits. So doubles with a fraction are below
2^52, and rounding such a double to an integer does not carry it past the greatest finite one. Dropping
the fraction of a double and taking the remainder of two of them lead to doubles, so the machine computes
them without rounding. All numbers that binary64 words denote are doubles.
-/

namespace Rangefinder

/-- Natural powers of two. -/
theorem zpow_two_natCast (k : Nat) : (2 : Rat) ^ (k : Int) = (pow2 k : Nat) := by
  rw [zpow_natCast, pow2_eq, Nat.cast_pow, Nat.cast_ofNat]

/-- Scaling multiplies. -/
theorem scalePow2_eq (x : Rat) (q : Int) : scalePow2 x q = x * 2 ^ q := by
  cases q with
  | ofNat k =>
    rw [scalePow2, pow2_eq, Int.ofNat_eq_natCast, zpow_natCast]
    push_cast
    rfl
  | negSucc k =>
    rw [scalePow2, pow2_eq, zpow_negSucc, div_eq_mul_inv]
    push_cast
    rfl

/-- A significand is scaled. -/
theorem ofBinary_eq (m q : Int) : ofBinary m q = m * 2 ^ q := by
  rw [← scalePow2_eq]
  cases q with
  | ofNat k => rw [ofBinary, scalePow2, Int.cast_mul]
  | negSucc k => rw [ofBinary, scalePow2, Rat.mkRat_eq_div, Int.cast_natCast]

/-- The rational is a dyadic one whose significand has at most `p` bits; its exponent may have any size. -/
def HasSignificand (p : Nat) (x : Rat) : Prop :=
  ∃ m q : Int, m.natAbs < pow2 p ∧ x = ofBinary m q

/-- A value with a fraction leaves one bit of its significand to it. -/
theorem HasSignificand.abs_lt_of_fraction {p : Nat} {x : Rat} (h : HasSignificand (p + 1) x)
    (fraction : ¬∃ n : Int, (n : Rat) = x) : |x| < (pow2 p : Nat) := by
  obtain ⟨m, q, bits, rfl⟩ := h
  cases q with
  | ofNat k => exact absurd ⟨m * pow2 k, rfl⟩ fraction
  | negSucc k =>
    have significand : |(m : Rat)| < (pow2 (p + 1) : Nat) := by
      rw [← Int.cast_abs, Int.abs_eq_natAbs, Int.cast_natCast]
      exact Nat.cast_lt.mpr bits
    have scale : (2 : Rat) ≤ (pow2 (k + 1) : Nat) := by
      rw [pow2_eq, pow_succ']
      exact_mod_cast Nat.le_mul_of_pos_right 2 (pow2_pos k)
    rw [ofBinary, Rat.mkRat_eq_div, abs_div, Nat.abs_cast, div_lt_iff₀ (by linarith)]
    calc |(m : Rat)| < (pow2 (p + 1) : Nat) := significand
      _ = (pow2 p : Nat) * 2 := by rw [pow2_eq, pow_succ, Nat.cast_mul, pow2_eq, Nat.cast_ofNat]
      _ ≤ (pow2 p : Nat) * (pow2 (k + 1) : Nat) := mul_le_mul_of_nonneg_left scale (Nat.cast_nonneg _)

/-- Negation negates the significand. -/
theorem neg_ofBinary (m q : Int) : ofBinary (-m) q = -ofBinary m q := by
  rw [ofBinary_eq, ofBinary_eq, Int.cast_neg, neg_mul]

/-- Two values on one grid have their remainder on it. -/
theorem ofBinary_rem (m n e : Int) :
    ofBinary m e - ofBinary n e * (truncate (ofBinary m e / ofBinary n e) : Int) =
      ofBinary (m.tmod n) e := by
  have scale : (2 : Rat) ^ e ≠ 0 := zpow_ne_zero e two_ne_zero
  simp only [ofBinary_eq]
  rw [mul_div_mul_right _ _ scale, truncate_div, Int.tmod_def]
  push_cast
  ring

/-- A value may be written with any smaller exponent. -/
theorem ofBinary_lower (m e : Int) (k : Nat) : ofBinary m (e + k) = ofBinary (m * pow2 k) e := by
  rw [ofBinary_eq, ofBinary_eq, zpow_add₀ two_ne_zero, Int.cast_mul, Int.cast_natCast, ← zpow_two_natCast]
  ring

namespace BinaryFormat

/-- The value is one of the format: its significand has the bits of the format, its exponent is not below
the least one, and it is below the overflow threshold. -/
def Has (f : BinaryFormat) (x : Rat) : Prop :=
  ∃ m q : Int, m.natAbs < pow2 f.precision ∧ f.minExponent ≤ q ∧
    (m.natAbs.log2 : Int) + q < f.overflowExponent ∧ x = ofBinary m q

variable {f : BinaryFormat} {x y : Rat}

/-- Members have significands. -/
theorem Has.hasSignificand (h : f.Has x) : HasSignificand f.precision x := by
  obtain ⟨m, q, bits, -, -, value⟩ := h
  exact ⟨m, q, bits, value⟩

/-- They do not overflow. -/
theorem Has.abs_lt (h : f.Has x) : |x| < 2 ^ f.overflowExponent := by
  obtain ⟨m, q, -, -, small, rfl⟩ := h
  have significand : |(m : Rat)| < 2 ^ ((m.natAbs.log2 : Int) + 1) := by
    rw [← Int.cast_abs, Int.abs_eq_natAbs, Int.cast_natCast]
    exact_mod_cast (Nat.lt_log2_self : m.natAbs < 2 ^ (m.natAbs.log2 + 1))
  rw [ofBinary_eq, abs_mul, abs_of_pos (zpow_pos (by norm_num : (0 : Rat) < 2) q)]
  calc |(m : Rat)| * 2 ^ q < 2 ^ ((m.natAbs.log2 : Int) + 1) * 2 ^ q :=
        mul_lt_mul_of_pos_right significand (zpow_pos (by norm_num) q)
    _ = 2 ^ ((m.natAbs.log2 : Int) + 1 + q) := (zpow_add₀ (by norm_num) _ _).symm
    _ ≤ 2 ^ f.overflowExponent := zpow_le_zpow_right₀ (by norm_num) (by omega)

/-- The remainder of two values of a format is one of them. -/
theorem Has.rem (hx : f.Has x) (hy : f.Has y) (ne : y ≠ 0) :
    f.Has (x - y * (truncate (x / y) : Int)) := by
  obtain ⟨m, p, bits, least, finite, rfl⟩ := hx
  obtain ⟨n, q, bits', least', finite', rfl⟩ := hy
  have significand : n ≠ 0 := by
    rintro rfl
    exact ne (by rw [ofBinary_eq, Int.cast_zero, zero_mul])
  rcases le_total p q with le | le
  · -- On the grid of the dividend the remainder is no longer than the dividend.
    obtain ⟨k, rfl⟩ := Int.le.dest le
    have shorter : (m.tmod (n * pow2 k)).natAbs ≤ m.natAbs := by
      rw [Int.natAbs_tmod]
      exact Nat.mod_le _ _
    have log := log2_mono shorter
    rw [ofBinary_lower, ofBinary_rem]
    exact ⟨_, p, by omega, least, by omega, rfl⟩
  · -- On the grid of the divisor it is shorter than the divisor.
    obtain ⟨k, rfl⟩ := Int.le.dest le
    have shorter : ((m * pow2 k).tmod n).natAbs < n.natAbs := by
      rw [Int.natAbs_tmod]
      exact Nat.mod_lt _ (Int.natAbs_pos.mpr significand)
    have log := log2_mono shorter.le
    rw [ofBinary_lower, ofBinary_rem]
    exact ⟨_, q, by omega, least', by omega, rfl⟩

end BinaryFormat

namespace Number

/-- The number is NaN, an infinity, a zero or a finite value of double precision. -/
def IsDouble (a : Number) : Prop := ∀ x, a.toRat? = some x → BinaryFormat.binary64.Has x

variable {a b : Number} {x : Rat}

/-- Doubles are bounded. -/
theorem IsDouble.abs_lt (h : a.IsDouble) (value : a.toRat? = some x) : |x| < (pow2 1024 : Nat) := by
  rw [← zpow_two_natCast]
  exact (h x value).abs_lt

/-- Finite numbers of the format are doubles. -/
theorem isDouble_finite (h : BinaryFormat.binary64.Has x) : (finite x).IsDouble := by
  intro y same
  exact Option.some.inj same ▸ h

/-- Infinities and NaN are doubles. -/
theorem isDouble_of_nonFinite (h : a.toRat? = none) : a.IsDouble := by
  intro x value
  rw [h] at value
  cases value

/-- So are zeros. -/
theorem isDouble_of_zero (h : a.toRat? = some 0) : a.IsDouble := by
  intro x value
  obtain rfl := Option.some.inj (h.symm.trans value)
  exact ⟨0, 0, by decide, by decide, by decide, rfl⟩

/-- Significands of 53 bits with the exponents of binary64 make doubles. -/
theorem isDouble_ofBinary {m q : Int} (bits : m.natAbs < pow2 53) (least : -1074 ≤ q)
    (greatest : q ≤ 971) : (finite (ofBinary m q)).IsDouble := by
  have small : m.natAbs.log2 ≤ 52 := log2_le_iff.mpr bits
  refine isDouble_finite ⟨m, q, bits, least, ?_, rfl⟩
  show (m.natAbs.log2 : Int) + q < 1024
  omega

/-- So are small integers. -/
theorem isDouble_ofInt {n : Int} (small : n.natAbs < pow2 53) : (ofInt n).IsDouble := by
  have value : ofBinary n 0 = n := by rw [ofBinary_eq, zpow_zero, mul_one]
  rw [ofInt, ← value]
  exact isDouble_ofBinary small (by decide) (by decide)

/-- Below 2^52 the numbers halfway between integers are doubles. -/
theorem isDouble_half {i : Int} (small : i.natAbs < pow2 52) : (finite (i + 1 / 2)).IsDouble := by
  have value : ofBinary (2 * i + 1) (-1) = i + 1 / 2 := by
    rw [ofBinary_eq, zpow_neg_one]
    push_cast
    ring
  have width : pow2 53 = 2 * pow2 52 := pow2_succ 52
  rw [← value]
  exact isDouble_ofBinary (by omega) (by decide) (by decide)

/-- The powers of two below the overflow threshold are doubles, with either sign. -/
theorem isDouble_pow2 {e : Nat} {sign : Int} (unit : sign.natAbs = 1) (finite : e < 1024) :
    (ofInt (sign * pow2 e)).IsDouble := by
  refine isDouble_finite ⟨sign, e, ?_, ?_, ?_, rfl⟩
  · rw [unit]
    decide
  · exact le_trans (by decide) (Int.natCast_nonneg e)
  · rw [unit]
    have log : Nat.log2 1 = 0 := by decide
    show ((Nat.log2 1 : Nat) : Int) + e < 1024
    omega

/-- Dropping the fraction of a double needs no rounding. -/
theorem IsDouble.trunc (h : a.IsDouble) : a.trunc.IsDouble := by
  cases value : a.toRat? with
  | none =>
    cases a with
    | finite x | negZero => cases value
    | nan | negInf | posInf => exact isDouble_of_nonFinite rfl
  | some x =>
    intro y value'
    rw [toRat?_trunc value, Option.some_inj] at value'
    subst value'
    obtain ⟨m, q, bits, least, finite, rfl⟩ := h x value
    cases q with
    | ofNat k =>
      have whole : truncate (ofBinary m (.ofNat k)) = m * pow2 k := truncate_intCast _
      rw [whole]
      exact ⟨m, k, bits, least, finite, rfl⟩
    | negSucc k =>
      have shorter : (m.tdiv (pow2 (k + 1))).natAbs ≤ m.natAbs := Int.natAbs_tdiv_le_natAbs _ _
      have cut : truncate (ofBinary m (.negSucc k)) = m.tdiv (pow2 (k + 1)) := by
        rw [ofBinary, Rat.mkRat_eq_div]
        exact truncate_div m (pow2 (k + 1) : Nat)
      rw [cut]
      exact isDouble_ofInt (lt_of_le_of_lt shorter bits) _ rfl

/-- The remainder of two doubles needs no rounding. -/
theorem IsDouble.rem (ha : a.IsDouble) (hb : b.IsDouble) : (a.rem b).IsDouble := by
  cases dividend : a.toRat? with
  | none =>
    have invalid : a.rem b = nan := by simp only [Number.rem, dividend]
    rw [invalid]
    exact isDouble_of_nonFinite rfl
  | some x =>
    cases divisor : b.toRat? with
    | none =>
      simp only [Number.rem, dividend, divisor]
      split
      · exact isDouble_of_nonFinite rfl
      · exact ha
    | some y =>
      simp only [Number.rem, dividend, divisor]
      split
      · exact isDouble_of_nonFinite rfl
      · next ne =>
        have value := (ha x dividend).rem (hb y divisor) ne
        split
        · exact isDouble_of_zero (by cases a.signBit <;> rfl)
        · exact isDouble_finite value

/-- What a binary64 word denotes is a double. -/
theorem isDouble_ofBits (word : UInt64) : (ofBits word).IsDouble := by
  have signed : ∀ (negative : Bool) {m q : Int}, m.natAbs < pow2 53 → -1074 ≤ q → q ≤ 971 →
      (finite (if negative then -scalePow2 m q else scalePow2 m q)).IsDouble := by
    intro negative m q bits least greatest
    rw [scalePow2_eq, ← ofBinary_eq, ← neg_ofBinary]
    cases negative with
    | true => exact isDouble_ofBinary (by rwa [Int.natAbs_neg]) least greatest
    | false => exact isDouble_ofBinary bits least greatest
  have field : word.toNat / 4503599627370496 % 2048 < 2048 := Nat.mod_lt _ (by decide)
  have fraction : word.toNat % 4503599627370496 < 4503599627370496 := Nat.mod_lt _ (by decide)
  have width : pow2 53 = 9007199254740992 := by decide
  simp only [ofBits]
  split
  · split
    · exact isDouble_of_nonFinite (by cases decide (9223372036854775808 ≤ word.toNat) <;> rfl)
    · exact isDouble_of_nonFinite rfl
  · split
    · split
      · exact isDouble_of_zero (by cases decide (9223372036854775808 ≤ word.toNat) <;> rfl)
      · exact signed _ (by omega) (by omega) (by omega)
    · exact signed _ (by omega) (by omega) (by omega)

end Number

end Rangefinder
