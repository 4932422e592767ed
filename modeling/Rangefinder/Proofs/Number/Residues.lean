import Mathlib.Data.Int.ModEq
import Rangefinder.Proofs.Number.Doubles

/-!
# Numbers modulo 2^32

An int32 stands for all integers that are congruent to it modulo 2^32, and every integer has exactly one
int32 that stands for it. The conversion of a finite number finds the int32 of the number without its
fraction, however large the number is. Since sums, differences and products respect congruence, reducing
the operands of a wrapping instruction before the operation loses nothing: the result is the int32 of the
exact result on the integers themselves.
-/

namespace Rangefinder

/-- The integer is the int32 that stands for another integer modulo 2^32. -/
structure IsResidue (n k : Int) : Prop where
  fits : IsInt32 n
  congruent : n ≡ k [ZMOD 4294967296]

/-- Wrapping keeps the residue. -/
theorem wrapInt32_modEq (k : Int) : wrapInt32 k ≡ k [ZMOD 4294967296] := Int.bmod_emod

/-- Every integer has exactly one residue among the int32 values. -/
theorem isResidue_iff {n k : Int} : IsResidue n k ↔ wrapInt32 k = n := by
  constructor
  · intro residue
    have same : wrapInt32 k ≡ n [ZMOD 4294967296] := (wrapInt32_modEq k).trans residue.congruent.symm
    have fits := residue.fits
    have fits' := wrapInt32_isInt32 k
    unfold IsInt32 int32Min int32Max at fits fits'
    unfold Int.ModEq at same
    omega
  · rintro rfl
    exact ⟨wrapInt32_isInt32 k, wrapInt32_modEq k⟩

/-- Congruent integers are brought to the same int32. -/
theorem wrapInt32_congr {k l : Int} (same : k ≡ l [ZMOD 4294967296]) : wrapInt32 k = wrapInt32 l :=
  isResidue_iff.mp ⟨wrapInt32_isInt32 l, (wrapInt32_modEq l).trans same.symm⟩

/-- Dropping the fraction rounds towards zero. -/
theorem truncate_eq (x : Rat) : truncate x = if x < 0 then ⌈x⌉ else ⌊x⌋ := by
  split
  · next negative =>
    have mirrored := truncate_of_nonneg (neg_nonneg.mpr negative.le)
    rw [truncate_neg, Int.floor_neg] at mirrored
    exact neg_inj.mp mirrored
  · next nonneg => exact truncate_of_nonneg (not_lt.mp nonneg)

namespace Number

variable {a b : Number} {i j : Int}

/-- The conversion finds the residue of every number that is an integer. -/
theorem toInt32_modEq (ha : a.toRat? = some (i : Rat)) : a.toInt32 ≡ i [ZMOD 4294967296] := by
  rw [toInt32_of_toRat? ha, truncate_intCast]
  exact wrapInt32_modEq i

/-- A wrapping instruction gives the residue of the exact result, if its operation respects
congruence. -/
theorem binary_wrapping {op : BinaryOp} {exact : Int → Int → Int} {flags : ArithFlags} {v : ValueId}
    (plain : op.isBitwise = false) (wraps : flags.wrapping = true)
    (words : op.onWords a b = .ofInt (wrapInt32 (exact a.toInt32 b.toInt32)))
    (respects : exact a.toInt32 b.toInt32 ≡ exact i j [ZMOD 4294967296]) (n : Int) :
    Machine.binary v op a b flags .int32 = .ok (.ofInt n) ↔ IsResidue n (exact i j) := by
  rw [isResidue_iff, Machine.binary, plain, wraps, words, wrapInt32_congr respects]
  simp only [Bool.false_eq_true, if_false, ne_eq, not_true_eq_false, if_true, Except.ok.injEq, ofInt_inj]

/-- The conversion to int32 is exact. The int32 of a finite number is the one int32 that is congruent
modulo 2^32 to the number without its fraction; the int32 of NaN and of the infinities is zero. So
wrapping sums, differences and products of integers of any size are the residues of the exact ones.
Of a double, the number without its fraction and its remainder are doubles too, and nothing is lost by
computing them without rounding. -/
theorem toInt32_exact (a b : Number) :
    (a.IsDouble → a.trunc.IsDouble ∧ (a.trunc.rem (ofInt 4294967296)).IsDouble) ∧
    (∀ x, a.toRat? = some x → ∀ n, a.toInt32 = n ↔ IsResidue n (if x < 0 then ⌈x⌉ else ⌊x⌋)) ∧
    (a = nan ∨ a.isInfinite = true → a.toInt32 = 0) ∧
    ∀ i j : Int, a.toRat? = some (i : Rat) → b.toRat? = some (j : Rat) →
      ∀ (v : ValueId) (flags : ArithFlags), flags.wrapping = true → ∀ n,
        (Machine.binary v .add a b flags .int32 = .ok (.ofInt n) ↔ IsResidue n (i + j)) ∧
        (Machine.binary v .sub a b flags .int32 = .ok (.ofInt n) ↔ IsResidue n (i - j)) ∧
        (Machine.binary v .mul a b flags .int32 = .ok (.ofInt n) ↔ IsResidue n (i * j)) := by
  refine ⟨fun double => ?_, fun x value n => ?_, fun nonFinite => ?_,
    fun i j ha hb v flags wraps n => ⟨?_, ?_, ?_⟩⟩
  · exact ⟨double.trunc, double.trunc.rem (isDouble_ofInt (by decide))⟩
  · rw [toInt32_of_toRat? value, truncate_eq, isResidue_iff]
  · exact toInt32_of_nonFinite (toRat?_eq_none.mpr nonFinite)
  · exact binary_wrapping rfl wraps rfl ((toInt32_modEq ha).add (toInt32_modEq hb)) n
  · exact binary_wrapping rfl wraps rfl ((toInt32_modEq ha).sub (toInt32_modEq hb)) n
  · exact binary_wrapping rfl wraps rfl ((toInt32_modEq ha).mul (toInt32_modEq hb)) n

/-- An integer of 53 bits times a power of two, far below int32, and one just below an odd multiple of
2^31; a fraction next to the least int32; and NaN. -/
theorem beyondInt32_exact :
    (ofInt (-72057594037927928)).IsDouble ∧ (ofInt (-72057594037927928)).toInt32 = 8 ∧
      (finite (-4294967297 / 2)).toInt32 = -2147483648 ∧ nan.toInt32 = 0 ∧
      Machine.binary 0 .add (ofInt (-72057594037927928)) (ofInt 6442450943) .wraps .int32 =
        .ok (.ofInt (-2147483641)) ∧
      Machine.binary 0 .sub (ofInt (-72057594037927928)) (ofInt 6442450943) .wraps .int32 =
        .ok (.ofInt (-2147483639)) ∧
      Machine.binary 0 .mul (ofInt (-72057594037927928)) (ofInt 6442450943) .wraps .int32 =
        .ok (.ofInt (-8)) := by
  have value : ofBinary (-9007199254740991) 3 = ((-72057594037927928 : Int) : Rat) := by decide +kernel
  have double : (ofInt (-72057594037927928)).IsDouble := by
    rw [ofInt, ← value]
    exact isDouble_ofBinary (by decide) (by decide) (by decide)
  obtain ⟨-, whole, -, words⟩ := toInt32_exact (ofInt (-72057594037927928)) (ofInt 6442450943)
  have words := words _ _ rfl rfl 0 .wraps rfl
  obtain ⟨-, fraction, -⟩ := toInt32_exact (finite (-4294967297 / 2)) nan
  have cut : (if (-4294967297 / 2 : Rat) < 0 then ⌈(-4294967297 / 2 : Rat)⌉ else ⌊(-4294967297 / 2 : Rat)⌋) =
      -2147483648 := by decide +kernel
  refine ⟨double, (whole _ rfl 8).mpr ?_, (fraction _ rfl _).mpr ?_, ?_, (words _).1.mpr ?_,
    (words _).2.1.mpr ?_, (words _).2.2.mpr ?_⟩
  · rw [if_pos (by decide +kernel), Int.ceil_intCast]
    exact ⟨by decide, by decide⟩
  · rw [cut]
    exact ⟨by decide, by decide⟩
  · exact (toInt32_exact nan nan).2.2.1 (.inl rfl)
  all_goals exact ⟨by decide, by decide⟩

end Number

end Rangefinder
