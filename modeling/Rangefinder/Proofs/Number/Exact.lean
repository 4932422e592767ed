import Rangefinder.Proofs.Number.Integers

/-!
# Arithmetic before rounding

The machine rounds sums, differences and products to binary64. The operations of this module are what it
rounds: exact on finite numbers, and by the rules for the infinities and NaN on all others. Opposite
infinities cancel to NaN, and a zero times an infinity is NaN.
-/

namespace Rangefinder.Number

variable {x y : Rat} {a : Number}

/-- Sum of two numbers, not rounded. -/
def exactAdd : Number → Number → Number
  | nan, _ | _, nan => nan
  | posInf, negInf | negInf, posInf => nan
  | posInf, _ | _, posInf => posInf
  | negInf, _ | _, negInf => negInf
  | negZero, negZero => negZero
  | a, b => finite (a.toRat + b.toRat)

/-- Difference of two numbers, not rounded. -/
def exactSub (a b : Number) : Number := a.exactAdd b.neg

/-- Product of two numbers, not rounded. -/
def exactMul (a b : Number) : Number :=
  let negative := a.signBit != b.signBit
  match a.toRat?, b.toRat? with
  | some x, some y => if x * y = 0 then signedZero negative else finite (x * y)
  | _, _ =>
    if a.isNaN || b.isNaN || a.equal (finite 0) || b.equal (finite 0) then nan
    else signedInf negative

/-- Only NaN is NaN. -/
theorem isNaN_iff : a.isNaN = true ↔ a = nan := by
  cases a <;> simp [isNaN]

/-- Both zeros equal zero. -/
theorem equal_zero_iff : a.equal (finite 0) = true ↔ a.toRat? = some 0 := by
  cases a with
  | finite value => exact decide_eq_true_iff.trans Option.some_inj.symm
  | _ => simp [equal, toRat?, toRat]

/-- What has no value. -/
theorem toRat?_eq_none : a.toRat? = none ↔ a = nan ∨ a.isInfinite = true := by
  cases a <;> simp [toRat?, isInfinite]

/-- Finite products. -/
theorem exactMul_of_toRat? {a b : Number} (ha : a.toRat? = some x) (hb : b.toRat? = some y) :
    a.exactMul b = if x * y = 0 then signedZero (a.signBit != b.signBit) else finite (x * y) := by
  simp only [exactMul, ha, hb]

/-- Infinite products. -/
theorem exactMul_of_nonFinite {a b : Number} (nonFinite : a.toRat? = none ∨ b.toRat? = none) :
    a.exactMul b = if a.isNaN || b.isNaN || a.equal (finite 0) || b.equal (finite 0) then nan
      else signedInf (a.signBit != b.signBit) := by
  rw [exactMul]
  split
  · next ha hb => simp [ha, hb] at nonFinite
  · rfl

/-- What an exact sum can be. -/
theorem exactAdd_cases (a b : Number) :
    (∃ x y, a.toRat? = some x ∧ b.toRat? = some y ∧ (a.exactAdd b).toRat? = some (x + y)) ∨
      a.exactAdd b = nan ∧ (a = nan ∨ b = nan ∨ a.isInfinite = true ∧ b.isInfinite = true) ∨
      a.exactAdd b = posInf ∧ (a = posInf ∨ b = posInf) ∨
      a.exactAdd b = negInf ∧ (a = negInf ∨ b = negInf) := by
  cases a <;> cases b <;> simp [exactAdd, toRat?, toRat, isInfinite]

/-- What an exact product can be. -/
theorem exactMul_cases (a b : Number) :
    (∃ x y, a.toRat? = some x ∧ b.toRat? = some y ∧ (a.exactMul b).toRat? = some (x * y)) ∨
      a.exactMul b = nan ∧ (a = nan ∨ b = nan ∨ a.toRat? = some 0 ∧ b.isInfinite = true ∨
        a.isInfinite = true ∧ b.toRat? = some 0) ∨
      (a.exactMul b = posInf ∨ a.exactMul b = negInf) ∧
        (a.isInfinite = true ∨ b.isInfinite = true) := by
  by_cases finite : (∃ x, a.toRat? = some x) ∧ ∃ y, b.toRat? = some y
  · obtain ⟨⟨x, ha⟩, y, hb⟩ := finite
    refine .inl ⟨x, y, ha, hb, ?_⟩
    rw [exactMul_of_toRat? ha hb]
    split
    · next zero =>
      rw [zero]
      cases a.signBit != b.signBit <;> rfl
    · rfl
  · have nonFinite : a.toRat? = none ∨ b.toRat? = none := by
      rw [not_and_or, not_exists, not_exists] at finite
      exact finite.imp Option.eq_none_iff_forall_ne_some.mpr Option.eq_none_iff_forall_ne_some.mpr
    rw [exactMul_of_nonFinite nonFinite]
    right
    split
    · next special =>
      refine .inl ⟨rfl, ?_⟩
      simp only [Bool.or_eq_true, isNaN_iff, equal_zero_iff] at special
      rcases special with ((left | right) | zero) | zero
      · exact .inl left
      · exact .inr (.inl right)
      · have other := toRat?_eq_none.mp (nonFinite.resolve_left (by simp [zero]))
        exact .inr (other.imp_right fun infinite => .inl ⟨zero, infinite⟩)
      · have other := toRat?_eq_none.mp (nonFinite.resolve_right (by simp [zero]))
        exact other.imp_right fun infinite => .inr (.inr ⟨infinite, zero⟩)
    · next plain =>
      simp only [Bool.or_eq_true, isNaN_iff, not_or] at plain
      refine .inr ⟨?_, ?_⟩
      · cases a.signBit != b.signBit with
        | true => exact .inr rfl
        | false => exact .inl rfl
      · exact nonFinite.imp (fun none => (toRat?_eq_none.mp none).resolve_left plain.1.1.1)
          fun none => (toRat?_eq_none.mp none).resolve_left plain.1.1.2

end Rangefinder.Number
