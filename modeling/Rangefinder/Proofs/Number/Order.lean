import Rangefinder.Proofs.Number.Exact

/-!
# The order of numbers

Numbers other than NaN are ordered as their values are, with the infinities at the two ends and both zeros
in one place. NaN is neither below nor above anything. The smaller and the greater of two numbers are one
of the two, and NaN only if one of the two is. A number that is confined to an interval or rounded to an
integer passes no integer on the way.
-/

namespace Rangefinder.Number

variable {a b c : Number} {x y : Rat} {lo hi : Int}

/-- NaN is not ordered. -/
theorem ne_nan_of_le (h : a.le b = true) : a ≠ nan ∧ b ≠ nan := by
  constructor
  · rintro rfl
    cases b <;> cases h
  · rintro rfl
    cases a <;> cases h

/-- Numbers are infinite or have a value. -/
theorem eq_inf_or_value (number : a ≠ nan) : a = negInf ∨ a = posInf ∨ ∃ x, a.toRat? = some x := by
  cases a with
  | nan => exact absurd rfl number
  | negInf => exact .inl rfl
  | posInf => exact .inr (.inl rfl)
  | negZero => exact .inr (.inr ⟨0, rfl⟩)
  | finite x => exact .inr (.inr ⟨x, rfl⟩)

/-- Negative infinity is least. -/
theorem negInf_le (number : b ≠ nan) : negInf.le b = true := by
  cases b with
  | nan => exact absurd rfl number
  | _ => rfl

/-- Infinity is greatest. -/
theorem le_posInf (number : a ≠ nan) : a.le posInf = true := by
  cases a with
  | nan => exact absurd rfl number
  | _ => rfl

/-- Nothing lies above infinity. -/
theorem eq_posInf_of_le (h : posInf.le b = true) : b = posInf := by
  cases b with
  | posInf => rfl
  | _ => cases h

/-- Nothing lies below its negation. -/
theorem eq_negInf_of_le (h : a.le negInf = true) : a = negInf := by
  cases a with
  | negInf => rfl
  | _ => cases h

/-- A number not above a finite one is finite and not above it in value, or infinite below. -/
theorem value_of_le (h : a.le b = true) (value : b.toRat? = some y) :
    a = negInf ∨ ∃ x, a.toRat? = some x ∧ x ≤ y := by
  rcases eq_inf_or_value (ne_nan_of_le h).1 with rfl | rfl | ⟨x, own⟩
  · exact .inl rfl
  · rw [eq_posInf_of_le h] at value
    cases value
  · rw [le_of_values own value, decide_eq_true_iff] at h
    exact .inr ⟨x, own, h⟩

/-- A number not below a finite one is finite and not below it in value, or infinite above. -/
theorem value_of_ge (h : a.le b = true) (value : a.toRat? = some x) :
    b = posInf ∨ ∃ y, b.toRat? = some y ∧ x ≤ y := by
  rcases eq_inf_or_value (ne_nan_of_le h).2 with rfl | rfl | ⟨y, own⟩
  · rw [eq_negInf_of_le h] at value
    cases value
  · exact .inl rfl
  · rw [le_of_values value own, decide_eq_true_iff] at h
    exact .inr ⟨y, own, h⟩

/-- The order is transitive. -/
theorem le_trans (h : a.le b = true) (h' : b.le c = true) : a.le c = true := by
  rcases eq_inf_or_value (ne_nan_of_le h).2 with rfl | rfl | ⟨y, middle⟩
  · obtain rfl := eq_negInf_of_le h
    exact h'
  · obtain rfl := eq_posInf_of_le h'
    exact h
  · rcases value_of_le h middle with rfl | ⟨x, left, le⟩
    · exact negInf_le (ne_nan_of_le h').2
    · rcases value_of_ge h' middle with rfl | ⟨z, right, le'⟩
      · exact le_posInf (ne_nan_of_le h).1
      · rw [le_of_values left right]
        exact decide_eq_true (le.trans le')

/-- It is reflexive. -/
theorem le_refl (number : a ≠ nan) : a.le a = true := by
  rcases eq_inf_or_value number with rfl | rfl | ⟨x, value⟩
  · rfl
  · rfl
  · rw [le_of_values value value]
    exact decide_eq_true le_rfl

/-- It is total. -/
theorem le_of_not_lt (ha : a ≠ nan) (hb : b ≠ nan) (h : a.lt b = false) : b.le a = true := by
  rcases eq_inf_or_value ha with rfl | rfl | ⟨x, left⟩
  · cases b with
    | negInf => rfl
    | nan => exact absurd rfl hb
    | _ => cases h
  · exact le_posInf hb
  · rcases eq_inf_or_value hb with rfl | rfl | ⟨y, right⟩
    · exact negInf_le ha
    · rcases eq_of_toRat? left with rfl | ⟨rfl, -⟩ <;> cases h
    · rw [lt_of_values left right, decide_eq_false_iff_not, not_lt] at h
      rw [le_of_values right left]
      exact decide_eq_true h

/-- Less is at most. -/
theorem le_of_lt (h : a.lt b = true) : a.le b = true := by rw [le, h, Bool.true_or]

/-- Less is not at least. -/
theorem not_le_of_lt (h : a.lt b = true) : b.le a = false := by
  obtain ⟨left, right⟩ := ne_nan_of_le (le_of_lt h)
  rw [← Bool.not_eq_true]
  intro back
  rcases eq_inf_or_value left with rfl | rfl | ⟨x, value⟩
  · rw [eq_negInf_of_le back] at h
    cases h
  · cases b <;> cases h
  · rcases value_of_le back value with rfl | ⟨y, other, le⟩
    · rcases eq_of_toRat? value with rfl | ⟨rfl, -⟩ <;> cases h
    · rw [lt_of_values value other, decide_eq_true_iff] at h
      exact absurd le (not_le.mpr h)

/-- Strict, then weak. -/
theorem lt_of_lt_of_le (h : a.lt b = true) (h' : b.le c = true) : a.lt c = true := by
  rw [← Bool.not_eq_false]
  intro back
  have reversed := le_of_not_lt (ne_nan_of_le (le_of_lt h)).1 (ne_nan_of_le h').2 back
  cases (not_le_of_lt h).symm.trans (le_trans h' reversed)

/-- Weak, then strict. -/
theorem lt_of_le_of_lt (h : a.le b = true) (h' : b.lt c = true) : a.lt c = true := by
  rw [← Bool.not_eq_false]
  intro back
  have reversed := le_of_not_lt (ne_nan_of_le h).1 (ne_nan_of_le (le_of_lt h')).2 back
  cases (not_le_of_lt h').symm.trans (le_trans reversed h)

/-- A number is not below the greater of two integers when it is below neither. -/
theorem ofInt_max_le {i j : Int} :
    (ofInt (max i j)).le a = true ↔ (ofInt i).le a = true ∧ (ofInt j).le a = true := by
  constructor
  · intro h
    exact ⟨le_trans (le_ofInt.trans (decide_eq_true (le_max_left i j))) h,
      le_trans (le_ofInt.trans (decide_eq_true (le_max_right i j))) h⟩
  · rintro ⟨left, right⟩
    rcases max_choice i j with same | same
    · rwa [same]
    · rwa [same]

/-- A number is not above the smaller of two integers when it is above neither. -/
theorem le_ofInt_min {i j : Int} :
    a.le (ofInt (min i j)) = true ↔ a.le (ofInt i) = true ∧ a.le (ofInt j) = true := by
  constructor
  · intro h
    exact ⟨le_trans h (le_ofInt.trans (decide_eq_true (min_le_left i j))),
      le_trans h (le_ofInt.trans (decide_eq_true (min_le_right i j)))⟩
  · rintro ⟨left, right⟩
    rcases min_choice i j with same | same
    · rwa [same]
    · rwa [same]

/-! ### Sums of integers

A sum of integers that is too large for a double is rounded, but not back into int32, so a comparison with
an int32 decides about the sum itself. -/

section Sums

variable {i j l : Int} (left : a.toRat? = some (i : Rat)) (right : b.toRat? = some (j : Rat))

include left right

/-- A bound below a sum. -/
theorem le_sum_of_le_add (fits : IsInt32 l) (h : (ofInt l).le (a.add b) = true) : l ≤ i + j := by
  rcases add_of_toRat? left right with rounded | ⟨zero, same⟩
  · rw [rounded] at h
    by_cases small : (i + j).natAbs ≤ 9007199254740992
    · rwa [ofRat_intCast small, le_ofInt, decide_eq_true_iff] at h
    · have beyond := ofRat_beyond_int32 (not_le.mp small)
      have := fits.natAbs_le
      split at beyond
      · have below := lt_of_le_of_lt h beyond
        rw [lt_ofInt, decide_eq_true_iff] at below
        exact absurd fits.1 (not_le.mpr below)
      · omega
  · rw [zero, le_of_toRat? (b := 0) rfl rfl, decide_eq_true_iff] at h
    exact same ▸ h

/-- A bound above a sum. -/
theorem sum_lt_of_add_lt (fits : IsInt32 l) (h : (a.add b).lt (ofInt l) = true) : i + j < l := by
  rcases add_of_toRat? left right with rounded | ⟨zero, same⟩
  · rw [rounded] at h
    by_cases small : (i + j).natAbs ≤ 9007199254740992
    · rwa [ofRat_intCast small, lt_ofInt, decide_eq_true_iff] at h
    · have beyond := ofRat_beyond_int32 (not_le.mp small)
      have := fits.natAbs_le
      split at beyond
      · omega
      · have above := lt_of_lt_of_le beyond (le_of_lt h)
        rw [lt_ofInt, decide_eq_true_iff] at above
        exact absurd fits.2 (not_le.mpr above)
  · rw [zero, lt_of_toRat? (a := 0) rfl rfl, decide_eq_true_iff] at h
    exact same ▸ h

end Sums

/-- The smaller of two numbers is one of them, and not above either. -/
theorem minimum_cases (ha : a ≠ nan) (hb : b ≠ nan) :
    (a.minimum b = a ∨ a.minimum b = b) ∧ (a.minimum b).le a = true ∧ (a.minimum b).le b = true := by
  have numbers : (a.isNaN || b.isNaN) = false := by
    rw [Bool.or_eq_false_iff, ← Bool.not_eq_true, ← Bool.not_eq_true, isNaN_iff, isNaN_iff]
    exact ⟨ha, hb⟩
  rw [minimum, numbers]
  cases order : b.lt a with
  | true => exact ⟨.inr rfl, by simp [le, order], le_refl hb⟩
  | false => exact ⟨.inl rfl, le_refl ha, le_of_not_lt hb ha order⟩

/-- The greater of two numbers is one of them, and not below either. -/
theorem maximum_cases (ha : a ≠ nan) (hb : b ≠ nan) :
    (a.maximum b = a ∨ a.maximum b = b) ∧ a.le (a.maximum b) = true ∧ b.le (a.maximum b) = true := by
  have numbers : (a.isNaN || b.isNaN) = false := by
    rw [Bool.or_eq_false_iff, ← Bool.not_eq_true, ← Bool.not_eq_true, isNaN_iff, isNaN_iff]
    exact ⟨ha, hb⟩
  rw [maximum, numbers]
  cases order : a.lt b with
  | true => exact ⟨.inr rfl, by simp [le, order], le_refl hb⟩
  | false => exact ⟨.inl rfl, le_refl ha, le_of_not_lt ha hb order⟩

/-- A number other than NaN that is confined to an interval lies in it. -/
theorem clamp_between (number : a ≠ nan) (le : lo ≤ hi) :
    ∃ q, (a.clamp (ofInt lo) (ofInt hi)).toRat? = some q ∧ (lo : Rat) ≤ q ∧ q ≤ hi := by
  rw [clamp]
  split
  · exact ⟨lo, rfl, le_rfl, Int.cast_le.mpr le⟩
  next above =>
  split
  · exact ⟨hi, rfl, Int.cast_le.mpr le, le_rfl⟩
  next below =>
  have lower : (ofInt lo).le a = true := le_of_not_lt number nofun (Bool.eq_false_iff.mpr above)
  have upper : a.le (ofInt hi) = true := le_of_not_lt nofun number (Bool.eq_false_iff.mpr below)
  rcases value_of_le upper rfl with rfl | ⟨q, value, le⟩
  · cases lower
  · rw [le_of_values rfl value, decide_eq_true_iff] at lower
    exact ⟨q, value, lower, le⟩

/-- Rounding carries a number past no integer. -/
theorem roundEven_between (value : a.toRat? = some x) (lower : (lo : Rat) ≤ x) (upper : x ≤ hi) :
    ∃ k : Int, a.roundEven.toRat? = some (k : Rat) ∧ lo ≤ k ∧ k ≤ hi := by
  have above : lo ≤ nearestEven x := by
    refine le_nearestQuotient x.den_pos ?_
    have := (Rat.le_iff _ _).mp lower
    simpa using this
  have below : nearestEven x ≤ hi := by
    refine nearestQuotient_le x.den_pos ?_
    have := (Rat.le_iff _ _).mp upper
    simpa using this
  rcases eq_of_toRat? value with rfl | ⟨rfl, rfl⟩
  · rw [roundEven]
    split
    · next zero =>
      rw [zero.2] at above below
      exact ⟨0, rfl, above, below⟩
    · exact ⟨_, rfl, above, below⟩
  · exact ⟨0, rfl, above, below⟩

end Rangefinder.Number
