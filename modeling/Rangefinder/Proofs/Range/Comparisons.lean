import Rangefinder.Analysis.Refinement
import Rangefinder.Proofs.Machine.Arithmetic
import Rangefinder.Proofs.Range.Constants

/-!
# What a comparison proves

A comparison with a constant that has turned out true or false tells a range for the other side. The
range is an interval whose ends are the constant, moved by one for strict comparisons of integers, and
an infinity. It holds every number for which the comparison turns out that way. NaN makes every
comparison but inequality fail, so the side that is taken on failure admits it.
-/

namespace Rangefinder

namespace Number

variable {a b : Number}

/-- Equality is symmetric. -/
theorem equal_comm : a.equal b = b.equal a := by
  cases a <;> cases b <;> simp only [equal, eq_comm]

/-- Equals are ordered. -/
theorem le_of_equal (h : a.equal b = true) : a.le b = true ∧ b.le a = true := by
  rw [le, le, @equal_comm b a, h, Bool.or_true, Bool.or_true]
  exact ⟨rfl, rfl⟩

/-- Int32 are doubles. -/
theorem isDouble_of_isInt32 {n : Int} (fits : IsInt32 n) (value : a.toRat? = some (n : Rat)) :
    a.IsDouble := by
  intro x own
  obtain rfl := Option.some.inj (value.symm.trans own)
  exact isDouble_ofInt (fits.natAbs_le.trans_lt (by decide)) n rfl

end Number

namespace CompareOp

variable {op : CompareOp} {a b : Number}

/-- Reversed operators swap operands. -/
theorem holds_reverse : op.reverse.holds b a = op.holds a b := by
  cases op <;> simp only [reverse, holds, Number.equal_comm]

/-- Among numbers other than NaN, one of a comparison and its negation holds. -/
theorem holds_negate_of_not (ha : a ≠ .nan) (hb : b ≠ .nan) (fails : op.holds a b = false) :
    op.negate.holds a b = true := by
  have lt_of_not_le : ∀ {x y : Number}, x ≠ .nan → y ≠ .nan → x.le y = false → y.lt x = true := by
    intro x y hx hy h
    by_contra not
    rw [Number.le_of_not_lt hy hx (Bool.eq_false_iff.mpr not)] at h
    cases h
  cases op with
  | lt => exact Number.le_of_not_lt ha hb fails
  | le => exact lt_of_not_le ha hb fails
  | gt => exact Number.le_of_not_lt hb ha fails
  | ge => exact lt_of_not_le hb ha fails
  | eq => simpa [negate, holds] using fails
  | ne => simpa [negate, holds] using fails

end CompareOp

/-- What a strict bound is: the bound as it is, or for integers the next integer. -/
theorem strictBound_cases (isInteger : Bool) (bound : Number) {delta : Int} (small : IsInt32 delta) :
    strictBound isInteger bound delta = bound ∨ isInteger = true ∧ ∃ m : Int,
      bound.toRat? = some (m : Rat) ∧ IsInt32 (m + delta) ∧
        strictBound isInteger bound delta = .ofInt (m + delta) := by
  cases isInteger with
  | false => exact .inl (by cases bound <;> rfl)
  | true =>
    cases bound with
    | finite x =>
      rw [strictBound]
      split
      · next whole =>
        cases checked : checkInt32 (x.num + delta) with
        | none => exact .inl rfl
        | some n =>
          obtain ⟨fits, rfl⟩ := checkInt32_eq_some.mp checked
          refine .inr ⟨rfl, x.num, ?_, fits, rfl⟩
          rw [(Rat.den_eq_one_iff x).mp whole.1]
          rfl
      · exact .inl rfl
    | negZero =>
      refine .inr ⟨rfl, 0, by rw [Int.cast_zero]; rfl, ?_, ?_⟩
      · rwa [Int.zero_add]
      · rw [Int.zero_add]
        rfl
    | _ => exact .inl rfl

section Strict

variable {isInteger : Bool} {a bound : Number}
  (integer : isInteger = true → ∃ n : Int, a.toRat? = some (n : Rat))

include integer

/-- Below a strict bound. -/
theorem le_strictBound (h : a.lt bound = true) : a.le (strictBound isInteger bound (-1)) = true := by
  rcases strictBound_cases isInteger bound (show IsInt32 (-1) by decide) with same |
    ⟨whole, m, value, -, next⟩
  · rw [same]
    exact Number.le_of_lt h
  · obtain ⟨n, own⟩ := integer whole
    rw [Number.lt_of_toRat? own value, decide_eq_true_eq] at h
    rw [next, Number.le_of_toRat? own rfl, decide_eq_true_eq]
    omega

/-- Above a strict bound. -/
theorem strictBound_le (h : bound.lt a = true) : (strictBound isInteger bound 1).le a = true := by
  rcases strictBound_cases isInteger bound (show IsInt32 1 by decide) with same |
    ⟨whole, m, value, -, next⟩
  · rw [same]
    exact Number.le_of_lt h
  · obtain ⟨n, own⟩ := integer whole
    rw [Number.lt_of_toRat? value own, decide_eq_true_eq] at h
    rw [next, Number.le_of_toRat? rfl own, decide_eq_true_eq]
    omega

end Strict

/-- Strict bounds are doubles. -/
theorem isDouble_strictBound {isInteger : Bool} {bound : Number} {delta : Int}
    (double : bound.IsDouble) (small : IsInt32 delta) :
    (strictBound isInteger bound delta).IsDouble := by
  rcases strictBound_cases isInteger bound small with same | ⟨-, m, -, fits, next⟩
  · rwa [same]
  · rw [next]
    exact Number.isDouble_of_isInt32 fits rfl

/-- Strict bounds are not NaN. -/
theorem strictBound_ne_nan {isInteger : Bool} {bound : Number} {delta : Int} (number : bound ≠ .nan)
    (small : IsInt32 delta) : strictBound isInteger bound delta ≠ .nan := by
  rcases strictBound_cases isInteger bound small with same | ⟨-, m, -, -, next⟩
  · rwa [same]
  · rw [next]
    exact Number.noConfusion

namespace CompareOp

/-- The refinement by a comparison with a constant is an interval, open on one side unless the
comparison is for equality. Its ends are doubles when the constant is one, they are in order unless the
constant is NaN, and they span what compares that way. -/
theorem refinement_cases (op : CompareOp) (isInteger : Bool) (bound : Number) :
    op = .ne ∧ op.refinement isInteger bound = .ok none ∨ ∃ lo hi,
      op.refinement isInteger bound = some <$> Range.betweenNumbers lo hi ∧
      (op = .eq ∨ lo = .negInf ∨ hi = .posInf) ∧
      (bound.IsDouble → lo.IsDouble ∧ hi.IsDouble) ∧ (bound ≠ .nan → lo.le hi = true) ∧
      ∀ a, (isInteger = true → ∃ n : Int, a.toRat? = some (n : Rat)) → op.holds a bound = true →
        lo.le a = true ∧ a.le hi = true := by
  have low : Number.negInf.IsDouble := Number.isDouble_of_nonFinite rfl
  have high : Number.posInf.IsDouble := Number.isDouble_of_nonFinite rfl
  have upTo : ∀ {a b : Number}, a.le b = true → Number.negInf.le a = true ∧ a.le b = true :=
    fun le => ⟨Number.negInf_le (Number.ne_nan_of_le le).1, le⟩
  have downTo : ∀ {a b : Number}, b.le a = true → b.le a = true ∧ a.le .posInf = true :=
    fun le => ⟨le, Number.le_posInf (Number.ne_nan_of_le le).2⟩
  cases op with
  | ne => exact .inl ⟨rfl, rfl⟩
  | le => exact .inr ⟨_, _, rfl, .inr (.inl rfl), fun double => ⟨low, double⟩, Number.negInf_le,
      fun a _ h => upTo h⟩
  | ge => exact .inr ⟨_, _, rfl, .inr (.inr rfl), fun double => ⟨double, high⟩, Number.le_posInf,
      fun a _ h => downTo h⟩
  | lt => exact .inr ⟨_, _, rfl, .inr (.inl rfl),
      fun double => ⟨low, isDouble_strictBound double (by decide)⟩,
      fun number => Number.negInf_le (strictBound_ne_nan number (by decide)),
      fun a integer h => upTo (le_strictBound integer h)⟩
  | gt => exact .inr ⟨_, _, rfl, .inr (.inr rfl),
      fun double => ⟨isDouble_strictBound double (by decide), high⟩,
      fun number => Number.le_posInf (strictBound_ne_nan number (by decide)),
      fun a integer h => downTo (strictBound_le integer h)⟩
  | eq => exact .inr ⟨_, _, rfl, .inl rfl, fun double => ⟨double, double⟩, Number.le_refl,
      fun a _ h => (Number.le_of_equal h).symm⟩

/-- Comparisons with NaN tell nothing. -/
theorem refinement_nan (op : CompareOp) (isInteger : Bool) :
    op.refinement isInteger .nan = .ok (if op = .ne then none else some .unknown) := by
  cases op <;> cases isInteger <;> decide +kernel

end CompareOp

namespace Range

variable {r : Range} {lo hi a : Number}

/-- Admitting NaN takes no number away. -/
theorem contains_withNaN (h : r.contains a = true) : r.withNaN.contains a = true := by
  rw [withNaN]
  split
  · exact h
  · by_cases nan : a = .nan
    · exact nan ▸ contains_nan.mpr rfl
    · have beyond : infinityExponent ≤ nanExponent := by decide
      rcases Number.eq_inf_or_value nan with rfl | rfl | ⟨x, value⟩
      · exact contains_negInf.mpr ⟨beyond, (contains_negInf.mp h).2⟩
      · exact contains_posInf.mpr ⟨beyond, (contains_posInf.mp h).2⟩
      · have held := (contains_iff_of_toRat? value).mp h
        refine (contains_iff_of_toRat? value).mpr
          ⟨⟨held.lower, held.upper⟩, held.integral, fun finite => ?_⟩
        exact absurd (canBeNonFinite_iff.mpr beyond) (Bool.eq_false_iff.mp finite)

/-- An interval that reaches to an infinity is open. -/
theorem isClosed_betweenNumbers (run : betweenNumbers lo hi = .ok r)
    (reaches : lo = .negInf ∨ hi = .posInf) : r.isClosed = false := by
  rw [isClosed, Bool.and_eq_false_iff]
  rcases reaches with rfl | rfl
  · obtain ⟨lower, -⟩ := between_of_open run (.inl (by decide))
    exact .inl (lower ▸ rfl)
  · obtain ⟨-, upper, -⟩ := between_of_open run (.inr (by decide))
    exact .inr (upper ▸ rfl)

end Range

namespace CompareOp

variable {op : CompareOp} {isInteger taken : Bool} {a bound : Number} {r : Range}

/-- A comparison with a constant has a refinement, or none when it is for inequality. -/
theorem refinement_yields (op : CompareOp) (isInteger : Bool) (bound : Number) :
    Yields (op.refinement isInteger bound) fun _ => True := by
  by_cases nan : bound = .nan
  · rw [nan, refinement_nan]
    exact .ok trivial
  rcases refinement_cases op isInteger bound with ⟨-, none⟩ | ⟨lo, hi, some, -, -, ordered, -⟩
  · rw [none]
    exact .ok trivial
  · rw [some]
    exact ((Range.betweenNumbers_yields (ordered nan)).mono fun _ _ => trivial).map

/-- The refinement by a comparison other than equality is open. -/
theorem refinement_isClosed (run : op.refinement isInteger bound = .ok (some r)) (ne : op ≠ .eq) :
    r.isClosed = false := by
  rcases refinement_cases op isInteger bound with ⟨-, none⟩ | ⟨lo, hi, some, reaches, -⟩
  · rw [none] at run
    cases run
  · rw [some] at run
    obtain ⟨s, interval, same⟩ := map_eq_ok.mp run
    obtain rfl := Option.some.inj same
    exact Range.isClosed_betweenNumbers interval (reaches.resolve_left ne)

/-- The refinement by a comparison with the given outcome holds every number for which the comparison
has this outcome; on failure that includes NaN, unless the number is an integer. -/
theorem refinement_contains (double : bound.IsDouble) (own : a.IsDouble)
    (integer : isInteger = true → ∃ n : Int, a.toRat? = some (n : Rat))
    (run : (if taken then op else op.negate).refinement isInteger bound = .ok (some r))
    (outcome : op.holds a bound = taken) :
    (if !taken && !isInteger then r.withNaN else r).contains a = true := by
  -- What compares in the way that the refinement is made for lies between its ends.
  have direct : (if taken then op else op.negate).holds a bound = true → r.contains a = true := by
    intro holds
    rcases refinement_cases (if taken then op else op.negate) isInteger bound with ⟨-, none⟩ |
      ⟨lo, hi, some, -, doubles, -, spans⟩
    · rw [none] at run
      cases run
    · rw [some] at run
      obtain ⟨s, interval, same⟩ := map_eq_ok.mp run
      obtain rfl := Option.some.inj same
      obtain ⟨lower, upper⟩ := spans a integer holds
      obtain ⟨low, high⟩ := doubles double
      exact Range.betweenNumbers_contains interval low high own lower upper
  have widen : r.contains a = true →
      (if !taken && !isInteger then r.withNaN else r).contains a = true := by
    intro held
    split
    · exact Range.contains_withNaN held
    · exact held
  cases taken with
  | true => exact widen (direct outcome)
  | false =>
    rw [if_neg (by decide)] at run direct
    by_cases nanBound : bound = .nan
    · rw [nanBound, refinement_nan] at run
      split at run
      · cases run
      · obtain rfl := Option.some.inj (Except.ok.inj run)
        exact widen (Range.unknown_contains a)
    by_cases nan : a = .nan
    · subst nan
      have noInteger : isInteger = false := by
        by_contra whole
        obtain ⟨n, value⟩ := integer (by simpa using whole)
        cases value
      rw [noInteger, Bool.not_false, Bool.and_self, if_pos rfl, Range.withNaN,
        refinement_isClosed run, if_neg (by decide)]
      · exact Range.contains_nan.mpr rfl
      · rintro equality
        obtain rfl : op = .ne := by cases op <;> first | rfl | cases equality
        cases bound <;> cases outcome
    · exact widen (direct (holds_negate_of_not nan nanBound outcome))

end CompareOp

end Rangefinder
