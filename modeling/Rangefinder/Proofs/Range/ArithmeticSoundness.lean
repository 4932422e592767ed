import Rangefinder.Proofs.Number.Exact
import Rangefinder.Proofs.Range.Arithmetic
import Rangefinder.Proofs.Range.Membership

/-!
# Sums, differences and products lie in their ranges

The operands are finite numbers, infinities or NaN, and the results are those before rounding. For finite
operands the bounds, the fractions and the exponent of the result are looked at one by one; where a
result has no bound on a side, nothing is to be shown there. An operand beyond the finite numbers has an
open side, so the result has one too and keeps the exponent that stands for infinities or NaN.

A difference is a sum with the mirror image of the subtrahend's range. The mirror image of a range need
not be one that obeys the rules, because the least int32 has no positive counterpart; what sums need of
their operands is less, and mirroring keeps it.
-/

namespace Rangefinder.Range

variable {r s t : Range} {a b : Number} {x y : Rat} {e : Nat} {p q : Option Int}

/-! ### Sides and exponents -/

/-- Infinite members show in the exponent. -/
theorem exponent_of_isInfinite (infinite : a.isInfinite = true) (member : r.contains a = true) :
    infinityExponent ≤ r.exponent := by
  cases a with
  | posInf => exact (contains_posInf.mp member).1
  | negInf => exact (contains_negInf.mp member).1
  | _ => cases infinite

/-- The exponent means something, and a closed range has that of finite numbers. -/
structure Regular (r : Range) : Prop where
  isExponent : IsExponent r.exponent
  finite_of_isClosed : r.isClosed = true → r.exponent < infinityExponent

/-- Normal ranges are regular. -/
theorem Normal.regular (n : r.Normal) : r.Regular :=
  ⟨n.isExponent, fun closed => (n.exponent_le closed).trans_lt (by decide)⟩

/-- Beyond the finite numbers a side is open. -/
theorem Regular.open_of_nonFinite (regular : r.Regular) (nonFinite : infinityExponent ≤ r.exponent) :
    r.lower = none ∨ r.upper = none := by
  refine isClosed_eq_false_iff.mp (Bool.eq_false_iff.mpr fun closed => ?_)
  exact (regular.finite_of_isClosed closed).not_ge nonFinite

/-- A missing bound is absent. -/
theorem onBounds_of_none {op : Int → Int → Int} {absent z : Int} (run : onBounds op absent p q = .ok z)
    (missing : p = none ∨ q = none) : z = absent := by
  rcases missing with rfl | rfl
  · exact (Except.ok.inj run).symm
  · cases p <;> exact (Except.ok.inj run).symm

/-- Lower bounds add up. -/
theorem onBounds_add_le {l : Int} (run : onBounds (· + ·) noLowerBound p q = .ok l)
    (hx : ∀ l ∈ p, (l : Rat) ≤ x) (hy : ∀ l ∈ q, (l : Rat) ≤ y) : l < int32Min ∨ (l : Rat) ≤ x + y := by
  rcases p with - | i
  · exact .inl (onBounds_of_none run (.inl rfl) ▸ by decide)
  · rcases q with - | j
    · exact .inl (onBounds_of_none run (.inr rfl) ▸ by decide)
    · obtain ⟨-, rfl⟩ := fitInt64_eq_ok.mp run
      rw [Int.cast_add]
      exact .inr (add_le_add (hx i rfl) (hy j rfl))

/-- Upper bounds add up. -/
theorem le_onBounds_add {h : Int} (run : onBounds (· + ·) noUpperBound p q = .ok h)
    (hx : ∀ h ∈ p, x ≤ (h : Rat)) (hy : ∀ h ∈ q, y ≤ (h : Rat)) : int32Max < h ∨ x + y ≤ (h : Rat) := by
  rcases p with - | i
  · exact .inl (onBounds_of_none run (.inl rfl) ▸ by decide)
  · rcases q with - | j
    · exact .inl (onBounds_of_none run (.inr rfl) ▸ by decide)
    · obtain ⟨-, rfl⟩ := fitInt64_eq_ok.mp run
      rw [Int.cast_add]
      exact .inr (add_le_add (hx i rfl) (hy j rfl))

/-- What the exponent of a sum can be. -/
theorem sumExponent_cases (run : sumExponent r s = .ok e) :
    infinityExponent ≤ r.exponent ∧ infinityExponent ≤ s.exponent ∧ e = nanExponent ∨
      r.exponent < infinityExponent ∧ s.exponent < infinityExponent ∧
        e = max r.exponent s.exponent + 1 ∨
      ¬(infinityExponent ≤ r.exponent ∧ infinityExponent ≤ s.exponent) ∧
        infinityExponent ≤ max r.exponent s.exponent ∧ e = max r.exponent s.exponent := by
  simp only [sumExponent, Bool.and_eq_true, canBeNonFinite_iff] at run
  split at run
  · next both => exact .inl ⟨both.1, both.2, (Except.ok.inj run).symm⟩
  · next notBoth =>
    split at run
    · next finite =>
      obtain ⟨-, rfl⟩ := fitUint16_eq_ok.mp run
      refine .inr (.inl ⟨?_, ?_, rfl⟩)
      · exact ((le_max_left _ _).trans finite).trans_lt (by decide)
      · exact ((le_max_right _ _).trans finite).trans_lt (by decide)
    · next beyond => exact .inr (.inr ⟨notBoth, not_le.mp beyond, (Except.ok.inj run).symm⟩)

/-! ### Sums and differences -/

/-- Sums are enclosed. -/
theorem add_encloses (run : r.add s = .ok t) (hx : r.Encloses x) (hy : s.Encloses y) :
    t.Encloses (x + y) := by
  obtain ⟨l, lower, run⟩ := bind_eq_ok.mp run
  obtain ⟨h, upper, run⟩ := bind_eq_ok.mp run
  obtain ⟨e, -, run⟩ := bind_eq_ok.mp run
  exact between_encloses run (onBounds_add_le lower hx.lower hy.lower)
    (le_onBounds_add upper hx.upper hy.upper)

/-- The range of a sum holds the sums of finite numbers. -/
theorem add_holds (run : r.add s = .ok t) (hx : r.Holds x) (hy : s.Holds y) : t.Holds (x + y) := by
  obtain ⟨l, lower, run⟩ := bind_eq_ok.mp run
  obtain ⟨h, upper, run⟩ := bind_eq_ok.mp run
  obtain ⟨e, exponent, run⟩ := bind_eq_ok.mp run
  refine between_holds run (onBounds_add_le lower hx.lower hy.lower)
    (le_onBounds_add upper hx.upper hy.upper) (fun whole => ?_) fun finite => ?_
  · obtain ⟨left, right⟩ := Bool.or_eq_false_iff.mp whole
    obtain ⟨i, rfl⟩ := hx.integral left
    obtain ⟨j, rfl⟩ := hy.integral right
    exact ⟨i + j, Int.cast_add i j⟩
  · rcases sumExponent_cases exponent with ⟨-, -, rfl⟩ | ⟨left, right, rfl⟩ | ⟨-, beyond, rfl⟩
    · exact absurd finite (by decide)
    · calc |x + y| ≤ |x| + |y| := abs_add_le x y
        _ < (pow2 (r.exponent + 1) : Nat) + (pow2 (s.exponent + 1) : Nat) :=
          add_lt_add (hx.covered (decide_eq_false left.not_ge))
            (hy.covered (decide_eq_false right.not_ge))
        _ ≤ (pow2 (max r.exponent s.exponent + 1 + 1) : Nat) := by
          rw [← Nat.cast_add]
          exact Nat.cast_le.mpr (pow2_add_le _ _)
    · exact absurd finite beyond.not_gt

/-- Infinities may cancel to NaN, and NaN stays. -/
theorem sumExponent_eq_nan (run : sumExponent r s = .ok e)
    (special : r.exponent = nanExponent ∨ s.exponent = nanExponent ∨
      infinityExponent ≤ r.exponent ∧ infinityExponent ≤ s.exponent) : e = nanExponent := by
  have possible := sumExponent_cases run
  unfold infinityExponent nanExponent at *
  omega

/-- Sums keep the larger exponent. -/
theorem max_le_sumExponent (run : sumExponent r s = .ok e) (hr : IsExponent r.exponent)
    (hs : IsExponent s.exponent) : max r.exponent s.exponent ≤ e := by
  have possible := sumExponent_cases run
  unfold IsExponent maxFiniteExponent infinityExponent nanExponent at *
  omega

/-- The range of a sum holds the sums of all numbers of its operands, the infinities and NaN included. -/
theorem add_contains (run : r.add s = .ok t) (hr : r.Regular) (hs : s.Regular)
    (ha : r.contains a = true) (hb : s.contains b = true) : t.contains (a.exactAdd b) = true := by
  rcases Number.exactAdd_cases a b with ⟨x, y, va, vb, sum⟩ | other
  · rw [contains_iff_of_toRat? va] at ha
    rw [contains_iff_of_toRat? vb] at hb
    exact (contains_iff_of_toRat? sum).mpr (add_holds run ha hb)
  obtain ⟨l, lower, run⟩ := bind_eq_ok.mp run
  obtain ⟨h, upper, run⟩ := bind_eq_ok.mp run
  obtain ⟨e, exponent, run⟩ := bind_eq_ok.mp run
  have least := max_le_iff.mp (max_le_sumExponent exponent hr.isExponent hs.isExponent)
  have below : r.lower = none ∨ s.lower = none → l < int32Min :=
    fun missing => onBounds_of_none lower missing ▸ by decide
  have above : r.upper = none ∨ s.upper = none → int32Max < h :=
    fun missing => onBounds_of_none upper missing ▸ by decide
  rcases other with ⟨result, operands⟩ | ⟨result, operands⟩ | ⟨result, operands⟩
  · have special : r.exponent = nanExponent ∨ s.exponent = nanExponent ∨
        infinityExponent ≤ r.exponent ∧ infinityExponent ≤ s.exponent := by
      rcases operands with rfl | rfl | ⟨left, right⟩
      · exact .inl (contains_nan.mp ha)
      · exact .inr (.inl (contains_nan.mp hb))
      · exact .inr (.inr ⟨exponent_of_isInfinite left ha, exponent_of_isInfinite right hb⟩)
    obtain rfl := sumExponent_eq_nan exponent special
    have nonFinite : infinityExponent ≤ r.exponent ∨ infinityExponent ≤ s.exponent := by
      rcases special with left | right | both
      · exact .inl (left ▸ by decide)
      · exact .inr (right ▸ by decide)
      · exact .inl both.1
    rw [result]
    refine between_contains_nan run ?_
    rcases nonFinite with left | right
    · exact (hr.open_of_nonFinite left).imp (below ∘ .inl) (above ∘ .inl)
    · exact (hs.open_of_nonFinite right).imp (below ∘ .inr) (above ∘ .inr)
  · rw [result]
    rcases operands with rfl | rfl
    · obtain ⟨infinite, isOpen⟩ := contains_posInf.mp ha
      exact between_contains_posInf run (above (.inl isOpen)) (infinite.trans least.1)
    · obtain ⟨infinite, isOpen⟩ := contains_posInf.mp hb
      exact between_contains_posInf run (above (.inr isOpen)) (infinite.trans least.2)
  · rw [result]
    rcases operands with rfl | rfl
    · obtain ⟨infinite, isOpen⟩ := contains_negInf.mp ha
      exact between_contains_negInf run (below (.inl isOpen)) (infinite.trans least.1)
    · obtain ⟨infinite, isOpen⟩ := contains_negInf.mp hb
      exact between_contains_negInf run (below (.inr isOpen)) (infinite.trans least.2)

/-- The range of the negated numbers, with the exponent as it is. -/
def mirror (r : Range) : Range := { r with lower := r.upper.map Neg.neg, upper := r.lower.map Neg.neg }

/-- A difference as a sum. -/
theorem onBounds_sub (absent : Int) (p q : Option Int) :
    onBounds (· - ·) absent p q = onBounds (· + ·) absent p (q.map Neg.neg) := by
  cases p <;> cases q <;> rfl

/-- A difference is a sum with the mirror image. -/
theorem sub_eq_add_mirror : r.sub s = r.add s.mirror := by
  rw [sub, onBounds_sub, onBounds_sub]
  rfl

/-- Mirrored ranges are regular. -/
theorem Regular.mirror (regular : s.Regular) : s.mirror.Regular := by
  refine ⟨regular.isExponent, fun closed => regular.finite_of_isClosed ?_⟩
  rwa [isClosed, Range.mirror, Option.isSome_map, Option.isSome_map, Bool.and_comm] at closed

/-- They hold the negation. -/
theorem mirror_holds (member : s.Holds y) : s.mirror.Holds (-y) := by
  refine ⟨⟨fun l bound => ?_, fun h bound => ?_⟩, fun whole => ?_, fun finite => ?_⟩
  · obtain ⟨h, upper, rfl⟩ := Option.map_eq_some_iff.mp bound
    rw [Int.cast_neg]
    exact neg_le_neg (member.upper h upper)
  · obtain ⟨l, lower, rfl⟩ := Option.map_eq_some_iff.mp bound
    rw [Int.cast_neg]
    exact neg_le_neg (member.lower l lower)
  · obtain ⟨n, rfl⟩ := member.integral whole
    exact ⟨-n, Int.cast_neg n⟩
  · rw [abs_neg]
    exact member.covered finite

/-- They contain negated infinities. -/
theorem mirror_contains (member : s.contains b = true) : s.mirror.contains b.neg = true := by
  cases value : b.toRat? with
  | some y =>
    rw [contains_iff_of_toRat? value] at member
    exact (contains_iff_of_toRat? (Number.toRat?_neg value)).mpr (mirror_holds member)
  | none =>
    cases b with
    | nan => exact member
    | posInf =>
      obtain ⟨infinite, isOpen⟩ := contains_posInf.mp member
      exact contains_negInf.mpr ⟨infinite, Option.map_eq_none_iff.mpr isOpen⟩
    | negInf =>
      obtain ⟨infinite, isOpen⟩ := contains_negInf.mp member
      exact contains_posInf.mpr ⟨infinite, Option.map_eq_none_iff.mpr isOpen⟩
    | negZero => cases value
    | finite y => cases value

/-! ### Products -/

/-- What the exponent of a product can be. -/
theorem productExponent_cases (run : productExponent r s = .ok e) :
    r.exponent < infinityExponent ∧ s.exponent < infinityExponent ∧
        (e = r.exponent + s.exponent + 1 ∨ e = infinityExponent) ∨
      e = infinityExponent ∧ r.exponent ≠ nanExponent ∧ s.exponent ≠ nanExponent ∧
        ¬(r.canBeZero = true ∧ infinityExponent ≤ s.exponent) ∧
        ¬(s.canBeZero = true ∧ infinityExponent ≤ r.exponent) ∨
      e = nanExponent ∧ (infinityExponent ≤ r.exponent ∨ infinityExponent ≤ s.exponent) := by
  rw [productExponent] at run
  split at run
  · next finite =>
    rw [Bool.and_eq_true, Bool.not_eq_true', Bool.not_eq_true'] at finite
    obtain ⟨bits, -⟩ := bits_eq finite.1
    obtain ⟨bits', -⟩ := bits_eq finite.2
    simp only [bits, bits', bind_eq_ok, fitUint16_eq_ok, Except.ok.injEq, exists_eq_left'] at run
    obtain ⟨k, ⟨-, rfl⟩, run⟩ := run
    refine .inl ⟨not_le.mp (of_decide_eq_false finite.1), not_le.mp (of_decide_eq_false finite.2), ?_⟩
    obtain rfl := pure_eq_ok.mp run
    split
    · exact .inr rfl
    · exact .inl (by omega)
  · next nonFinite =>
    have nonFinite : infinityExponent ≤ r.exponent ∨ infinityExponent ≤ s.exponent := by
      rw [← canBeNonFinite_iff, ← canBeNonFinite_iff]
      cases left : r.canBeNonFinite with
      | true => exact .inl rfl
      | false =>
        cases right : s.canBeNonFinite with
        | true => exact .inr rfl
        | false => exact absurd (by rw [left, right]; rfl) nonFinite
    split at run
    · next plain =>
      simp only [Bool.and_eq_true, Bool.not_eq_true', Bool.and_eq_false_iff, canBeNaN,
        beq_eq_false_iff_ne, canBeNonFinite, decide_eq_false_iff_not] at plain
      obtain ⟨⟨⟨left, right⟩, zero⟩, zero'⟩ := plain
      refine .inr (.inl ⟨(pure_eq_ok.mp run).symm, left, right, ?_, ?_⟩)
      · rintro ⟨holds, infinite⟩
        exact zero.elim (by simp [holds]) (· infinite)
      · rintro ⟨holds, infinite⟩
        exact zero'.elim (by simp [holds]) (· infinite)
    · exact .inr (.inr ⟨(pure_eq_ok.mp run).symm, nonFinite⟩)

/-- A zero times an infinity is NaN, and NaN stays. -/
theorem productExponent_eq_nan (run : productExponent r s = .ok e)
    (special : r.exponent = nanExponent ∨ s.exponent = nanExponent ∨
      r.canBeZero = true ∧ infinityExponent ≤ s.exponent ∨
      s.canBeZero = true ∧ infinityExponent ≤ r.exponent) :
    e = nanExponent ∧ (infinityExponent ≤ r.exponent ∨ infinityExponent ≤ s.exponent) := by
  have least : infinityExponent ≤ nanExponent := by decide
  rcases productExponent_cases run with ⟨left, right, -⟩ | ⟨-, left, right, zero, zero'⟩ | nan
  · rcases special with special | special | ⟨-, special⟩ | ⟨-, special⟩
    · exact absurd (special ▸ left) least.not_gt
    · exact absurd (special ▸ right) least.not_gt
    · exact absurd right special.not_gt
    · exact absurd left special.not_gt
  · rcases special with special | special | special | special
    · exact absurd special left
    · exact absurd special right
    · exact absurd special zero
    · exact absurd special zero'
  · exact nan

/-- Infinite factors show. -/
theorem le_productExponent (run : productExponent r s = .ok e)
    (nonFinite : infinityExponent ≤ r.exponent ∨ infinityExponent ≤ s.exponent) :
    infinityExponent ≤ e := by
  rcases productExponent_cases run with ⟨left, right, -⟩ | ⟨rfl, -⟩ | ⟨rfl, -⟩
  · exact absurd nonFinite (not_or.mpr ⟨left.not_ge, right.not_ge⟩)
  · exact le_rfl
  · decide

/-- A product lies between the extreme products of the endpoints. -/
theorem mul_between {a b c d : Rat} (hx : a ≤ x ∧ x ≤ b) (hy : c ≤ y ∧ y ≤ d) :
    min (min (a * c) (a * d)) (min (b * c) (b * d)) ≤ x * y ∧
      x * y ≤ max (max (a * c) (a * d)) (max (b * c) (b * d)) := by
  -- The product is monotone in one factor while the other one is fixed.
  have side : ∀ {z z' : Rat}, z ≤ x ∧ x ≤ z' →
      min (z * y) (z' * y) ≤ x * y ∧ x * y ≤ max (z * y) (z' * y) := by
    rintro z z' ⟨low, high⟩
    rcases le_total 0 y with pos | neg
    · exact ⟨min_le_of_left_le (mul_le_mul_of_nonneg_right low pos),
        le_max_of_le_right (mul_le_mul_of_nonneg_right high pos)⟩
    · exact ⟨min_le_of_right_le (mul_le_mul_of_nonpos_right high neg),
        le_max_of_le_left (mul_le_mul_of_nonpos_right low neg)⟩
  have other : ∀ z : Rat, min (z * c) (z * d) ≤ z * y ∧ z * y ≤ max (z * c) (z * d) := by
    intro z
    rcases le_total 0 z with pos | neg
    · exact ⟨min_le_of_left_le (mul_le_mul_of_nonneg_left hy.1 pos),
        le_max_of_le_right (mul_le_mul_of_nonneg_left hy.2 pos)⟩
    · exact ⟨min_le_of_right_le (mul_le_mul_of_nonpos_left hy.2 neg),
        le_max_of_le_left (mul_le_mul_of_nonpos_left hy.1 neg)⟩
  obtain ⟨low, high⟩ := side hx
  exact ⟨(min_le_min (other a).1 (other b).1).trans low, high.trans (max_le_max (other a).2 (other b).2)⟩

/-- The bounds of a product, for whichever signs the endpoints have, are the extreme products of the
endpoints. -/
theorem productBounds_eq {a b c d l h : Int} (run : productBounds a b c d = .ok (l, h)) (ab : a ≤ b)
    (cd : c ≤ d) : l = min (min (a * c) (a * d)) (min (b * c) (b * d)) ∧
      h = max (max (a * c) (a * d)) (max (b * c) (b * d)) := by
  have ends : ∀ {i j : Int}, (do return (← fitInt64 i, ← fitInt64 j) : Except Fault (Int × Int)) =
      .ok (l, h) → i = l ∧ j = h := by
    intro i j run
    obtain ⟨i', first, run⟩ := bind_eq_ok.mp run
    obtain ⟨j', second, run⟩ := bind_eq_ok.mp run
    obtain ⟨-, rfl⟩ := fitInt64_eq_ok.mp first
    obtain ⟨-, rfl⟩ := fitInt64_eq_ok.mp second
    exact Prod.mk.inj (pure_eq_ok.mp run)
  have above : ∀ {z : Int}, 0 ≤ z → z * c ≤ z * d := fun pos => Int.mul_le_mul_of_nonneg_left cd pos
  have below : ∀ {z : Int}, z ≤ 0 → z * d ≤ z * c := fun neg => Int.mul_le_mul_of_nonpos_left neg cd
  have above' : ∀ {z : Int}, 0 ≤ z → a * z ≤ b * z := fun pos => Int.mul_le_mul_of_nonneg_right ab pos
  have below' : ∀ {z : Int}, z ≤ 0 → b * z ≤ a * z := fun neg => Int.mul_le_mul_of_nonpos_right ab neg
  rw [productBounds] at run
  split at run
  · next signs =>
    obtain ⟨rfl, rfl⟩ := ends run
    have := above signs.1
    have := above (signs.1.trans ab)
    have := above' signs.2
    have := above' (signs.2.trans cd)
    omega
  · split at run
    · next signs =>
      obtain ⟨rfl, rfl⟩ := ends run
      have := below signs.1
      have := below (ab.trans signs.1)
      have := below' signs.2
      have := below' (cd.trans signs.2)
      omega
    · split at run
      · next signs =>
        obtain ⟨rfl, rfl⟩ := ends run
        have := above signs.1
        have := above (signs.1.trans ab)
        have := below' signs.2
        have := below' (cd.trans signs.2)
        omega
      · split at run
        · next signs =>
          obtain ⟨rfl, rfl⟩ := ends run
          have := below signs.1
          have := below (ab.trans signs.1)
          have := above' signs.2
          have := above' (signs.2.trans cd)
          omega
        · simp only [bind_eq_ok, fitInt64_eq_ok, pure_eq_ok, Prod.mk.injEq] at run
          obtain ⟨w, ⟨-, rfl⟩, x, ⟨-, rfl⟩, y, ⟨-, rfl⟩, z, ⟨-, rfl⟩, rfl, rfl⟩ := run
          exact ⟨rfl, rfl⟩

/-- Corners bound a product. -/
theorem productBounds_between {a b c d l h : Int} (run : productBounds a b c d = .ok (l, h))
    (hx : (a : Rat) ≤ x ∧ x ≤ b) (hy : (c : Rat) ≤ y ∧ y ≤ d) : (l : Rat) ≤ x * y ∧ x * y ≤ h := by
  obtain ⟨rfl, rfl⟩ := productBounds_eq run (Int.cast_le.mp (hx.1.trans hx.2))
    (Int.cast_le.mp (hy.1.trans hy.2))
  simp only [Int.cast_min, Int.cast_max, Int.cast_mul]
  exact mul_between hx hy

/-- The endpoints of a product: the extreme products if all sides are bounded, beyond int32 otherwise. -/
inductive ProductEnds (r s : Range) : Int → Int → Prop
  | bounded {l h : Int} (left : r.isClosed = true) (right : s.isClosed = true)
      (product : productBounds r.lo r.hi s.lo s.hi = .ok (l, h)) : ProductEnds r s l h
  | unbounded : ProductEnds r s noLowerBound noUpperBound

/-- How the range of a product is built. -/
theorem mul_cases (run : r.mul s = .ok t) : ∃ l h e, productExponent r s = .ok e ∧
    between l h (r.fractional || s.fractional) e = .ok t ∧ ProductEnds r s l h := by
  obtain ⟨e, exponent, run⟩ := bind_eq_ok.mp run
  split at run
  · next closed =>
    obtain ⟨left, right⟩ := Bool.and_eq_true_iff.mp closed
    obtain ⟨⟨l, h⟩, product, run⟩ := bind_eq_ok.mp run
    exact ⟨l, h, e, exponent, run, .bounded left right product⟩
  · exact ⟨_, _, e, exponent, run, .unbounded⟩

/-- Ends bound a product. -/
theorem ProductEnds.enclose {l h : Int} (ends : ProductEnds r s l h) (hx : r.Encloses x)
    (hy : s.Encloses y) : (l < int32Min ∨ (l : Rat) ≤ x * y) ∧ (int32Max < h ∨ x * y ≤ h) := by
  cases ends with
  | bounded left right product =>
    exact (productBounds_between product (hx.between_of_isClosed left)
      (hy.between_of_isClosed right)).imp .inr .inr
  | unbounded => exact ⟨.inl (by decide), .inl (by decide)⟩

/-- Products are enclosed. -/
theorem mul_encloses (run : r.mul s = .ok t) (hx : r.Encloses x) (hy : s.Encloses y) :
    t.Encloses (x * y) := by
  obtain ⟨l, h, e, -, run, ends⟩ := mul_cases run
  obtain ⟨lower, upper⟩ := ends.enclose hx hy
  exact between_encloses run lower upper

/-- The range of a product holds the products of finite numbers. -/
theorem mul_holds (run : r.mul s = .ok t) (hx : r.Holds x) (hy : s.Holds y) : t.Holds (x * y) := by
  obtain ⟨l, h, e, exponent, run, ends⟩ := mul_cases run
  obtain ⟨lower, upper⟩ := ends.enclose hx.toEncloses hy.toEncloses
  refine between_holds run lower upper (fun whole => ?_) fun finite => ?_
  · obtain ⟨left, right⟩ := Bool.or_eq_false_iff.mp whole
    obtain ⟨i, rfl⟩ := hx.integral left
    obtain ⟨j, rfl⟩ := hy.integral right
    exact ⟨i * j, Int.cast_mul i j⟩
  · rcases productExponent_cases exponent with ⟨left, right, rfl | rfl⟩ | ⟨rfl, -⟩ | ⟨rfl, -⟩
    · calc |x * y| = |x| * |y| := abs_mul x y
        _ < (pow2 (r.exponent + 1) : Nat) * (pow2 (s.exponent + 1) : Nat) :=
          mul_lt_mul'' (hx.covered (decide_eq_false left.not_ge))
            (hy.covered (decide_eq_false right.not_ge)) (abs_nonneg x) (abs_nonneg y)
        _ = (pow2 (r.exponent + s.exponent + 1 + 1) : Nat) := by
          rw [← Nat.cast_mul, pow2_mul_pow2]
    · exact absurd finite (by decide)
    · exact absurd finite (by decide)
    · exact absurd finite (by decide)

/-- Zero belongs to a range only where the endpoints admit it. -/
theorem canBeZero_of_holds (member : r.Holds 0) : r.canBeZero = true := by
  have low : (r.lo : Rat) ≤ (0 : Int) := member.lo_le (by norm_num [int32Min])
  have high : ((0 : Int) : Rat) ≤ r.hi := member.le_hi (by norm_num [int32Max])
  rw [canBeZero, decide_eq_true (Int.cast_le.mp low), decide_eq_true (Int.cast_le.mp high)]
  rfl

/-- The range of a product holds the products of all numbers of its operands, the infinities and NaN
included. -/
theorem mul_contains (run : r.mul s = .ok t) (hr : r.Regular) (hs : s.Regular)
    (ha : r.contains a = true) (hb : s.contains b = true) : t.contains (a.exactMul b) = true := by
  rcases Number.exactMul_cases a b with ⟨x, y, va, vb, product⟩ | other
  · rw [contains_iff_of_toRat? va] at ha
    rw [contains_iff_of_toRat? vb] at hb
    exact (contains_iff_of_toRat? product).mpr (mul_holds run ha hb)
  obtain ⟨l, h, e, exponent, run, ends⟩ := mul_cases run
  have noBounds : infinityExponent ≤ r.exponent ∨ infinityExponent ≤ s.exponent →
      l = noLowerBound ∧ h = noUpperBound := by
    intro nonFinite
    cases ends with
    | bounded left right =>
      exact absurd nonFinite (not_or.mpr
        ⟨(hr.finite_of_isClosed left).not_ge, (hs.finite_of_isClosed right).not_ge⟩)
    | unbounded => exact ⟨rfl, rfl⟩
  rcases other with ⟨result, operands⟩ | ⟨result, operands⟩
  · have special : r.exponent = nanExponent ∨ s.exponent = nanExponent ∨
        r.canBeZero = true ∧ infinityExponent ≤ s.exponent ∨
        s.canBeZero = true ∧ infinityExponent ≤ r.exponent := by
      rcases operands with rfl | rfl | ⟨zero, infinite⟩ | ⟨infinite, zero⟩
      · exact .inl (contains_nan.mp ha)
      · exact .inr (.inl (contains_nan.mp hb))
      · rw [contains_iff_of_toRat? zero] at ha
        exact .inr (.inr (.inl ⟨canBeZero_of_holds ha, exponent_of_isInfinite infinite hb⟩))
      · rw [contains_iff_of_toRat? zero] at hb
        exact .inr (.inr (.inr ⟨canBeZero_of_holds hb, exponent_of_isInfinite infinite ha⟩))
    obtain ⟨rfl, nonFinite⟩ := productExponent_eq_nan exponent special
    rw [result]
    exact between_contains_nan run (.inl ((noBounds nonFinite).1 ▸ by decide))
  · have nonFinite : infinityExponent ≤ r.exponent ∨ infinityExponent ≤ s.exponent :=
      operands.imp (exponent_of_isInfinite · ha) (exponent_of_isInfinite · hb)
    obtain ⟨rfl, rfl⟩ := noBounds nonFinite
    have infinite := le_productExponent exponent nonFinite
    rcases result with positive | negative
    · rw [positive]
      exact between_contains_posInf run (by decide) infinite
    · rw [negative]
      exact between_contains_negInf run (by decide) infinite

/-- Where a product is said never to be negative zero, it is zero only for integers without a sign. -/
theorem Encloses.nonneg_of_mul_eq_zero {i j : Int} (left : r.Encloses i) (right : s.Encloses j)
    (never : r.mayMulToNegativeZero s = false) (zero : i * j = 0) : 0 ≤ i ∧ 0 ≤ j := by
  simp only [mayMulToNegativeZero, Bool.not_eq_false', Bool.or_eq_true, Bool.and_eq_true,
    decide_eq_true_eq] at never
  -- The endpoints that `never` speaks of lie within int32, so they are bounds.
  have low : ∀ {r : Range} {i : Int}, r.Encloses i → 0 ≤ r.lo → r.lo ≤ i :=
    fun inside nonneg => Int.cast_le.mp (inside.lo_le_of_bounded (by unfold int32Min; omega))
  have high : ∀ {r : Range} {i : Int}, r.Encloses i → r.hi < 0 → i ≤ r.hi :=
    fun inside neg => Int.cast_le.mp (inside.le_hi_of_bounded (by unfold int32Max; omega))
  have factor : i = 0 ∨ j = 0 := Int.mul_eq_zero.mp zero
  rcases never with ((⟨nonneg, nonneg'⟩ | ⟨neg, neg'⟩) | pos) | pos
  · exact ⟨nonneg.trans (low left nonneg), nonneg'.trans (low right nonneg')⟩
  · have := high left neg
    have := high right neg'
    omega
  · have := low left pos.le
    omega
  · have := low right pos.le
    omega

/-! ### Soundness -/

/-- Sums, differences and products of normal ranges succeed and hold the exact results on all numbers of
their operands. Where a product is said never to be negative zero, no integer below zero has a part in a
product that is zero. -/
theorem ring_sound (n : r.Normal) (m : s.Normal) :
    (∀ a b, r.contains a = true → s.contains b = true →
      Yields (r.add s) (fun t => t.contains (a.exactAdd b) = true) ∧
      Yields (r.sub s) (fun t => t.contains (a.exactSub b) = true) ∧
      Yields (r.mul s) (fun t => t.contains (a.exactMul b) = true)) ∧
    (r.mayMulToNegativeZero s = false → ∀ i j : Int, r.contains (.ofInt i) = true →
      s.contains (.ofInt j) = true → ¬(i * j = 0 ∧ (i < 0 ∨ j < 0))) := by
  refine ⟨fun a b ha hb => ⟨?_, ?_, ?_⟩, fun never i j hi hj => ?_⟩
  · exact (add_yields n m).of_run fun t run _ => add_contains run n.regular m.regular ha hb
  · refine (sub_yields n m).of_run fun t run _ => ?_
    rw [sub_eq_add_mirror] at run
    exact add_contains run n.regular m.regular.mirror ha (mirror_contains hb)
  · exact (mul_yields n m).of_run fun t run _ => mul_contains run n.regular m.regular ha hb
  · rintro ⟨zero, negative⟩
    have nonneg := (contains_ofInt.mp hi).nonneg_of_mul_eq_zero (contains_ofInt.mp hj).toEncloses never
      zero
    omega

/-- Small integers without a sign. -/
def upToThree : Range := ⟨some 0, some 3, false, 1, none, none⟩

/-- Infinity plus or minus zero is infinite, infinity times zero is NaN, and the product of integers of
these ranges is never negative zero. -/
theorem fromZeroOn_ring :
    fromZeroOn.Normal ∧ upToThree.Normal ∧ fromZeroOn.contains .posInf = true ∧
      upToThree.contains (.finite 0) = true ∧
      Yields (fromZeroOn.add upToThree) (fun t => t.contains .posInf = true) ∧
      Yields (fromZeroOn.sub upToThree) (fun t => t.contains .posInf = true) ∧
      Yields (fromZeroOn.mul upToThree) (fun t => t.contains .nan = true) ∧
      fromZeroOn.mayMulToNegativeZero upToThree = false ∧ fromZeroOn.contains (.ofInt 5) = true ∧
      upToThree.contains (.ofInt 0) = true ∧ ¬((5 * 0 : Int) = 0 ∧ ((5 : Int) < 0 ∨ (0 : Int) < 0)) := by
  have normal : fromZeroOn.Normal := by decide
  have normal' : upToThree.Normal := by decide
  have infinite : fromZeroOn.contains .posInf = true := by decide
  have zero : upToThree.contains (.finite 0) = true := by decide +kernel
  have never : fromZeroOn.mayMulToNegativeZero upToThree = false := by decide
  have five : fromZeroOn.contains (.ofInt 5) = true := by decide +kernel
  have zero' : upToThree.contains (.ofInt 0) = true := by decide +kernel
  obtain ⟨results, signs⟩ := ring_sound normal normal'
  obtain ⟨sum, difference, product⟩ := results .posInf (.finite 0) infinite zero
  have notANumber : Number.posInf.exactMul (.finite 0) = .nan := by decide +kernel
  rw [notANumber] at product
  exact ⟨normal, normal', infinite, zero, sum, difference, product, never, five, zero',
    signs never 5 0 five zero'⟩

end Rangefinder.Range
