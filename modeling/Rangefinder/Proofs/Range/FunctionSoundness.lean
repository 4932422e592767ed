import Rangefinder.Proofs.Range.Arithmetic
import Rangefinder.Proofs.Range.Intersection

/-!
# Absolute values, extremes, roundings and square roots

What these functions make of the numbers of a range belongs to the range of the function. An absolute
value beyond int32 leaves the range open above. The smaller of two numbers has the upper bounds of both,
the greater one their lower bounds. A number that is rounded may reach the next power of two, so the
exponent of an open range with fractions grows by one; at the greatest finite exponent it stays, since
doubles of that size have no fractions. A square root is bounded by the root of the upper bound, rounded up
to an integer, and the double nearest to the root rounds up to the same integer.
-/

namespace Rangefinder

/-! ### Values of functions -/

/-- The value of a magnitude. -/
theorem Number.toRat?_abs {a : Number} {x : Rat} (value : a.toRat? = some x) :
    a.abs.toRat? = some |x| := by
  rcases eq_of_toRat? value with rfl | ⟨rfl, rfl⟩
  · rw [abs, magnitude_eq_abs]
    rfl
  · rw [abs_zero]
    rfl

/-- Rounding down gives the floor of the value; a zero may keep its sign. -/
theorem Number.toRat?_floor {a : Number} {x : Rat} (value : a.toRat? = some x) :
    a.floor.toRat? = some (x.floor : Rat) := by
  rcases eq_of_toRat? value with rfl | ⟨rfl, rfl⟩
  · rfl
  · decide +kernel

/-- The value rounded up. -/
theorem Number.toRat?_ceil {a : Number} {x : Rat} (value : a.toRat? = some x) :
    a.ceil.toRat? = some (x.ceil : Rat) := by
  rcases eq_of_toRat? value with rfl | ⟨rfl, rfl⟩
  · rw [ceil]
    split
    · next zero =>
      rw [zero.2, Int.cast_zero]
      rfl
    · rfl
  · decide +kernel

namespace Range

variable {r s t : Range} {a b : Number} {x : Rat}

/-! ### Absolute values -/

/-- Folding holds magnitudes. -/
theorem folded_holds (n : r.Normal) (member : r.Holds x) : r.folded.Holds |x| := by
  have low : (r.lo : Rat) ≤ |x| := by
    cases bound : r.lower with
    | none =>
      have negative : r.lo ≤ 0 := by
        rw [lo, bound]
        decide
      exact (Int.cast_nonpos.mpr negative).trans (abs_nonneg x)
    | some l => exact (lo_eq bound ▸ member.lower l bound).trans (le_abs_self x)
  have high : -(r.hi : Rat) ≤ |x| := by
    cases bound : r.upper with
    | none =>
      have positive : 0 ≤ r.hi := by
        rw [hi, bound]
        decide
      exact (neg_nonpos.mpr (Int.cast_nonneg positive)).trans (abs_nonneg x)
    | some h => exact (neg_le_neg (hi_eq bound ▸ member.upper h bound)).trans (neg_le_abs x)
  refine ⟨⟨fun l bound => ?_, fun h bound => ?_⟩, fun whole => ?_, fun finite => ?_⟩
  · obtain rfl := Option.some.inj bound
    rw [Int.cast_max, Int.cast_max, Int.cast_min, Int.cast_neg, Int.cast_zero]
    exact max_le (max_le (abs_nonneg x) low) ((min_le_left _ _).trans high)
  · simp only [folded, Option.mem_def, Option.ite_none_right_eq_some, Bool.and_eq_true, decide_eq_true_iff,
      Option.some.injEq] at bound
    obtain ⟨⟨closed, more⟩, rfl⟩ := bound
    obtain ⟨lower, upper⟩ := member.between_of_isClosed closed
    have fits := n.lower_fits
    have negated : min (-r.lo) int32Max = -r.lo := by
      unfold int32Min int32Max at *
      omega
    rw [negated, Int.cast_max, Int.cast_max, Int.cast_neg]
    exact abs_le'.mpr ⟨upper.trans ((le_max_right _ _).trans (le_max_left _ _)),
      (neg_le_neg lower).trans (le_max_right _ _)⟩
  · obtain ⟨i, rfl⟩ := member.integral whole
    exact ⟨|i|, Int.cast_abs⟩
  · rw [abs_abs]
    exact member.covered finite

/-- Only an open range holds numbers without a value, and folding leaves it open above. -/
theorem folded_upper (n : r.Normal) (member : r.contains a = true) (nonFinite : a.toRat? = none) :
    r.folded.upper = none := by
  have isOpen : r.isClosed = false := by
    rw [← Bool.not_eq_true]
    intro closed
    obtain ⟨x, value, -⟩ := n.exists_value closed member
    rw [nonFinite] at value
    cases value
  simp [folded, isOpen]

/-- It contains infinite ones as well. -/
theorem folded_contains (n : r.Normal) (member : r.contains a = true) : r.folded.contains a.abs = true := by
  have ofValue : ∀ {x}, a.toRat? = some x → r.folded.contains a.abs = true := fun value =>
    (contains_iff_of_toRat? (Number.toRat?_abs value)).mpr
      (folded_holds n ((contains_iff_of_toRat? value).mp member))
  cases a with
  | nan => exact member
  | posInf => exact contains_posInf.mpr ⟨(contains_posInf.mp member).1, folded_upper n member rfl⟩
  | negInf => exact contains_posInf.mpr ⟨(contains_negInf.mp member).1, folded_upper n member rfl⟩
  | negZero => exact ofValue rfl
  | finite x => exact ofValue rfl

/-- The range of absolute values holds the absolute value of every number of the range. -/
theorem abs_contains (n : r.Normal) (member : r.contains a = true) :
    Yields r.abs fun t => t.contains a.abs = true := by
  refine (abs_yields n).of_run fun t run normal => ?_
  rw [abs_eq n] at run
  refine (contains_normalize run fun closed nan => ?_).mpr (folded_contains n member)
  cases a with
  | nan => simp [isClosed, folded_upper n member rfl] at closed
  | _ => cases nan

/-! ### Extremes -/

/-- One of two numbers belongs to the two ranges taken together. -/
theorem hull_spans {c : Number} (n : r.Normal) (m : s.Normal) (left : r.contains a = true)
    (right : s.contains b = true) (choice : c = a ∨ c = b) (number : c ≠ .nan) : (hull r s).Spans c := by
  have valid := n.isExponent.max m.isExponent
  rw [← contains_iff_spans number]
  rcases choice with rfl | rfl
  · exact (within_hull_left r s).contains valid left
  · exact (within_hull_right r s).contains valid right

/-- NaN is excluded. -/
theorem ne_nan_of_contains (number : r.canBeNaN = false) (member : r.contains a = true) : a ≠ .nan := by
  rintro rfl
  rw [show r.canBeNaN = true from member] at number
  cases number

/-- The range of minima holds the smaller of two numbers. -/
theorem minimum_contains (n : r.Normal) (m : s.Normal) (left : r.contains a = true)
    (right : s.contains b = true) : Yields (r.minimum s) fun t => t.contains (a.minimum b) = true := by
  refine (minimum_yields n m).of_run fun t run _ => ?_
  rw [minimum] at run
  split at run
  · exact Except.ok.inj run ▸ unknown_contains _
  · next numbers =>
    rw [Bool.not_eq_true, Bool.or_eq_false_iff] at numbers
    have ha := ne_nan_of_contains numbers.1 left
    have hb := ne_nan_of_contains numbers.2 right
    obtain ⟨choice, below, below'⟩ := Number.minimum_cases ha hb
    have number := (Number.ne_nan_of_le below).1
    have inside := hull_spans n m left right choice number
    rw [contains_normalize (normalize_of_raw run) fun _ => number]
    rw [contains_iff_spans ha] at left
    rw [contains_iff_spans hb] at right
    rw [contains_iff_spans number]
    exact ⟨inside.lower, upper_common n m (fun h bound => Number.le_trans below (left.upper h bound))
      fun h bound => Number.le_trans below' (right.upper h bound), inside.integral, inside.covered⟩

/-- The range of maxima holds the greater of two numbers. -/
theorem maximum_contains (n : r.Normal) (m : s.Normal) (left : r.contains a = true)
    (right : s.contains b = true) : Yields (r.maximum s) fun t => t.contains (a.maximum b) = true := by
  refine (maximum_yields n m).of_run fun t run _ => ?_
  rw [maximum] at run
  split at run
  · exact Except.ok.inj run ▸ unknown_contains _
  · next numbers =>
    rw [Bool.not_eq_true, Bool.or_eq_false_iff] at numbers
    have ha := ne_nan_of_contains numbers.1 left
    have hb := ne_nan_of_contains numbers.2 right
    obtain ⟨choice, above, above'⟩ := Number.maximum_cases ha hb
    have number := (Number.ne_nan_of_le above).2
    have inside := hull_spans n m left right choice number
    rw [contains_normalize (normalize_of_raw run) fun _ => number]
    rw [contains_iff_spans ha] at left
    rw [contains_iff_spans hb] at right
    rw [contains_iff_spans number]
    exact ⟨lower_common n m (fun l bound => Number.le_trans (left.lower l bound) above)
      fun l bound => Number.le_trans (right.lower l bound) above', inside.upper, inside.integral,
      inside.covered⟩

/-! ### Rounding -/

/-- The integer is the value rounded, up or down: no integer lies between the two. -/
structure Rounds (x : Rat) (i : Int) : Prop where
  below : ∀ j : Int, (j : Rat) ≤ x → j ≤ i
  above : ∀ j : Int, x ≤ j → i ≤ j

/-- Rounding down. -/
theorem rounds_floor (x : Rat) : Rounds x x.floor where
  below _ le := Int.le_floor.mpr le
  above _ le := Int.cast_le.mp ((x.floor_le).trans le)

/-- Rounding up. -/
theorem rounds_ceil (x : Rat) : Rounds x x.ceil where
  below _ le := Int.cast_le.mp (le.trans Rat.le_ceil)
  above _ le := Rat.ceil_le_iff.mpr le

namespace Rounds

variable {i : Int}

/-- Integers stay as they are. -/
theorem eq (h : Rounds x i) (integer : ∃ j : Int, (j : Rat) = x) : (i : Rat) = x := by
  obtain ⟨j, rfl⟩ := integer
  rw [le_antisymm (h.above j le_rfl) (h.below j le_rfl)]

/-- Rounding does not leave bounds that are integers. -/
theorem abs_le_natCast (h : Rounds x i) {k : Nat} (small : |x| ≤ k) : |(i : Rat)| ≤ k := by
  obtain ⟨lower, upper⟩ := abs_le.mp small
  have least : -(k : Int) ≤ i := h.below _ (by push_cast; exact lower)
  have greatest : i ≤ k := h.above _ (by push_cast; exact upper)
  exact abs_le.mpr ⟨by exact_mod_cast least, by exact_mod_cast greatest⟩

end Rounds

/-- How the exponent of a rounded range is chosen. -/
theorem rounded_cases (run : r.rounded = .ok t) : ∃ e, t = ⟨r.lower, r.upper, false, e, none, none⟩ ∧
    (r.isClosed = true ∧ e = r.impliedExponent ∨
      r.isClosed = false ∧ r.fractional = true ∧ r.exponent < maxFiniteExponent ∧ e = r.exponent + 1 ∨
      r.isClosed = false ∧ (r.fractional = true → maxFiniteExponent ≤ r.exponent) ∧ e = r.exponent) := by
  obtain ⟨e, choosing, run⟩ := bind_eq_ok.mp run
  obtain ⟨-, rfl⟩ := checked_eq_ok.mp run
  refine ⟨e, rfl, ?_⟩
  split at choosing
  · next closed => exact .inl ⟨closed, (pure_eq_ok.mp choosing).symm⟩
  next isOpen =>
  rw [Bool.not_eq_true] at isOpen
  split at choosing
  · next grows =>
    rw [Bool.and_eq_true, decide_eq_true_iff] at grows
    have small := grows.2
    unfold maxFiniteExponent at small
    rw [fitUint16, if_pos (by omega)] at choosing
    exact .inr (.inl ⟨isOpen, grows.1, grows.2, (Except.ok.inj choosing).symm⟩)
  · next stays =>
    refine .inr (.inr ⟨isOpen, fun fraction => ?_, (pure_eq_ok.mp choosing).symm⟩)
    rw [fraction, Bool.true_and, decide_eq_true_iff, not_lt] at stays
    exact stays

/-- A rounded range holds the roundings of the values of the range. The exponent of an open one grows by
one unless it is the greatest already, and a fraction is far below that power of two. -/
theorem rounded_holds {i : Int} (run : r.rounded = .ok t) (member : r.Holds x) (bits : HasSignificand 53 x)
    (rounds : Rounds x i) : t.Holds i := by
  obtain ⟨e, rfl, choice⟩ := rounded_cases run
  have inside : r.Encloses i := by
    refine ⟨fun l bound => ?_, fun h bound => ?_⟩
    · exact Int.cast_le.mpr (rounds.below l (member.lower l bound))
    · exact Int.cast_le.mpr (rounds.above h (member.upper h bound))
  refine ⟨⟨inside.lower, inside.upper⟩, fun _ => ⟨i, rfl⟩, fun finite => ?_⟩
  have finite : ¬infinityExponent ≤ e := of_decide_eq_false finite
  rcases choice with ⟨closed, rfl⟩ | ⟨isOpen, -, small, rfl⟩ | ⟨isOpen, greatest, rfl⟩
  · obtain ⟨lower, upper⟩ := inside.between_of_isClosed closed
    exact abs_lt_of_between lower upper
  · have finite : ¬infinityExponent ≤ r.exponent := fun wide => finite (wide.trans (Nat.le_succ _))
    have covered := member.covered (decide_eq_false finite)
    refine (rounds.abs_le_natCast covered.le).trans_lt (Nat.cast_lt.mpr ?_)
    rw [pow2_succ (r.exponent + 1)]
    have := pow2_pos (r.exponent + 1)
    omega
  · have covered := member.covered (decide_eq_false finite)
    by_cases integer : ∃ j : Int, (j : Rat) = x
    · rwa [rounds.eq integer]
    · have fraction : r.fractional = true := by
        rw [← Bool.not_eq_false]
        exact fun whole => integer (member.integral whole)
      have far := greatest fraction
      calc |(i : Rat)| ≤ (pow2 52 : Nat) := rounds.abs_le_natCast (bits.abs_lt_of_fraction integer).le
        _ < (pow2 53 : Nat) := Nat.cast_lt.mpr (by decide)
        _ ≤ (pow2 (r.exponent + 1) : Nat) := Nat.cast_le.mpr (pow2_le_pow2
          (le_trans (by decide) (Nat.add_le_add_right far 1)))

/-- Beyond the finite exponents nothing changes but the fractions. -/
theorem rounded_eq_of_nonFinite (n : r.Normal) (run : r.rounded = .ok t)
    (wide : infinityExponent ≤ r.exponent) : t = ⟨r.lower, r.upper, false, r.exponent, none, none⟩ := by
  obtain ⟨e, rfl, choice⟩ := rounded_cases run
  rcases choice with ⟨closed, -⟩ | ⟨-, -, small, -⟩ | ⟨-, -, rfl⟩
  · exact absurd wide (of_decide_eq_false (n.canBeNonFinite_eq_false closed))
  · unfold infinityExponent maxFiniteExponent at *
    omega
  · rfl

/-- A rounded range holds every number of the range rounded down, and rounded up. -/
theorem rounded_contains (n : r.Normal) (member : r.contains a = true)
    (bits : ∀ x, a.toRat? = some x → HasSignificand 53 x) :
    Yields r.rounded fun t => t.contains a.floor = true ∧ t.contains a.ceil = true := by
  refine (rounded_yields n).of_run fun t run _ => ?_
  have ofValue : ∀ {x}, a.toRat? = some x → t.contains a.floor = true ∧ t.contains a.ceil = true := by
    intro x value
    have held := (contains_iff_of_toRat? value).mp member
    rw [contains_iff_of_toRat? (Number.toRat?_floor value),
      contains_iff_of_toRat? (Number.toRat?_ceil value)]
    exact ⟨rounded_holds run held (bits x value) (rounds_floor x),
      rounded_holds run held (bits x value) (rounds_ceil x)⟩
  cases a with
  | nan =>
    have nan := contains_nan.mp member
    obtain rfl := rounded_eq_of_nonFinite n run (nan ▸ by decide)
    exact ⟨member, member⟩
  | posInf =>
    obtain rfl := rounded_eq_of_nonFinite n run (contains_posInf.mp member).1
    exact ⟨member, member⟩
  | negInf =>
    obtain rfl := rounded_eq_of_nonFinite n run (contains_negInf.mp member).1
    exact ⟨member, member⟩
  | negZero => exact ofValue rfl
  | finite x => exact ofValue rfl

/-! ### Square roots -/

/-- What makes the root rounded up the least integer whose square is at least the number. -/
theorem lt_ceilSqrt_iff {j k : Nat} : j < ceilSqrt k ↔ j * j < k := by
  have least := Nat.sqrt_le k
  have greatest := Nat.lt_succ_sqrt k
  have above : k ≤ ceilSqrt k * ceilSqrt k := by
    rw [ceilSqrt]
    split
    · next square => exact square.ge
    · exact greatest.le
  constructor
  · intro below
    rw [ceilSqrt] at below
    split at below
    · next square => exact (Nat.mul_self_lt_mul_self below).trans_eq square
    · next other =>
      exact (Nat.mul_self_le_mul_self (Nat.le_of_lt_succ below)).trans_lt (lt_of_le_of_ne least other)
  · intro below
    by_contra reached
    exact absurd (above.trans (Nat.mul_self_le_mul_self (not_lt.mp reached))) (not_le.mpr below)

/-- The root is large enough. -/
theorem le_ceilSqrt_sq (k : Nat) : k ≤ ceilSqrt k * ceilSqrt k :=
  not_lt.mp fun less => lt_irrefl _ (lt_ceilSqrt_iff.mpr less)

/-- The range of square roots holds the roots of the values of the range. -/
theorem sqrt_holds (run : r.sqrt = .ok t) (nonneg : 0 ≤ x) (member : r.Holds (x * x)) : t.Holds x := by
  rw [sqrt] at run
  split at run
  · exact contains_finite.mp (Except.ok.inj run ▸ unknown_contains _)
  refine between_holds run (.inr ?_) ?_ (fun whole => absurd whole (by decide)) fun finite => ?_
  · rwa [Int.cast_zero]
  · cases bound : r.upper with
    | none => exact .inl (by decide)
    | some h =>
      have square := member.upper h bound
      have positive : 0 ≤ h := Int.cast_nonneg_iff.mp ((mul_self_nonneg x).trans square)
      refine .inr ((mul_self_le_mul_self_iff nonneg (Int.cast_nonneg (Int.natCast_nonneg _))).mpr ?_)
      calc x * x ≤ (h : Rat) := square
        _ = ((h.toNat : Nat) : Rat) := by exact_mod_cast (Int.toNat_of_nonneg positive).symm
        _ ≤ ((ceilSqrt h.toNat * ceilSqrt h.toNat : Nat) : Rat) := Nat.cast_le.mpr (le_ceilSqrt_sq _)
        _ = _ := by push_cast; rfl
  · have covered := member.covered (decide_eq_false (not_le.mpr finite))
    rw [abs_of_nonneg (mul_self_nonneg x)] at covered
    rw [abs_of_nonneg nonneg]
    by_contra large
    have one : (1 : Rat) ≤ x := (Nat.one_le_cast.mpr (pow2_pos _)).trans (not_lt.mp large)
    exact large ((le_mul_of_one_le_left nonneg one).trans_lt covered)

/-- Of the numbers without a value, the range of square roots holds the roots too. -/
theorem sqrt_contains_of_nonFinite (run : r.sqrt = .ok t) (nonFinite : a.toRat? = none)
    (member : r.contains a = true) : t.contains a.sqrt = true := by
  rw [sqrt] at run
  split at run
  · exact Except.ok.inj run ▸ unknown_contains _
  next positive =>
  rw [not_or, not_lt] at positive
  cases a with
  | nan => exact absurd member positive.2
  | posInf =>
    obtain ⟨wide, isOpen⟩ := contains_posInf.mp member
    rw [isOpen] at run
    exact between_contains_posInf run (by decide) wide
  | negInf =>
    rw [lo, (contains_negInf.mp member).2] at positive
    exact absurd positive.1 (by decide)
  | negZero => cases nonFinite
  | finite x => cases nonFinite

end Range

/-! ### Nearest roots -/

/-- The integer nearest to the square root of an integer. -/
def nearestSqrt (n : Nat) : Nat :=
  if (2 * n.sqrt + 1) * (2 * n.sqrt + 1) < 4 * n then n.sqrt + 1 else n.sqrt

/-- A square bounds a root above. -/
theorem nearestSqrt_le {c n : Nat} (square : n ≤ c * c) : nearestSqrt n ≤ c := by
  have root : n.sqrt ≤ c := (Nat.sqrt_le_sqrt square).trans (Nat.sqrt_eq c).le
  rw [nearestSqrt]
  split
  · next up =>
    refine lt_of_le_of_ne root fun same => ?_
    rw [same] at up
    have expand : (2 * c + 1) * (2 * c + 1) = 4 * (c * c) + 4 * c + 1 := by ring
    omega
  · exact root

/-- A square bounds a root below. -/
theorem lt_nearestSqrt {b n : Nat} (square : (b + 1) * (b + 1) ≤ n) : b < nearestSqrt n := by
  have root : b + 1 ≤ n.sqrt := Nat.le_sqrt.mpr square
  rw [nearestSqrt]
  split
  · exact Nat.lt_succ_of_lt root
  · exact root

/-- A scale that is wide enough keeps the root of an integer apart from the integers below it. -/
theorem lt_nearestSqrt_scaled {k p b : Nat} (width : 2 * b + 1 ≤ p) (below : b * b < k) :
    b * p < nearestSqrt (k * (p * p)) := by
  refine lt_nearestSqrt ?_
  calc (b * p + 1) * (b * p + 1) = b * b * (p * p) + (2 * b * p + 1) := by ring
    _ ≤ b * b * (p * p) + (2 * b * p + p) := by gcongr; omega
    _ = b * b * (p * p) + (2 * b + 1) * p := by ring
    _ ≤ b * b * (p * p) + p * p := by gcongr
    _ = (b * b + 1) * (p * p) := by ring
    _ ≤ k * (p * p) := Nat.mul_le_mul_right _ below

open Range in
/-- So the scaled root, rounded to the nearest and then up, is the exact root rounded up. -/
theorem ceil_nearestSqrt {k p : Nat} (positive : 0 < k) (width : ∀ b, b * b < k → 2 * b + 1 ≤ p) :
    ((nearestSqrt (k * (p * p)) : Rat) / p).ceil = ceilSqrt k := by
  have unit : (0 : Rat) < p := Nat.cast_pos.mpr (width 0 positive)
  apply le_antisymm
  · have least : nearestSqrt (k * (p * p)) ≤ ceilSqrt k * p := by
      refine nearestSqrt_le ?_
      calc k * (p * p) ≤ ceilSqrt k * ceilSqrt k * (p * p) := Nat.mul_le_mul_right _ (le_ceilSqrt_sq k)
        _ = ceilSqrt k * p * (ceilSqrt k * p) := by ring
    rw [Rat.ceil_le_iff, div_le_iff₀ unit]
    exact_mod_cast least
  · by_contra less
    obtain ⟨b, rest⟩ : ∃ b : Nat, ceilSqrt k = b + 1 :=
      Nat.exists_eq_succ_of_ne_zero (Nat.ne_of_gt (lt_ceilSqrt_iff.mpr positive))
    have below : b * b < k := lt_ceilSqrt_iff.mp (rest ▸ Nat.lt_succ_self b)
    have reached : ((nearestSqrt (k * (p * p)) : Rat) / p).ceil ≤ b := by omega
    rw [Rat.ceil_le_iff, div_le_iff₀ unit] at reached
    have reached : nearestSqrt (k * (p * p)) ≤ b * p := by exact_mod_cast reached
    exact absurd (lt_nearestSqrt_scaled (width b below) below) (not_lt.mpr reached)

/-- The double nearest to the square root of an integer is found at the scale where the root has 53 bits. -/
theorem roundSqrt_natCast {k j : Nat} (positive : 0 < k) (scale : j + k.log2 / 2 = 52) :
    BinaryFormat.binary64.roundSqrt ((k : Int) : Rat) =
      .finite ((nearestSqrt (k * (pow2 j * pow2 j)) : Rat) / (pow2 j : Nat)) := by
  have square : pow2 (2 * j) = pow2 j * pow2 j := by rw [pow2_eq, pow2_eq, two_mul, pow_add]
  have grid : Int.fdiv (floorLog2 ((k : Int) : Rat)) 2 + 1 - (BinaryFormat.binary64.precision : Nat) =
      -(j : Int) := by
    rw [floorLog2_intCast (by omega), Int.natAbs_natCast, Int.fdiv_eq_ediv_of_nonneg _ (by decide)]
    show (k.log2 : Int) / 2 + 1 - 53 = -(j : Int)
    omega
  have scaled : scalePow2 ((k : Int) : Rat) (-2 * -(j : Int)) =
      ((k * (pow2 j * pow2 j) : Nat) : Rat) := by
    rw [scalePow2_eq, show (-2 * -(j : Int)) = ((2 * j : Nat) : Int) by push_cast; ring, zpow_two_natCast,
      square, Int.cast_natCast, ← Nat.cast_mul]
  have whole : ((k * (pow2 j * pow2 j) : Nat) : Rat).floor.toNat = k * (pow2 j * pow2 j) := by
    rw [← Int.cast_natCast, Rat.floor_intCast, Int.toNat_natCast]
  have value : ∀ m : Nat, ofBinary m (-j) = (m : Rat) / (pow2 j : Nat) := by
    intro m
    rw [ofBinary_eq, zpow_neg, zpow_two_natCast, div_eq_mul_inv, Int.cast_natCast]
  simp only [BinaryFormat.roundSqrt, grid, scaled, whole, Rat.den_natCast, Rat.num_natCast,
    Int.natAbs_natCast, mul_one, decide_eq_true_iff]
  rw [← value, nearestSqrt]
  split
  · rfl
  · rfl

namespace Range

variable {r s : Range}

/-- The double nearest to the square root of an int32 rounds up to the exact root rounded up. -/
theorem ceil_sqrt_natCast {k : Nat} (small : k ≤ 2147483647) :
    (Number.sqrt (.ofInt k)).ceil = .ofInt (ceilSqrt k) := by
  obtain rfl | positive := Nat.eq_zero_or_pos k
  · decide +kernel
  have magnitude : k.log2 ≤ 30 := log2_le_iff.mpr (small.trans_lt (by decide))
  obtain ⟨j, scale⟩ : ∃ j, j + k.log2 / 2 = 52 := ⟨52 - k.log2 / 2, by omega⟩
  have wide : 131072 ≤ pow2 j := pow2_le_pow2 (k := 17) (by omega)
  have width : ∀ b, b * b < k → 2 * b + 1 ≤ pow2 j := by
    intro b below
    by_contra large
    have square : 65536 * 65536 ≤ b * b := Nat.mul_self_le_mul_self (by omega)
    omega
  have positive' : (0 : Rat) < ((k : Int) : Rat) := by exact_mod_cast positive
  have nonneg : 0 ≤ (nearestSqrt (k * (pow2 j * pow2 j)) : Rat) / (pow2 j : Nat) := by positivity
  rw [Number.ofInt, Number.sqrt, if_neg positive'.le.not_gt, if_neg positive'.ne',
    roundSqrt_natCast positive scale, Number.ceil, if_neg fun negative => negative.1.not_ge nonneg,
    ceil_nearestSqrt positive width]
  rfl

/-- The ranges of absolute values, minima and maxima, roundings and square roots are sound. They hold what
the functions make of every number of the operands: of finite values, of the infinities and of NaN. A value
that is rounded has a significand of 53 bits, and a square root is a rational whose square is in the range.
The bound that is set on square roots is the root of an int32 as a machine computes it, rounded up. -/
theorem functions_sound (n : r.Normal) (m : s.Normal) :
    (∀ a, r.contains a = true → Yields r.abs fun t => t.contains a.abs = true) ∧
    (∀ a b, r.contains a = true → s.contains b = true →
      Yields (r.minimum s) (fun t => t.contains (a.minimum b) = true) ∧
      Yields (r.maximum s) fun t => t.contains (a.maximum b) = true) ∧
    (∀ a, r.contains a = true → (∀ x, a.toRat? = some x → HasSignificand 53 x) →
      Yields r.rounded fun t => t.contains a.floor = true ∧ t.contains a.ceil = true) ∧
    (Yields r.sqrt fun t =>
      (∀ x : Rat, 0 ≤ x → r.contains (.finite (x * x)) = true → t.contains (.finite x) = true) ∧
      ∀ a, a.toRat? = none → r.contains a = true → t.contains a.sqrt = true) ∧
    ∀ k : Nat, IsInt32 k → (Number.sqrt (.ofInt k)).ceil = .ofInt (ceilSqrt k) := by
  refine ⟨fun a member => abs_contains n member, fun a b left right => ⟨?_, ?_⟩, ?_, ?_, ?_⟩
  · exact minimum_contains n m left right
  · exact maximum_contains n m left right
  · exact fun a member bits => rounded_contains n member bits
  · refine (sqrt_yields n).of_run fun t run _ => ⟨fun x nonneg member => ?_, fun a nonFinite member => ?_⟩
    · exact contains_finite.mpr (sqrt_holds run nonneg (contains_finite.mp member))
    · exact sqrt_contains_of_nonFinite run nonFinite member
  · exact fun k fits => ceil_sqrt_natCast (Int.ofNat_le.mp fits.2)

/-- The values from zero on below 2^34. -/
def below34 : Range := ⟨some 0, none, true, 33, none, none⟩

/-- A half below 2^34 rounds up to that power. -/
theorem below34_functions :
    Yields (below34.minimum sevenToThree) (fun t => t.contains (.ofInt (-7)) = true) ∧
    Yields below34.rounded (fun t => t.contains (.ofInt 17179869184) = true) ∧
    Yields below34.sqrt (fun t => t.contains (.finite (3 / 2)) = true) ∧
    (Number.sqrt (.ofInt 2147483647)).ceil = .ofInt 46341 := by
  obtain ⟨-, extremes, roundings, roots, bounds⟩ :=
    functions_sound (r := below34) (s := sevenToThree) (by decide) (by decide)
  have least : (Number.finite (1 / 2)).minimum (.ofInt (-7)) = .ofInt (-7) := by decide +kernel
  have power : (Number.finite (34359738367 / 2)).ceil = .ofInt 17179869184 := by decide +kernel
  have root : ceilSqrt 2147483647 = 46341 := by decide +kernel
  refine ⟨least ▸ ?_, ?_, ?_, (bounds 2147483647 (by decide)).trans (by rw [root]; rfl)⟩
  · exact (extremes (.finite (1 / 2)) (.ofInt (-7)) (by decide +kernel) (by decide +kernel)).1
  · have half := roundings (.finite (34359738367 / 2)) (by decide +kernel) fun x value =>
      ⟨34359738367, -1, by decide, (Option.some.inj value).symm.trans (by decide +kernel)⟩
    exact half.mono fun t held => power ▸ held.2
  · exact roots.mono fun t held => held.1 (3 / 2) (by decide +kernel) (by decide +kernel)

end Range

end Rangefinder
