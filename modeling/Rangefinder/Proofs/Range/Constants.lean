import Rangefinder.Proofs.Number.Doubles
import Rangefinder.Proofs.Number.Order
import Rangefinder.Proofs.Range.Membership

/-!
# Ranges of constants and intervals

The range of a number holds the number, and the range of an interval between two doubles holds every double
of the interval. An end beyond int32 sets no bound; what remains to be shown is that the exponent covers
everything between the ends, and that an interval without fractions has none to lose. It has none when
both ends are at least 2^52 away from zero on the same side, because doubles there are integers.
-/

namespace Rangefinder.Range

variable {l h : Int} {fractional : Bool} {e : Nat} {a b : Number} {x y : Rat} {t : Range} {lo hi : Number}
  {d : Number}

/-! ### Exponents -/

/-- Zero has exponent zero. -/
theorem exponentOf_zero : exponentOf 0 = 0 := by decide +kernel

/-- Exponents are finite. -/
theorem exponentOf_le (x : Rat) : exponentOf x ≤ maxFiniteExponent := by
  rw [exponentOf]
  split
  · exact Nat.zero_le _
  · exact min_le_right _ _

/-- The exponent of a value is below `k` if the value is below the `k`-th power of two. -/
theorem exponentOf_lt {k : Nat} (small : |x| < (pow2 (k + 1) : Nat)) : exponentOf x < k + 1 := by
  rw [exponentOf, magnitude_eq_abs]
  split
  · exact Nat.succ_pos k
  · have whole : ⌊|x|⌋.toNat < pow2 (k + 1) := by
      rw [Int.toNat_lt (Int.floor_nonneg.mpr (abs_nonneg x)), Int.floor_lt, Int.cast_natCast]
      exact small
    exact (min_le_left _ _).trans_lt (Nat.lt_succ_of_le (log2_le_iff.mpr whole))

/-- The exponent of a finite value covers it. -/
theorem abs_lt_exponentOf (finite : |x| < (pow2 (maxFiniteExponent + 1) : Nat)) :
    |x| < (pow2 (exponentOf x + 1) : Nat) := by
  rw [exponentOf, magnitude_eq_abs]
  split
  · next small => exact small.trans_le (by decide)
  · rcases min_choice (|x|.floor.toNat.log2) maxFiniteExponent with same | same
    · have whole : ((⌊|x|⌋.toNat : Nat) : Rat) = ⌊|x|⌋ := by
        exact_mod_cast Int.toNat_of_nonneg (Int.floor_nonneg.mpr (abs_nonneg x))
      rw [same]
      calc |x| < ⌊|x|⌋ + 1 := Int.lt_floor_add_one |x|
        _ = ((⌊|x|⌋.toNat + 1 : Nat) : Rat) := by rw [Nat.cast_succ, whole]
        _ ≤ (pow2 (⌊|x|⌋.toNat.log2 + 1) : Nat) := Nat.cast_le.mpr (log2_le_iff.mp le_rfl)
    · rw [same]
      exact finite

/-- The exponent that endpoints demand is that of a uint32 at most. -/
theorem endpointExponent_le (l h : Int) : endpointExponent l h ≤ int32Exponent :=
  log2_le_iff.mpr ((min_le_right _ _).trans_lt (by decide))

/-- The range between two endpoints in order exists and is normal with the exponent that they demand. -/
theorem between_endpointExponent_yields (ordered : l ≤ h) (valid : IsExponent e) :
    Yields (between l h fractional (max e (endpointExponent l h))) Normal := by
  have least : IsExponent (endpointExponent l h) := .inl ((endpointExponent_le l h).trans (by decide))
  refine between_yields (valid.max least) fun lower upper => ?_
  have within : max l.natAbs h.natAbs ≤ 4294967295 := by
    have left := IsInt32.natAbs_le ⟨lower, ordered.trans upper⟩
    have right := IsInt32.natAbs_le ⟨lower.trans ordered, upper⟩
    omega
  have covers : (max l.natAbs h.natAbs).log2 ≤ max e (endpointExponent l h) := by
    rw [endpointExponent, min_eq_left within]
    exact le_max_right _ _
  rw [log2_max_le_iff] at covers
  exact ⟨ordered, log2_le_iff.mp covers.1, log2_le_iff.mp covers.2⟩

/-! ### One number -/

/-- The range of a number is normal. -/
theorem ofNumber_yields (d : Number) : Yields (ofNumber d) Normal := by
  cases d with
  | nan => exact .ok unknown_normal
  | posInf => exact between_yields (.inr (.inl rfl)) fun _ fits => absurd fits (by decide)
  | negInf => exact between_yields (.inr (.inl rfl)) fun fits => absurd fits (by decide)
  | negZero => exact between_yields (.inl (by decide)) fun _ _ => ⟨le_rfl, by decide, by decide⟩
  | finite x =>
    have ordered : x.floor ≤ x.ceil := by exact_mod_cast x.floor_le.trans Rat.le_ceil
    exact between_endpointExponent_yields ordered (.inl (exponentOf_le x))

/-- The range of a double holds it. -/
theorem ofNumber_contains (run : ofNumber d = .ok t) (double : d.IsDouble) :
    t.contains d = true := by
  cases d with
  | nan => exact Except.ok.inj run ▸ unknown_contains _
  | posInf => exact between_contains_posInf run (by decide) le_rfl
  | negInf => exact between_contains_negInf run (by decide) le_rfl
  | negZero =>
    refine (contains_iff_of_toRat? rfl).mpr (between_holds run (.inr ?_) (.inr ?_) (fun _ => ⟨0, ?_⟩)
      fun _ => ?_)
    · exact Int.cast_zero.le
    · exact Int.cast_zero.ge
    · exact Int.cast_zero
    · exact abs_zero.trans_lt (Nat.cast_pos.mpr (pow2_pos 1))
  | finite x =>
    refine contains_finite.mpr (between_holds run (.inr x.floor_le) (.inr Rat.le_ceil) (fun whole => ?_)
      fun _ => ?_)
    · exact ⟨x.num, (Rat.den_eq_one_iff x).mp (by simpa using whole)⟩
    · exact (abs_lt_exponentOf (double.abs_lt rfl)).trans_le
        (Nat.cast_le.mpr (pow2_le_pow2 (Nat.add_le_add_right (le_max_left _ _) 1)))

/-- Only the range of NaN holds NaN. -/
theorem eq_nan_of_ofNumber_contains (run : ofNumber d = .ok t) (member : t.contains .nan = true) :
    d = .nan := by
  have excluded : ∀ {l h : Int} {fractional : Bool} {e : Nat}, between l h fractional e = .ok t →
      e ≤ infinityExponent → d = .nan := fun run small =>
    absurd member (Bool.eq_false_iff.mp (between_not_contains_nan run small))
  cases d with
  | nan => rfl
  | posInf => exact excluded run le_rfl
  | negInf => exact excluded run le_rfl
  | negZero => exact excluded run (Nat.zero_le _)
  | finite x =>
    refine excluded run (max_le ((exponentOf_le x).trans (by decide)) ?_)
    exact (endpointExponent_le _ _).trans (by decide)

/-! ### Intervals -/

/-- Finite ends have their exponent. -/
theorem endExponent_of_value (value : a.toRat? = some x) : endExponent a = exponentOf x := by
  rcases Number.eq_of_toRat? value with rfl | ⟨rfl, rfl⟩
  · rfl
  · exact exponentOf_zero.symm

/-- The exponent of an end that is a number stands for infinities at most. -/
theorem endExponent_le (number : a ≠ .nan) : endExponent a ≤ infinityExponent := by
  cases a with
  | nan => exact absurd rfl number
  | posInf => exact le_rfl
  | negInf => exact le_rfl
  | negZero => exact Nat.zero_le _
  | finite x => exact (exponentOf_le x).trans (by decide)

/-- Exponents up to infinity are valid. -/
theorem isExponent_of_le (small : e ≤ infinityExponent) : IsExponent e := by
  unfold IsExponent maxFiniteExponent infinityExponent at *
  omega

/-- A finite end is rounded to an integer, and no further away than just beyond int32. -/
theorem endpointOf_of_value {rounding : Rat → Int} {absent : Int} (zero : rounding 0 = 0)
    (value : a.toRat? = some x) :
    endpointOf rounding absent a = max noLowerBound (min noUpperBound (rounding x)) := by
  rcases Number.eq_of_toRat? value with rfl | ⟨rfl, rfl⟩
  · rfl
  · rw [zero]
    rfl

/-- Zero rounded down. -/
theorem floor_zero : Rat.floor 0 = 0 := by decide +kernel

/-- Zero rounded up. -/
theorem ceil_zero : Rat.ceil 0 = 0 := by decide +kernel

/-- Ends in order stay so. -/
theorem endpointOf_ordered (ordered : a.le b = true) :
    endpointOf Rat.floor noLowerBound a ≤ endpointOf Rat.ceil noUpperBound b := by
  have limits : noLowerBound ≤ noUpperBound := by decide
  have least : noLowerBound ≤ endpointOf Rat.ceil noUpperBound b := by
    cases b with
    | negZero => decide
    | finite y => exact le_max_left _ _
    | negInf => exact le_rfl
    | _ => exact limits
  have greatest : endpointOf Rat.floor noLowerBound a ≤ noUpperBound := by
    cases a with
    | negZero => decide
    | finite x => exact max_le limits (min_le_left _ _)
    | posInf => exact le_rfl
    | _ => exact limits
  rcases Number.eq_inf_or_value (Number.ne_nan_of_le ordered).1 with rfl | rfl | ⟨x, value⟩
  · exact least
  · rw [Number.eq_posInf_of_le ordered]
    exact le_rfl
  · rcases Number.value_of_ge ordered value with rfl | ⟨y, value', le⟩
    · exact greatest
    · have rounded : x.floor ≤ y.ceil := by exact_mod_cast (x.floor_le.trans le).trans Rat.le_ceil
      rw [endpointOf_of_value floor_zero value, endpointOf_of_value ceil_zero value']
      exact max_le_max le_rfl (min_le_min le_rfl rounded)

/-- The lower end of an interval bounds its values, unless it lies below int32. -/
theorem endpointOf_floor_le (ordered : a.le b = true) (value : b.toRat? = some y) :
    endpointOf Rat.floor noLowerBound a < int32Min ∨
      ((endpointOf Rat.floor noLowerBound a : Int) : Rat) ≤ y := by
  rcases Number.value_of_le ordered value with rfl | ⟨x, own, le⟩
  · exact .inl (by decide)
  · rw [endpointOf_of_value floor_zero own]
    by_cases below : x.floor < int32Min
    · exact .inl (max_lt (by decide) ((min_le_right _ _).trans_lt below))
    · have above : noLowerBound ≤ x.floor := le_trans (by decide) (not_lt.mp below)
      exact .inr (le_trans (Int.cast_le.mpr (max_le above (min_le_right _ _))) (x.floor_le.trans le))

/-- The upper end of an interval bounds its values, unless it lies above int32. -/
theorem le_endpointOf_ceil (ordered : a.le b = true) (value : a.toRat? = some x) :
    int32Max < endpointOf Rat.ceil noUpperBound b ∨
      x ≤ ((endpointOf Rat.ceil noUpperBound b : Int) : Rat) := by
  rcases Number.value_of_ge ordered value with rfl | ⟨y, own, le⟩
  · exact .inl (by decide)
  · rw [endpointOf_of_value ceil_zero own]
    by_cases above : int32Max < y.ceil
    · exact .inl (lt_max_of_lt_right (lt_min (by decide) above))
    · have below : y.ceil ≤ noUpperBound := (not_lt.mp above).trans (by decide)
      refine .inr ((le.trans Rat.le_ceil).trans (Int.cast_le.mpr (le_max_of_le_right ?_)))
      exact le_min below le_rfl

/-- The exponents of the ends cover what lies between them. -/
theorem abs_lt_endExponent (double : lo.IsDouble) (double' : hi.IsDouble) (value : a.toRat? = some x)
    (lower : lo.le a = true) (upper : a.le hi = true)
    (finite : max (endExponent lo) (endExponent hi) < infinityExponent) :
    |x| < (pow2 (max (endExponent lo) (endExponent hi) + 1) : Nat) := by
  obtain ⟨left, right⟩ := max_lt_iff.mp finite
  rcases Number.value_of_le lower value with rfl | ⟨l, own, le⟩
  · exact absurd left (by decide)
  rcases Number.value_of_ge upper value with rfl | ⟨h, own', le'⟩
  · exact absurd right (by decide)
  have wider : ∀ {k : Nat}, k ≤ max (endExponent lo) (endExponent hi) →
      ((pow2 (k + 1) : Nat) : Rat) ≤ (pow2 (max (endExponent lo) (endExponent hi) + 1) : Nat) :=
    fun le => Nat.cast_le.mpr (pow2_le_pow2 (Nat.add_le_add_right le 1))
  refine (abs_le_max_abs_abs le le').trans_lt (max_lt ?_ ?_)
  · refine (abs_lt_exponentOf (double.abs_lt own)).trans_le (wider ?_)
    exact (endExponent_of_value own).ge.trans (le_max_left _ _)
  · refine (abs_lt_exponentOf (double'.abs_lt own')).trans_le (wider ?_)
    exact (endExponent_of_value own').ge.trans (le_max_right _ _)

/-- Where an interval does not cross zero and holds a double with a fraction, the end next to zero is
small. -/
theorem endExponent_lt_of_fraction (double : a.IsDouble) (value : a.toRat? = some x)
    (lower : lo.le a = true) (upper : a.le hi = true) (fraction : ¬∃ n : Int, (n : Rat) = x)
    (oneSide : lo.lt (.ofInt 0) = false ∨ (Number.ofInt 0).lt hi = false) :
    min (endExponent lo) (endExponent hi) < roundingExponent := by
  have small : |x| < (pow2 52 : Nat) := (double x value).hasSignificand.abs_lt_of_fraction fraction
  have zero : (Number.ofInt 0).toRat? = some 0 := congrArg some Int.cast_zero
  rcases oneSide with nonneg | nonpos
  · rcases Number.value_of_le lower value with rfl | ⟨l, own, le⟩
    · cases nonneg
    · rw [Number.lt_of_values own zero, decide_eq_false_iff_not, not_lt] at nonneg
      refine (min_le_left _ _).trans_lt ?_
      rw [endExponent_of_value own]
      refine exponentOf_lt (lt_of_le_of_lt ?_ small)
      rw [abs_of_nonneg nonneg, abs_of_nonneg (nonneg.trans le)]
      exact le
  · rcases Number.value_of_ge upper value with rfl | ⟨h, own, le⟩
    · cases nonpos
    · rw [Number.lt_of_values zero own, decide_eq_false_iff_not, not_lt] at nonpos
      refine (min_le_right _ _).trans_lt ?_
      rw [endExponent_of_value own]
      refine exponentOf_lt (lt_of_le_of_lt ?_ small)
      rw [abs_of_nonpos nonpos, abs_of_nonpos (le.trans nonpos)]
      exact neg_le_neg le

/-- The ends of an interval are numbers. -/
theorem max_endExponent_le (ordered : lo.le hi = true) :
    max (endExponent lo) (endExponent hi) ≤ infinityExponent :=
  max_le (endExponent_le (Number.ne_nan_of_le ordered).1) (endExponent_le (Number.ne_nan_of_le ordered).2)

/-- The range is normal. -/
theorem betweenNumbers_yields (ordered : lo.le hi = true) :
    Yields (betweenNumbers lo hi) Normal :=
  between_endpointExponent_yields (endpointOf_ordered ordered)
    (isExponent_of_le (max_endExponent_le ordered))

/-- It lacks NaN. -/
theorem betweenNumbers_not_contains_nan (run : betweenNumbers lo hi = .ok t) (ordered : lo.le hi = true) :
    t.contains .nan = false :=
  between_not_contains_nan run (max_le (max_endExponent_le ordered)
    ((endpointExponent_le _ _).trans (by decide)))

/-- The range of an interval holds the doubles of the interval. -/
theorem betweenNumbers_contains (run : betweenNumbers lo hi = .ok t) (double : lo.IsDouble)
    (double' : hi.IsDouble) (own : a.IsDouble) (lower : lo.le a = true) (upper : a.le hi = true) :
    t.contains a = true := by
  rcases Number.eq_inf_or_value (Number.ne_nan_of_le upper).1 with rfl | rfl | ⟨x, value⟩
  · obtain rfl := Number.eq_negInf_of_le lower
    exact between_contains_negInf run (by decide) ((le_max_left _ _).trans (le_max_left _ _))
  · obtain rfl := Number.eq_posInf_of_le upper
    exact between_contains_posInf run (by decide) ((le_max_right _ _).trans (le_max_left _ _))
  · refine (contains_iff_of_toRat? value).mpr (between_holds run (endpointOf_floor_le lower value)
      (le_endpointOf_ceil upper value) (fun whole => ?_) fun finite => ?_)
    · by_contra fraction
      obtain ⟨oneSide, large⟩ := Bool.or_eq_false_iff.mp whole
      refine of_decide_eq_false large (endExponent_lt_of_fraction own value lower upper fraction ?_)
      rcases Bool.and_eq_false_iff.mp oneSide with side | side
      · exact .inl (Bool.or_eq_false_iff.mp side).2
      · exact .inr (Bool.or_eq_false_iff.mp side).2
    · have ends := (le_max_left _ _).trans_lt finite
      refine (abs_lt_endExponent double double' value lower upper ends).trans_le ?_
      exact Nat.cast_le.mpr (pow2_le_pow2 (Nat.add_le_add_right (le_max_left _ _) 1))

/-- The range of every double exists and holds it, and the range of an interval between two doubles exists
and holds all doubles of the interval, infinities included. Neither holds NaN, unless it is the range of
NaN. -/
theorem doubles_covered :
    (∀ d : Number, d.IsDouble → Yields (ofNumber d) fun t =>
      t.contains d = true ∧ (t.contains .nan = true → d = .nan)) ∧
    ∀ lo hi : Number, lo.IsDouble → hi.IsDouble → lo.le hi = true →
      Yields (betweenNumbers lo hi) fun t => t.contains .nan = false ∧
        ∀ x : Number, x.IsDouble → lo.le x = true → x.le hi = true → t.contains x = true := by
  refine ⟨fun d double => ?_, fun lo hi double double' ordered => ?_⟩
  · exact (ofNumber_yields d).of_run fun t run _ =>
      ⟨ofNumber_contains run double, eq_nan_of_ofNumber_contains run⟩
  · exact (betweenNumbers_yields ordered).of_run fun t run _ =>
      ⟨betweenNumbers_not_contains_nan run ordered, fun x => betweenNumbers_contains run double double'⟩

/-- The greatest double with a fraction, 2^52 - 1/2. -/
def greatestFraction : Number := .ofBits 0x432FFFFFFFFFFFFF

/-- The range of the least positive double holds it. The interval from the greatest fraction to infinity
holds both of its ends. -/
theorem greatestFraction_covered :
    (Number.ofBits 1).IsDouble ∧ greatestFraction.IsDouble ∧ Number.posInf.IsDouble ∧
      greatestFraction.le .posInf = true ∧ greatestFraction.le greatestFraction = true ∧
      Yields (ofNumber (.ofBits 1)) (fun t => t.contains (.ofBits 1) = true) ∧
      Yields (betweenNumbers greatestFraction .posInf) (fun t => t.contains .nan = false ∧
        t.contains greatestFraction = true ∧ t.contains .posInf = true) := by
  have least := Number.isDouble_ofBits 1
  have fraction : greatestFraction.IsDouble := Number.isDouble_ofBits _
  have infinite : Number.posInf.IsDouble := Number.isDouble_of_nonFinite rfl
  have below : greatestFraction.le .posInf = true := by decide +kernel
  have itself : greatestFraction.le greatestFraction = true := by decide +kernel
  obtain ⟨constants, intervals⟩ := doubles_covered
  refine ⟨least, fraction, infinite, below, itself, (constants _ least).mono fun t held => held.1, ?_⟩
  refine (intervals _ _ fraction infinite below).mono fun t ⟨number, held⟩ => ⟨number, ?_, ?_⟩
  · exact held _ fraction itself below
  · exact held _ infinite below rfl

end Rangefinder.Range
