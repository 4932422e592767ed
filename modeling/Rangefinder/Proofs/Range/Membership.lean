import Rangefinder.Proofs.Number.Order
import Rangefinder.Proofs.Number.Words
import Rangefinder.Proofs.Range.Lattice

/-!
# Members of ranges

A finite value belongs to a range when it lies within the bounds, is an integer unless the range has
fractions, and is covered by the exponent; an infinity needs an open side, and NaN the exponent that
stands for it. This module takes `Range.contains` apart into these conditions and shows that building a
range from endpoints keeps them: an endpoint beyond int32 leaves its side open, and what tightening reads
off the endpoints holds of everything between them.

A bitwise operation reads its operands as int32. The range of the reading holds the int32 that is read,
for every number of the range, NaN and the infinities included.
-/

namespace Rangefinder

/-- The magnitude is the absolute value. -/
theorem magnitude_eq_abs (x : Rat) : magnitude x = |x| := by
  unfold magnitude
  split
  · next negative => exact (abs_of_neg negative).symm
  · next nonneg => exact (abs_of_nonneg (not_lt.mp nonneg)).symm

namespace Range

variable {r s t : Range} {x : Rat} {a : Number} {l h : Int} {fractional : Bool} {e : Nat} {i : Int}

/-- The value lies within the bounds of the range; an open side sets none. -/
structure Encloses (r : Range) (x : Rat) : Prop where
  lower : ∀ l ∈ r.lower, (l : Rat) ≤ x
  upper : ∀ h ∈ r.upper, x ≤ (h : Rat)

/-- The finite value belongs to the range. -/
structure Holds (r : Range) (x : Rat) : Prop extends Encloses r x where
  /-- Without fractions it is an integer. -/
  integral : r.fractional = false → ∃ n : Int, (n : Rat) = x
  /-- A finite exponent bounds its magnitude. -/
  covered : r.canBeNonFinite = false → |x| < (pow2 (r.exponent + 1) : Nat)

/-- The test decides `Holds`. -/
theorem holds_iff : contains.holds r x = true ↔ r.Holds x := by
  have integer : x.den = 1 ↔ ∃ n : Int, (n : Rat) = x :=
    ⟨fun whole => ⟨x.num, (Rat.den_eq_one_iff x).mp whole⟩, fun ⟨n, same⟩ => same ▸ Rat.den_intCast n⟩
  simp only [contains.holds, magnitude_eq_abs, Bool.and_eq_true, Bool.or_eq_true, Option.all_eq_true,
    decide_eq_true_eq, beq_iff_eq, integer, Int.cast_natCast]
  constructor
  · rintro ⟨⟨⟨lower, upper⟩, integral⟩, covered⟩
    exact ⟨⟨lower, upper⟩, fun whole => integral.resolve_left (by simp [whole]),
      fun finite => covered.resolve_left (by simp [finite])⟩
  · intro member
    refine ⟨⟨⟨member.lower, member.upper⟩, ?_⟩, ?_⟩
    · cases whole : r.fractional with
      | true => exact .inl rfl
      | false => exact .inr (member.integral whole)
    · cases finite : r.canBeNonFinite with
      | true => exact .inl rfl
      | false => exact .inr (member.covered finite)

/-- Both zeros belong to a range when the value zero does. -/
theorem contains_iff_of_toRat? (value : a.toRat? = some x) : r.contains a = true ↔ r.Holds x := by
  rcases Number.eq_of_toRat? value with rfl | ⟨rfl, rfl⟩
  · exact holds_iff
  · exact holds_iff

/-- When a finite number is a member. -/
theorem contains_finite : r.contains (.finite x) = true ↔ r.Holds x := contains_iff_of_toRat? rfl

/-- When an integer is a member. -/
theorem contains_ofInt {n : Int} : r.contains (.ofInt n) = true ↔ r.Holds n :=
  contains_iff_of_toRat? rfl

/-- When NaN is a member. -/
theorem contains_nan : r.contains .nan = true ↔ r.exponent = nanExponent := beq_iff_eq

/-- When infinity is a member. -/
theorem contains_posInf :
    r.contains .posInf = true ↔ infinityExponent ≤ r.exponent ∧ r.upper = none := by
  rw [contains, Bool.and_eq_true, canBeNonFinite, decide_eq_true_iff, Option.isNone_iff_eq_none]

/-- When its negation is a member. -/
theorem contains_negInf :
    r.contains .negInf = true ↔ infinityExponent ≤ r.exponent ∧ r.lower = none := by
  rw [contains, Bool.and_eq_true, canBeNonFinite, decide_eq_true_iff, Option.isNone_iff_eq_none]

/-- When members may be infinite. -/
theorem canBeNonFinite_iff : r.canBeNonFinite = true ↔ infinityExponent ≤ r.exponent :=
  decide_eq_true_iff

/-- What a range asks of a number other than NaN. Infinities lie beyond every bound, and no finite exponent
covers them. -/
structure Spans (r : Range) (a : Number) : Prop where
  lower : ∀ l ∈ r.lower, (Number.ofInt l).le a = true
  upper : ∀ h ∈ r.upper, a.le (.ofInt h) = true
  integral : r.fractional = false → ∀ x, a.toRat? = some x → ∃ n : Int, (n : Rat) = x
  covered : r.canBeNonFinite = false → ∃ x, a.toRat? = some x ∧ |x| < (pow2 (r.exponent + 1) : Nat)

/-- Members other than NaN. -/
theorem contains_iff_spans (number : a ≠ .nan) : r.contains a = true ↔ r.Spans a := by
  -- Without a value, a number asks for an exponent beyond the finite ones.
  have nonFinite : a.toRat? = none → r.Spans a → infinityExponent ≤ r.exponent := by
    intro none spans
    rw [← canBeNonFinite_iff, ← Bool.not_eq_false]
    intro finite
    obtain ⟨x, value, -⟩ := spans.covered finite
    rw [none] at value
    cases value
  rcases Number.eq_inf_or_value number with rfl | rfl | ⟨x, value⟩
  · rw [contains_negInf]
    constructor
    · rintro ⟨infinite, isOpen⟩
      refine ⟨by simp [isOpen], fun h _ => rfl, by simp [Number.toRat?], fun finite => ?_⟩
      exact absurd infinite (of_decide_eq_false finite)
    · intro spans
      refine ⟨nonFinite rfl spans, Option.eq_none_iff_forall_not_mem.mpr fun l bound => ?_⟩
      cases spans.lower l bound
  · rw [contains_posInf]
    constructor
    · rintro ⟨infinite, isOpen⟩
      refine ⟨fun l _ => rfl, by simp [isOpen], by simp [Number.toRat?], fun finite => ?_⟩
      exact absurd infinite (of_decide_eq_false finite)
    · intro spans
      refine ⟨nonFinite rfl spans, Option.eq_none_iff_forall_not_mem.mpr fun h bound => ?_⟩
      cases spans.upper h bound
  · rw [contains_iff_of_toRat? value]
    constructor
    · intro holds
      refine ⟨fun l bound => ?_, fun h bound => ?_, fun whole y own => ?_, fun finite => ?_⟩
      · rw [Number.le_of_values rfl value]
        exact decide_eq_true (holds.lower l bound)
      · rw [Number.le_of_values value rfl]
        exact decide_eq_true (holds.upper h bound)
      · exact Option.some.inj (value.symm.trans own) ▸ holds.integral whole
      · exact ⟨x, value, holds.covered finite⟩
    · intro spans
      refine ⟨⟨fun l bound => ?_, fun h bound => ?_⟩, fun whole => ?_, fun finite => ?_⟩
      · have below := spans.lower l bound
        rw [Number.le_of_values rfl value] at below
        exact of_decide_eq_true below
      · have above := spans.upper h bound
        rw [Number.le_of_values value rfl] at above
        exact of_decide_eq_true above
      · exact spans.integral whole x value
      · obtain ⟨y, own, small⟩ := spans.covered finite
        exact Option.some.inj (own.symm.trans value) ▸ small

/-- The range of all numbers holds every number. -/
theorem unknown_contains (a : Number) : unknown.contains a = true := by
  have finite : ∀ x, unknown.Holds x := by
    intro x
    refine ⟨⟨by simp [unknown], by simp [unknown]⟩, ?_, ?_⟩
    · intro whole
      cases whole
    · intro bounded
      cases bounded
  cases a with
  | nan => rfl
  | posInf => rfl
  | negInf => rfl
  | negZero => exact (contains_iff_of_toRat? rfl).mpr (finite 0)
  | finite x => exact contains_finite.mpr (finite x)

/-! ### Bounds -/

/-- Closed ranges bound members. -/
theorem Encloses.between_of_isClosed (inside : r.Encloses x) (closed : r.isClosed = true) :
    (r.lo : Rat) ≤ x ∧ x ≤ r.hi := by
  obtain ⟨lower, upper⟩ := isClosed_iff.mp closed
  exact ⟨inside.lower _ (lower_eq_some lower), inside.upper _ (upper_eq_some upper)⟩

/-- The endpoint of an open side bounds nothing beyond int32. -/
theorem Encloses.lo_le (inside : r.Encloses x) (fits : (int32Min : Rat) ≤ x) : (r.lo : Rat) ≤ x := by
  rw [lo]
  cases bound : r.lower with
  | none => exact fits
  | some l => exact inside.lower l bound

/-- Int32 members are bounded above. -/
theorem Encloses.le_hi (inside : r.Encloses x) (fits : x ≤ (int32Max : Rat)) : x ≤ r.hi := by
  rw [hi]
  cases bound : r.upper with
  | none => exact fits
  | some u => exact inside.upper u bound

/-- An endpoint within int32 is a bound. -/
theorem Encloses.lo_le_of_bounded (inside : r.Encloses x) (bounded : int32Min < r.lo) :
    (r.lo : Rat) ≤ x := by
  rw [lo] at bounded ⊢
  cases bound : r.lower with
  | none => simp [bound] at bounded
  | some l => exact inside.lower l bound

/-- A real upper end bounds all. -/
theorem Encloses.le_hi_of_bounded (inside : r.Encloses x) (bounded : r.hi < int32Max) :
    x ≤ r.hi := by
  rw [hi] at bounded ⊢
  cases bound : r.upper with
  | none => simp [bound] at bounded
  | some u => exact inside.upper u bound

/-- What lies between is enclosed. -/
theorem encloses_of_between (lower : (r.lo : Rat) ≤ x) (upper : x ≤ r.hi) : r.Encloses x := by
  refine ⟨fun l bound => ?_, fun h bound => ?_⟩
  · rwa [lo, Option.mem_def.mp bound] at lower
  · rwa [hi, Option.mem_def.mp bound] at upper

/-- Numbers between two integers are not greater than the greater of their magnitudes. -/
theorem abs_le_of_between (lower : (l : Rat) ≤ x) (upper : x ≤ h) :
    |x| ≤ (max l.natAbs h.natAbs : Nat) := by
  have below : -((max l.natAbs h.natAbs : Nat) : Int) ≤ l := by omega
  have above : h ≤ ((max l.natAbs h.natAbs : Nat) : Int) := by omega
  have below : ((-((max l.natAbs h.natAbs : Nat) : Int) : Int) : Rat) ≤ l := Int.cast_le.mpr below
  rw [Int.cast_neg, Int.cast_natCast] at below
  have above : (h : Rat) ≤ ((max l.natAbs h.natAbs : Nat) : Int) := Int.cast_le.mpr above
  rw [Int.cast_natCast] at above
  exact abs_le.mpr ⟨below.trans lower, upper.trans above⟩

/-- They are covered by its exponent. -/
theorem abs_lt_of_between (lower : (l : Rat) ≤ x) (upper : x ≤ h) :
    |x| < (pow2 ((max l.natAbs h.natAbs).log2 + 1) : Nat) :=
  (abs_le_of_between lower upper).trans_lt (Nat.cast_lt.mpr (log2_le_iff.mp le_rfl))

/-- A normal range holds the integers between its endpoints. -/
theorem Normal.holds_intCast (n : r.Normal) (lower : r.lo ≤ i) (upper : i ≤ r.hi) :
    r.Holds i := by
  refine ⟨encloses_of_between (Int.cast_le.mpr lower) (Int.cast_le.mpr upper), fun _ => ⟨i, rfl⟩,
    fun _ => ?_⟩
  rw [← Int.cast_abs, Int.abs_eq_natAbs, Int.cast_natCast]
  exact Nat.cast_lt.mpr (log2_le_iff.mp (n.covers_of_between lower upper))

/-- The numbers of a closed range are finite. -/
theorem Normal.exists_value (n : r.Normal) (closed : r.isClosed = true) (member : r.contains a = true) :
    ∃ x, a.toRat? = some x ∧ r.Holds x := by
  have finite : ¬infinityExponent ≤ r.exponent := by
    rw [← canBeNonFinite_iff, n.canBeNonFinite_eq_false closed]
    exact Bool.false_ne_true
  cases a with
  | nan =>
    refine absurd ?_ finite
    rw [contains_nan.mp member]
    decide
  | posInf => exact absurd (contains_posInf.mp member).1 finite
  | negInf => exact absurd (contains_negInf.mp member).1 finite
  | negZero => exact ⟨0, rfl, (contains_iff_of_toRat? rfl).mp member⟩
  | finite x => exact ⟨x, rfl, contains_finite.mp member⟩

/-! ### Building ranges -/

/-- Normalizing encloses the same. -/
theorem normalize_encloses (run : r.normalize = .ok s) (inside : r.Encloses x) : s.Encloses x := by
  obtain ⟨-, rfl⟩ := normalize_eq_ok.mp run
  rw [tighten]
  split
  · exact ⟨inside.lower, inside.upper⟩
  · exact inside

/-- Tightening changes no finite value: what it reads off the endpoints holds between them. -/
theorem holds_normalize (run : r.normalize = .ok s) : s.Holds x ↔ r.Holds x := by
  obtain ⟨rules, rfl⟩ := normalize_eq_ok.mp run
  obtain ⟨-, -, -, -, -, high, low⟩ := rules
  have least : r.impliedExponent ≤ r.exponent := log2_max_le_iff.mpr ⟨low, high⟩
  rw [tighten]
  split
  · next closed =>
    constructor
    · intro member
      have inside : r.Encloses x := ⟨member.lower, member.upper⟩
      obtain ⟨lower, upper⟩ := inside.between_of_isClosed closed
      refine ⟨inside, fun whole => member.integral (by simp [whole]), fun _ => ?_⟩
      exact (abs_lt_of_between lower upper).trans_le
        (Nat.cast_le.mpr (pow2_le_pow2 (Nat.add_le_add_right least 1)))
    · intro member
      obtain ⟨lower, upper⟩ := member.between_of_isClosed closed
      refine ⟨⟨member.lower, member.upper⟩, fun whole => ?_, fun _ => ?_⟩
      · rcases Bool.and_eq_false_iff.mp whole with whole | point
        · exact member.integral whole
        · have same : r.lo = r.hi := not_not.mp (of_decide_eq_false point)
          exact ⟨r.lo, le_antisymm lower (same ▸ upper)⟩
      · show |x| < ((pow2 (min r.impliedExponent r.exponent + 1) : Nat) : Rat)
        rw [min_eq_left least]
        exact abs_lt_of_between lower upper
  · exact Iff.rfl

/-- Normalizing loses no member. -/
theorem normalize_holds (run : r.normalize = .ok s) (member : r.Holds x) : s.Holds x :=
  (holds_normalize run).mpr member

/-- An open range is not tightened. -/
theorem normalize_eq_self (run : r.normalize = .ok s) (isOpen : r.isClosed = false) : s = r := by
  obtain ⟨-, rfl⟩ := normalize_eq_ok.mp run
  rw [tighten, isOpen]
  rfl

/-- Tightening changes no number, but for NaN in a closed range. -/
theorem contains_normalize (run : r.normalize = .ok s) (number : r.isClosed = true → a ≠ .nan) :
    s.contains a = true ↔ r.contains a = true := by
  cases closed : r.isClosed with
  | false => rw [normalize_eq_self run closed]
  | true =>
    have sides := isClosed_iff.mp closed
    obtain ⟨-, tightened⟩ := normalize_eq_ok.mp run
    have closed' : s.isClosed = true := by rw [← tightened, isClosed_tighten, closed]
    have sides' := isClosed_iff.mp closed'
    rcases Number.eq_inf_or_value (number closed) with rfl | rfl | ⟨x, value⟩
    · rw [contains_negInf, contains_negInf, lower_eq_some sides.1, lower_eq_some sides'.1]
      simp
    · rw [contains_posInf, contains_posInf, upper_eq_some sides.2, upper_eq_some sides'.2]
      simp
    · rw [contains_iff_of_toRat? value, contains_iff_of_toRat? value, holds_normalize run]

/-- Clamped lower ends are bounds. -/
theorem lowerBound_le {l' : Int} (bound : lowerBound l = some l') (lower : l < int32Min ∨ (l : Rat) ≤ x) :
    (l' : Rat) ≤ x := by
  have below : int32Min ≤ l ∧ l' ≤ l := by
    unfold lowerBound int32Min int32Max at *
    grind
  exact (Int.cast_le.mpr below.2).trans (lower.resolve_left (not_lt.mpr below.1))

/-- So are clamped upper ends. -/
theorem le_upperBound {h' : Int} (bound : upperBound h = some h') (upper : int32Max < h ∨ x ≤ (h : Rat)) :
    x ≤ (h' : Rat) := by
  have above : h ≤ int32Max ∧ h ≤ h' := by
    unfold upperBound int32Min int32Max at *
    grind
  exact (upper.resolve_left (not_lt.mpr above.1)).trans (Int.cast_le.mpr above.2)

/-- A range between endpoints is normalized with the exponent that is asked for, or that of int32. -/
theorem exists_between_eq (l h : Int) (fractional : Bool) (e : Nat) : ∃ e', e ≤ e' ∧
    e' ≤ max e int32Exponent ∧
    between l h fractional e = normalize ⟨lowerBound l, upperBound h, fractional, e', none, none⟩ := by
  refine ⟨_, ?_, ?_, rfl⟩
  · split
    · exact le_rfl
    · exact le_max_left _ _
  · split
    · exact le_max_left _ _
    · exact le_rfl

/-- The range between two endpoints encloses what lies between them; an endpoint beyond int32 sets no
bound. -/
theorem between_encloses (run : between l h fractional e = .ok t) (lower : l < int32Min ∨ (l : Rat) ≤ x)
    (upper : int32Max < h ∨ x ≤ (h : Rat)) : t.Encloses x := by
  obtain ⟨e', -, -, same⟩ := exists_between_eq l h fractional e
  exact normalize_encloses (same ▸ run) ⟨fun l' bound => lowerBound_le bound lower,
    fun h' bound => le_upperBound bound upper⟩

/-- The range between two endpoints holds what lies between them, where an endpoint beyond int32 sets no
bound, provided that it is an integer unless fractions are possible and that the exponent covers it. -/
theorem between_holds (run : between l h fractional e = .ok t) (lower : l < int32Min ∨ (l : Rat) ≤ x)
    (upper : int32Max < h ∨ x ≤ (h : Rat)) (integral : fractional = false → ∃ n : Int, (n : Rat) = x)
    (covered : e < infinityExponent → |x| < (pow2 (e + 1) : Nat)) : t.Holds x := by
  obtain ⟨e', wider, -, same⟩ := exists_between_eq l h fractional e
  refine normalize_holds (same ▸ run) ⟨⟨fun l' bound => lowerBound_le bound lower,
    fun h' bound => le_upperBound bound upper⟩, integral, fun finite => ?_⟩
  have finite : ¬infinityExponent ≤ e' := of_decide_eq_false finite
  calc |x| < (pow2 (e + 1) : Nat) := covered (wider.trans_lt (not_le.mp finite))
    _ ≤ (pow2 (e' + 1) : Nat) := Nat.cast_le.mpr (pow2_le_pow2 (Nat.add_le_add_right wider 1))

/-- An endpoint beyond int32 leaves its side open, and nothing is tightened then. -/
theorem between_of_open (run : between l h fractional e = .ok t) (isOpen : l < int32Min ∨ int32Max < h) :
    t.lower = lowerBound l ∧ t.upper = upperBound h ∧ e ≤ t.exponent ∧ IsExponent t.exponent := by
  obtain ⟨e', wider, -, same⟩ := exists_between_eq l h fractional e
  obtain ⟨rules, rfl⟩ := normalize_eq_ok.mp (same ▸ run)
  have opens : ((lowerBound l).isSome && (upperBound h).isSome) = false := by
    rw [Bool.and_eq_false_iff, ← Bool.not_eq_true, ← Bool.not_eq_true, (lowerBound_spec l).2,
      (upperBound_spec h).2]
    omega
  simp only [tighten, isClosed, opens]
  exact ⟨rfl, rfl, wider, rules.2.2.2.2.1⟩

/-- Without an exponent that stands for NaN, a range between endpoints does not hold it. -/
theorem between_not_contains_nan (run : between l h fractional e = .ok t) (small : e ≤ infinityExponent) :
    t.contains .nan = false := by
  obtain ⟨e', -, least, same⟩ := exists_between_eq l h fractional e
  obtain ⟨-, rfl⟩ := normalize_eq_ok.mp (same ▸ run)
  rw [← Bool.not_eq_true, contains_nan]
  refine (lt_of_le_of_lt exponent_tighten_le (least.trans_lt ?_)).ne
  exact (max_le small (by decide)).trans_lt (by decide)

/-- Open ranges may contain NaN. -/
theorem between_contains_nan (run : between l h fractional nanExponent = .ok t)
    (isOpen : l < int32Min ∨ int32Max < h) : t.contains .nan = true := by
  obtain ⟨-, -, least, valid⟩ := between_of_open run isOpen
  refine contains_nan.mpr ?_
  unfold IsExponent maxFiniteExponent infinityExponent nanExponent at *
  omega

/-- They may contain infinity. -/
theorem between_contains_posInf (run : between l h fractional e = .ok t) (isOpen : int32Max < h)
    (infinite : infinityExponent ≤ e) : t.contains .posInf = true := by
  obtain ⟨-, upper, exponent, -⟩ := between_of_open run (.inr isOpen)
  exact contains_posInf.mpr ⟨infinite.trans exponent, by rw [upper, upperBound, if_pos isOpen]⟩

/-- They may contain its negation. -/
theorem between_contains_negInf (run : between l h fractional e = .ok t) (isOpen : l < int32Min)
    (infinite : infinityExponent ≤ e) : t.contains .negInf = true := by
  obtain ⟨lower, -, exponent, -⟩ := between_of_open run (.inl isOpen)
  refine contains_negInf.mpr ⟨infinite.trans exponent, ?_⟩
  rw [lower, lowerBound, if_neg (not_lt.mpr (isOpen.le.trans (by decide))), if_pos isOpen]

/-- Endpoints around an integer of 32 bits make a range that holds it. An endpoint above int32 leaves the
range open. -/
theorem uint32_contains (fits : i.natAbs ≤ 4294967295) (lower : l ≤ i) (upper : i ≤ h) :
    Yields (uint32 l h) fun t => t.contains (.ofInt i) = true := by
  refine (uint32_yields (lower.trans upper)).of_run fun t run _ => contains_ofInt.mpr ?_
  refine between_holds run (.inr (Int.cast_le.mpr lower)) (.inr (Int.cast_le.mpr upper))
    (fun _ => ⟨i, rfl⟩) fun _ => ?_
  rw [← Int.cast_abs, Int.abs_eq_natAbs, Int.cast_natCast]
  exact Nat.cast_lt.mpr (fits.trans_lt (by decide))

/-- Int32 ranges hold what lies between. -/
theorem int32_contains (fits : IsInt32 i) (lower : l ≤ i) (upper : i ≤ h) :
    Yields (int32 l h) fun t => t.contains (.ofInt i) = true :=
  uint32_contains (fits.natAbs_le.trans (by decide)) lower upper

/-! ### Reading numbers as int32 -/

/-- The range is one of int32 values, and the integer lies between its endpoints. -/
structure Reads (r : Range) (i : Int) : Prop where
  normal : r.NormalInt32
  lower : r.lo ≤ i
  upper : i ≤ r.hi

namespace Reads

variable (reads : r.Reads i)

include reads

/-- What is read is an int32. -/
theorem isInt32 : IsInt32 i :=
  ⟨reads.normal.lower_fits.trans reads.lower, reads.upper.trans reads.normal.upper_fits⟩

/-- The range of a reading holds what is read. -/
theorem contains : r.contains (.ofInt i) = true :=
  contains_ofInt.mpr (reads.normal.holds_intCast reads.lower reads.upper)

/-- A range with one point reads one int32. -/
theorem eq_of_point {c : Int} (point : r.lo = r.hi ∧ r.lo = c) : i = c :=
  le_antisymm (reads.upper.trans (point.1 ▸ point.2).le) (point.2.ge.trans reads.lower)

end Reads

/-- Reducing to int32 keeps the endpoints of a closed range; an open one may become anything. -/
theorem wrapToInt32_endpoints (run : r.wrapToInt32 = .ok t) :
    (r.isClosed = true → t.lo = r.lo ∧ t.hi = r.hi) ∧
      (r.isClosed = false → t.lo = int32Min ∧ t.hi = int32Max) := by
  rw [wrapToInt32] at run
  split at run
  · next closed =>
    refine ⟨fun _ => ?_, by simp [closed]⟩
    split at run
    · obtain ⟨-, rfl⟩ := normalize_eq_ok.mp run
      rw [tighten]
      split
      · exact ⟨rfl, rfl⟩
      · exact ⟨rfl, rfl⟩
    · obtain rfl := Except.ok.inj run
      exact ⟨rfl, rfl⟩
  · next isOpen =>
    obtain ⟨-, rfl⟩ := checked_eq_ok.mp run
    exact ⟨fun closed => absurd closed isOpen, fun _ => ⟨rfl, rfl⟩⟩

/-- Reducing a range to int32 holds what its numbers are read as. -/
theorem wrapToInt32_reads (n : r.Normal) (member : r.contains a = true) :
    Yields r.wrapToInt32 fun t => t.Reads a.toInt32 := by
  refine (wrapToInt32_yields n).of_run fun t run int32 => ?_
  obtain ⟨kept, anything⟩ := wrapToInt32_endpoints run
  cases closed : r.isClosed with
  | true =>
    obtain ⟨x, value, holds⟩ := n.exists_value closed member
    obtain ⟨lower, upper⟩ := holds.between_of_isClosed closed
    have above := le_truncate lower
    have below := truncate_le upper
    rw [Number.toInt32_of_toRat? value,
      wrapInt32_of_isInt32 ⟨n.lower_fits.trans above, below.trans n.upper_fits⟩]
    exact ⟨int32, (kept closed).1.trans_le above, below.trans (kept closed).2.ge⟩
  | false =>
    have fits := a.isInt32_toInt32
    exact ⟨int32, (anything closed).1.trans_le fits.1, fits.2.trans (anything closed).2.ge⟩

/-- Operands are read modulo 2^32. -/
theorem asInt32_reads (n : r.Normal) (member : r.contains a = true) :
    Yields r.asInt32 fun t => t.Reads a.toInt32 :=
  wrapToInt32_reads n.numeric (by cases a <;> exact member)

end Range

end Rangefinder
