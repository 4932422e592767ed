import Rangefinder.Proofs.Number.Doubles
import Rangefinder.Proofs.Range.Membership

/-!
# The order of ranges

Ranges are ordered part by part: bounds, fractions, exponent. For normal ranges this is the order by the
numbers that they hold, so a normal range is determined by its numbers. The union of two ranges takes the
parts together; it is the least range above both of them, and everything else about unions follows from
that.
-/

namespace Rangefinder.Range

variable {r s t : Range}

/-- Whatever the one range says about a number, the other one allows. -/
structure Within (r s : Range) : Prop where
  lower : ∀ l ∈ s.lower, ∃ k ∈ r.lower, l ≤ k
  upper : ∀ h ∈ s.upper, ∃ k ∈ r.upper, k ≤ h
  fractional : r.fractional = true → s.fractional = true
  exponent : r.exponent ≤ s.exponent

namespace Within

/-- A range is within itself. -/
theorem refl : r.Within r := ⟨fun l h => ⟨l, h, le_rfl⟩, fun l h => ⟨l, h, le_rfl⟩, id, le_rfl⟩

/-- Being within is transitive. -/
theorem trans (h : r.Within s) (h' : s.Within t) : r.Within t where
  lower l bound := by
    obtain ⟨k, bound, le⟩ := h'.lower l bound
    obtain ⟨j, bound, le'⟩ := h.lower k bound
    exact ⟨j, bound, le.trans le'⟩
  upper l bound := by
    obtain ⟨k, bound, le⟩ := h'.upper l bound
    obtain ⟨j, bound, le'⟩ := h.upper k bound
    exact ⟨j, bound, le'.trans le⟩
  fractional fraction := h'.fractional (h.fractional fraction)
  exponent := h.exponent.trans h'.exponent

/-- Lower ends are ordered. -/
theorem lo_le (h : r.Within s) (n : r.Normal) : s.lo ≤ r.lo := by
  cases bound : s.lower with
  | none =>
    rw [lo, bound]
    exact n.lower_fits
  | some l =>
    obtain ⟨k, found, le⟩ := h.lower l bound
    rwa [lo, lo, bound, Option.mem_def.mp found]

/-- Upper ends are ordered. -/
theorem le_hi (h : r.Within s) (n : r.Normal) : r.hi ≤ s.hi := by
  cases bound : s.upper with
  | none =>
    rw [hi, hi, bound]
    exact n.upper_fits
  | some l =>
    obtain ⟨k, found, le⟩ := h.upper l bound
    rwa [hi, hi, bound, Option.mem_def.mp found]

/-- A range within a closed one is closed. -/
theorem isClosed (h : r.Within s) (closed : s.isClosed = true) : r.isClosed = true := by
  rw [isClosed_iff] at closed ⊢
  obtain ⟨l, lower, -⟩ := h.lower s.lo (lower_eq_some closed.1)
  obtain ⟨u, upper, -⟩ := h.upper s.hi (upper_eq_some closed.2)
  exact ⟨Option.isSome_of_mem lower, Option.isSome_of_mem upper⟩

/-- A normal range stays within another one that is tightened. -/
theorem tighten (h : r.Within s) (n : r.Normal) : r.Within s.tighten := by
  rw [Range.tighten]
  split
  · next closed =>
    have lower := h.lo_le n
    have upper := h.le_hi n
    have ordered := n.ordered
    have own := h.isClosed closed
    refine ⟨h.lower, h.upper, fun fraction => ?_, le_min ?_ h.exponent⟩
    · have apart : r.lo ≠ r.hi := by
        intro point
        rw [n.point_integral own point] at fraction
        cases fraction
      simp only [h.fractional fraction, Bool.true_and, decide_eq_true_iff]
      omega
    · rw [n.closed_exponent own]
      exact log2_mono (by omega)
  · exact h

/-- A side that is open stays open in every range that the range is within. -/
theorem lower_none (h : r.Within s) (isOpen : r.lower = none) : s.lower = none := by
  refine Option.eq_none_iff_forall_not_mem.mpr fun l bound => ?_
  obtain ⟨k, found, -⟩ := h.lower l bound
  rw [isOpen] at found
  cases found

/-- Open ends stay open. -/
theorem upper_none (h : r.Within s) (isOpen : r.upper = none) : s.upper = none := by
  refine Option.eq_none_iff_forall_not_mem.mpr fun l bound => ?_
  obtain ⟨k, found, -⟩ := h.upper l bound
  rw [isOpen] at found
  cases found

/-- Infinities are not lost. -/
theorem canBeNonFinite (h : r.Within s) (infinite : r.canBeNonFinite = true) :
    s.canBeNonFinite = true := by
  rw [Range.canBeNonFinite, decide_eq_true_iff] at infinite ⊢
  exact infinite.trans h.exponent

/-- NaN is not lost. -/
theorem canBeNaN (h : r.Within s) (valid : IsExponent s.exponent) (nan : r.canBeNaN = true) :
    s.canBeNaN = true := by
  have grown := h.exponent
  rw [Range.canBeNaN, beq_iff_eq] at nan ⊢
  unfold IsExponent maxFiniteExponent infinityExponent at valid
  unfold nanExponent at *
  omega

/-- A number of a range belongs to every range that the range is within. -/
theorem contains (h : r.Within s) (valid : IsExponent s.exponent) {a : Number}
    (member : r.contains a = true) : s.contains a = true := by
  by_cases number : a = .nan
  · subst number
    exact h.canBeNaN valid member
  rw [contains_iff_spans number] at member ⊢
  refine ⟨fun l bound => ?_, fun u bound => ?_, fun whole => member.integral ?_, fun finite => ?_⟩
  · obtain ⟨k, found, le⟩ := h.lower l bound
    exact Number.le_trans (Number.le_ofInt.trans (decide_eq_true le)) (member.lower k found)
  · obtain ⟨k, found, le⟩ := h.upper u bound
    exact Number.le_trans (member.upper k found) (Number.le_ofInt.trans (decide_eq_true le))
  · exact Bool.eq_false_iff.mpr fun fraction => Bool.eq_false_iff.mp whole (h.fractional fraction)
  · obtain ⟨x, value, small⟩ := member.covered
      (Bool.eq_false_iff.mpr fun infinite => Bool.eq_false_iff.mp finite (h.canBeNonFinite infinite))
    refine ⟨x, value, small.trans_le ?_⟩
    exact Nat.cast_le.mpr (pow2_le_pow2 (Nat.add_le_add_right h.exponent 1))

/-- Ranges within each other have the same parts. -/
theorem antisymm (h : r.Within s) (h' : s.Within r) : r.numeric = s.numeric := by
  have lowers : ∀ {r s : Range}, r.Within s → s.Within r → ∀ l ∈ r.lower, l ∈ s.lower := by
    intro r s h h' l bound
    obtain ⟨k, found, le⟩ := h'.lower l bound
    obtain ⟨j, found', le'⟩ := h.lower k found
    obtain rfl := Option.mem_unique bound found'
    exact le_antisymm le le' ▸ found
  have uppers : ∀ {r s : Range}, r.Within s → s.Within r → ∀ l ∈ r.upper, l ∈ s.upper := by
    intro r s h h' l bound
    obtain ⟨k, found, le⟩ := h'.upper l bound
    obtain ⟨j, found', le'⟩ := h.upper k found
    obtain rfl := Option.mem_unique bound found'
    exact le_antisymm le' le ▸ found
  have lower : r.lower = s.lower := Option.ext fun l => ⟨lowers h h' l, lowers h' h l⟩
  have upper : r.upper = s.upper := Option.ext fun l => ⟨uppers h h' l, uppers h' h l⟩
  have fractional : r.fractional = s.fractional := Bool.eq_iff_iff.mpr ⟨h.fractional, h'.fractional⟩
  have exponent : r.exponent = s.exponent := le_antisymm h.exponent h'.exponent
  rw [numeric, numeric, lower, upper, fractional, exponent]

end Within

/-! ### The order by numbers -/

section Numbers

variable {x : Rat} (n : r.Normal)

include n

/-- The exponent of a normal range covers what it encloses close to int32. -/
theorem Normal.holds_of_encloses (inside : r.Encloses x)
    (integral : r.fractional = false → ∃ i : Int, (i : Rat) = x)
    (lower : ((int32Min - 1 : Int) : Rat) ≤ x) (upper : x ≤ (int32Max + 1 : Int)) : r.Holds x := by
  refine ⟨inside, integral, fun _ => ?_⟩
  cases closed : r.isClosed with
  | true =>
    obtain ⟨lower, upper⟩ := inside.between_of_isClosed closed
    rw [n.closed_exponent closed]
    exact abs_lt_of_between lower upper
  | false =>
    refine (abs_lt_of_between lower upper).trans_le (Nat.cast_le.mpr (pow2_le_pow2 ?_))
    exact Nat.add_le_add_right (le_trans (by decide) (n.open_exponent closed)) 1

/-- A range open below holds an integer below int32. -/
theorem Normal.holds_below (isOpen : r.lower = none) : r.Holds (int32Min - 1 : Int) := by
  refine n.holds_of_encloses ⟨by simp [isOpen], fun h bound => ?_⟩ (fun _ => ⟨_, rfl⟩) le_rfl
    (Int.cast_le.mpr (by decide))
  have fits := n.isInt32_hi.1
  rw [hi_eq bound] at fits
  exact Int.cast_le.mpr (by omega)

/-- A range open above holds an integer above int32. -/
theorem Normal.holds_above (isOpen : r.upper = none) : r.Holds (int32Max + 1 : Int) := by
  refine n.holds_of_encloses ⟨fun l bound => ?_, by simp [isOpen]⟩ (fun _ => ⟨_, rfl⟩)
    (Int.cast_le.mpr (by decide)) le_rfl
  have fits := n.isInt32_lo.2
  rw [lo_eq bound] at fits
  exact Int.cast_le.mpr (by omega)

/-- A half whose neighbours lie within the bounds belongs to a range with fractions. -/
theorem Normal.holds_half {i : Int} (fraction : r.fractional = true) (least : int32Min - 1 ≤ i)
    (greatest : i ≤ int32Max) (lower : ∀ l ∈ r.lower, l ≤ i) (upper : ∀ h ∈ r.upper, i + 1 ≤ h) :
    r.Holds (i + 1 / 2) := by
  have around : ∀ {l h : Int}, l ≤ i → i + 1 ≤ h → (l : Rat) ≤ i + 1 / 2 ∧ (i : Rat) + 1 / 2 ≤ h := by
    intro l h below above
    have below : (l : Rat) ≤ i := Int.cast_le.mpr below
    have above : (i : Rat) + 1 ≤ h := by exact_mod_cast above
    constructor <;> linarith
  obtain ⟨below, above⟩ := around least (Int.add_le_add_right greatest 1)
  refine n.holds_of_encloses ⟨?_, ?_⟩ (by simp [fraction]) below above
  · exact fun l bound => (around (lower l bound) le_rfl).1
  · exact fun h bound => (around le_rfl (upper h bound)).2

/-- A range with fractions holds a half. -/
theorem Normal.exists_half (fraction : r.fractional = true) :
    ∃ i : Int, i.natAbs < pow2 52 ∧ r.Holds (i + 1 / 2) := by
  have limits := n.isInt32_lo
  have limits' := n.isInt32_hi
  have width : 4294967296 ≤ pow2 52 := pow2_le_pow2 (k := 32) (by decide)
  unfold IsInt32 at limits limits'
  have small : ∀ i : Int, int32Min - 1 ≤ i → i ≤ int32Max → i.natAbs < pow2 52 := by
    unfold int32Min int32Max
    omega
  cases own : r.lower with
  | none =>
    refine ⟨r.hi - 1, small _ (by omega) (by omega), ?_⟩
    refine n.holds_half fraction (by omega) (by omega) (by simp [own]) fun h bound => ?_
    rw [hi_eq bound]
    omega
  | some k =>
    refine ⟨r.lo, small _ (by omega) (by omega), ?_⟩
    refine n.holds_half fraction (by omega) (by omega) (fun l bound => (lo_eq bound).ge) fun h bound => ?_
    have apart : r.lo ≠ r.hi := by
      intro point
      have closed : r.isClosed = true := isClosed_iff.mpr ⟨by simp [own], Option.isSome_of_mem bound⟩
      rw [n.point_integral closed point] at fraction
      cases fraction
    have ordered := n.ordered
    rw [hi_eq bound] at apart ordered
    omega

/-- An open range with a finite exponent holds the power of two of that exponent, with the sign of an open
side. -/
theorem Normal.exists_pow2 (isOpen : r.isClosed = false) :
    ∃ sign : Int, sign.natAbs = 1 ∧ r.Holds (sign * pow2 r.exponent : Int) := by
  have large : 2147483648 ≤ pow2 r.exponent := pow2_le_pow2 (k := 31) (n.open_exponent isOpen)
  have covered : ∀ sign : Int, sign.natAbs = 1 →
      |((sign * pow2 r.exponent : Int) : Rat)| < (pow2 (r.exponent + 1) : Nat) := by
    intro sign unit
    rw [← Int.cast_abs, Int.abs_eq_natAbs, Int.cast_natCast, Int.natAbs_mul, unit, one_mul,
      Int.natAbs_natCast, pow2_succ]
    exact Nat.cast_lt.mpr (by omega)
  rcases isClosed_eq_false_iff.mp isOpen with below | above
  · refine ⟨-1, rfl, ⟨by simp [below], fun h bound => ?_⟩, fun _ => ⟨_, rfl⟩, fun _ => covered (-1) rfl⟩
    have fits := n.isInt32_hi.1
    rw [hi_eq bound] at fits
    unfold int32Min at fits
    exact Int.cast_le.mpr (by omega)
  · refine ⟨1, rfl, ⟨fun l bound => ?_, by simp [above]⟩, fun _ => ⟨_, rfl⟩, fun _ => covered 1 rfl⟩
    have fits := n.isInt32_lo.2
    rw [lo_eq bound] at fits
    unfold int32Max at fits
    exact Int.cast_le.mpr (by omega)

/-- The exponent of a normal range is not above that of a range that holds its doubles. -/
theorem Normal.exponent_le_of_contains
    (held : ∀ a : Number, a.IsDouble → r.contains a = true → s.contains a = true) :
    r.exponent ≤ s.exponent := by
  rcases n.isExponent with finite | infinite | nan
  · by_cases beyond : infinityExponent ≤ s.exponent
    · exact finite.trans (le_trans (by decide) beyond)
    have covers : ∀ i : Int, (Number.ofInt i).IsDouble → r.Holds i → i.natAbs.log2 ≤ s.exponent := by
      intro i double own
      have other := contains_ofInt.mp (held _ double (contains_ofInt.mpr own))
      have small := other.covered (decide_eq_false beyond)
      rw [← Int.cast_abs, Int.abs_eq_natAbs, Int.cast_natCast] at small
      exact log2_le_iff.mpr (Nat.cast_lt.mp small)
    cases closed : r.isClosed with
    | true =>
      have endpoint : ∀ i : Int, IsInt32 i → r.Holds i → i.natAbs.log2 ≤ s.exponent := fun i fits =>
        covers i (Number.isDouble_ofInt (fits.natAbs_le.trans_lt (by decide)))
      rw [n.closed_exponent closed]
      exact log2_max_le_iff.mpr ⟨endpoint _ n.isInt32_lo (n.holds_intCast le_rfl n.ordered),
        endpoint _ n.isInt32_hi (n.holds_intCast n.ordered le_rfl)⟩
    | false =>
      obtain ⟨sign, unit, own⟩ := n.exists_pow2 closed
      have power := covers _ (Number.isDouble_pow2 unit (Nat.lt_succ_of_le finite)) own
      rwa [Int.natAbs_mul, unit, one_mul, Int.natAbs_natCast, pow2_eq, Nat.log2_two_pow] at power
  · have isOpen : r.isClosed = false := Bool.eq_false_iff.mpr fun closed =>
      absurd (infinite ▸ n.exponent_le closed) (by decide)
    rcases isClosed_eq_false_iff.mp isOpen with below | above
    · have own : r.contains .negInf = true := contains_negInf.mpr ⟨infinite.ge, below⟩
      exact infinite.le.trans (contains_negInf.mp (held _ (Number.isDouble_of_nonFinite rfl) own)).1
    · have own : r.contains .posInf = true := contains_posInf.mpr ⟨infinite.ge, above⟩
      exact infinite.le.trans (contains_posInf.mp (held _ (Number.isDouble_of_nonFinite rfl) own)).1
  · have own : r.contains .nan = true := contains_nan.mpr nan
    rw [nan, contains_nan.mp (held _ (Number.isDouble_of_nonFinite rfl) own)]

/-- A normal range is within every normal range that holds its doubles. -/
theorem Normal.within_of_contains (m : s.Normal)
    (held : ∀ a : Number, a.IsDouble → r.contains a = true → s.contains a = true) : r.Within s := by
  have integers : ∀ i : Int, i.natAbs ≤ 2147483649 → r.Holds i → s.Holds i := by
    intro i small own
    refine contains_ofInt.mp (held _ (Number.isDouble_ofInt ?_) (contains_ofInt.mpr own))
    exact small.trans_lt (by decide)
  refine ⟨fun l bound => ?_, fun h bound => ?_, fun fraction => ?_, n.exponent_le_of_contains held⟩
  · cases own : r.lower with
    | none =>
      have below := Int.cast_le.mp ((integers _ (by decide) (n.holds_below own)).lower l bound)
      have fits := m.lower_fits
      rw [lo_eq bound] at fits
      omega
    | some k =>
      have small := n.isInt32_lo.natAbs_le
      have least := (integers _ (by omega) (n.holds_intCast le_rfl n.ordered)).lower l bound
      rw [lo_eq own] at least
      exact ⟨k, rfl, Int.cast_le.mp least⟩
  · cases own : r.upper with
    | none =>
      have above := Int.cast_le.mp ((integers _ (by decide) (n.holds_above own)).upper h bound)
      have fits := m.upper_fits
      rw [hi_eq bound] at fits
      omega
    | some k =>
      have small := n.isInt32_hi.natAbs_le
      have greatest := (integers _ (by omega) (n.holds_intCast n.ordered le_rfl)).upper h bound
      rw [hi_eq own] at greatest
      exact ⟨k, rfl, Int.cast_le.mp greatest⟩
  · obtain ⟨i, small, own⟩ := n.exists_half fraction
    by_contra whole
    obtain ⟨j, same⟩ := (contains_finite.mp (held _ (Number.isDouble_half small)
      (contains_finite.mpr own))).integral (Bool.eq_false_iff.mpr whole)
    have doubled : (2 * j : Rat) = 2 * i + 1 := by linarith
    have doubled : 2 * j = 2 * i + 1 := by exact_mod_cast doubled
    omega

end Numbers

/-! ### Unions -/

variable {u : Range}

/-- The parts of two ranges taken together. -/
def hull (r s : Range) : Range :=
  ⟨if r.lower.isSome && s.lower.isSome then some (min r.lo s.lo) else none,
    if r.upper.isSome && s.upper.isSome then some (max r.hi s.hi) else none, r.fractional || s.fractional,
    max r.exponent s.exponent, none, none⟩

/-- A union is the hull of its parts in normal form. -/
theorem normalize_hull (run : r.union s = .ok u) : (hull r s).normalize = .ok u := normalize_of_raw run

/-- The hull is symmetric. -/
theorem hull_comm (r s : Range) : hull r s = hull s r := by
  rw [hull, hull, Bool.and_comm, min_comm, Bool.and_comm r.upper.isSome, max_comm r.hi, Bool.or_comm,
    max_comm r.exponent]

/-- The hull spans the first range. -/
theorem within_hull_left (r s : Range) : r.Within (hull r s) := by
  refine ⟨fun l bound => ?_, fun h bound => ?_, fun fraction => ?_, le_max_left _ _⟩
  · simp only [hull, Option.mem_def, Option.ite_none_right_eq_some, Bool.and_eq_true,
      Option.some.injEq] at bound
    obtain ⟨⟨some, -⟩, rfl⟩ := bound
    exact ⟨r.lo, lower_eq_some some, min_le_left _ _⟩
  · simp only [hull, Option.mem_def, Option.ite_none_right_eq_some, Bool.and_eq_true,
      Option.some.injEq] at bound
    obtain ⟨⟨some, -⟩, rfl⟩ := bound
    exact ⟨r.hi, upper_eq_some some, le_max_left _ _⟩
  · simp [hull, fraction]

/-- The hull spans the second range. -/
theorem within_hull_right (r s : Range) : s.Within (hull r s) := hull_comm s r ▸ within_hull_left s r

/-- Taking parts together stays within every range that both ranges are within. -/
theorem hull_within (left : r.Within t) (right : s.Within t) : (hull r s).Within t := by
  refine ⟨fun l bound => ?_, fun h bound => ?_, fun fraction => ?_, max_le left.exponent right.exponent⟩
  · obtain ⟨k, found, le⟩ := left.lower l bound
    obtain ⟨k', found', le'⟩ := right.lower l bound
    refine ⟨min r.lo s.lo, ?_, le_min ((lo_eq found).symm ▸ le) ((lo_eq found').symm ▸ le')⟩
    simp [hull, Option.mem_def.mp found, Option.mem_def.mp found']
  · obtain ⟨k, found, le⟩ := left.upper h bound
    obtain ⟨k', found', le'⟩ := right.upper h bound
    refine ⟨max r.hi s.hi, ?_, max_le ((hi_eq found).symm ▸ le) ((hi_eq found').symm ▸ le')⟩
    simp [hull, Option.mem_def.mp found, Option.mem_def.mp found']
  · exact (Bool.or_eq_true_iff.mp fraction).elim left.fractional right.fractional

/-- Tightening shrinks. -/
theorem tighten_within : r.tighten.Within r := by
  rw [tighten]
  split
  · exact ⟨fun l bound => ⟨l, bound, le_rfl⟩, fun h bound => ⟨h, bound, le_rfl⟩,
      fun fraction => (Bool.and_eq_true_iff.mp fraction).1, min_le_right _ _⟩
  · exact .refl

/-- The union of two normal ranges holds both of them. -/
theorem union_within (n : r.Normal) (m : s.Normal) :
    Yields (r.union s) fun t => t.Normal ∧ r.Within t ∧ s.Within t := by
  refine (union_yields n m).of_run fun t run normal => ⟨normal, ?_⟩
  obtain ⟨-, rfl⟩ := normalize_eq_ok.mp (normalize_hull run)
  exact ⟨(within_hull_left r s).tighten n, (within_hull_right r s).tighten m⟩

/-- It is the least such range. -/
theorem union_least (run : r.union s = .ok u) (left : r.Within t) (right : s.Within t) : u.Within t := by
  obtain ⟨-, rfl⟩ := normalize_eq_ok.mp (normalize_hull run)
  exact tighten_within.trans (hull_within left right)

/-- Unions are symmetric. -/
theorem union_comm (r s : Range) : r.union s = s.union r := by
  rw [union, union, min_comm, Bool.and_comm, max_comm, Bool.and_comm r.upper.isSome, Bool.or_comm,
    max_comm r.exponent]

/-- Ranges without symbolic bounds that are within each other are equal. -/
theorem Within.eq (h : r.Within s) (h' : s.Within r) (numeric : r.IsNumeric) (numeric' : s.IsNumeric) :
    r = s := by
  rw [← numeric.numeric_eq, ← numeric'.numeric_eq, h.antisymm h']

/-- Unions are idempotent. -/
theorem union_self (n : r.Normal) : r.union r = .ok r.numeric := by
  obtain ⟨u, run, -, above, -⟩ := union_within n n
  have below : u.Within r := union_least run .refl .refl
  rw [run, ← (union_isNumeric run).numeric_eq, below.antisymm above]

/-- Three ranges have one least range above them, whichever two are joined first. -/
theorem union_assoc (n : r.Normal) (m : s.Normal) (k : t.Normal) :
    Yields (r.union s >>= fun u => u.union t) fun w => (s.union t >>= fun u => r.union u) = .ok w := by
  obtain ⟨u, first, hu, ru, su⟩ := union_within n m
  obtain ⟨w, second, -, uw, tw⟩ := union_within hu k
  obtain ⟨v, first', hv, sv, tv⟩ := union_within m k
  obtain ⟨w', second', -, rw', vw'⟩ := union_within n hv
  have below : w.Within w' :=
    union_least second (union_least first rw' (sv.trans vw')) (tv.trans vw')
  have above : w'.Within w :=
    union_least second' (ru.trans uw) (union_least first' (su.trans uw) tw)
  obtain rfl := below.eq above (union_isNumeric second) (union_isNumeric second')
  exact ⟨w, bind_eq_ok.mpr ⟨u, first, second⟩, bind_eq_ok.mpr ⟨v, first', second'⟩⟩

end Rangefinder.Range
