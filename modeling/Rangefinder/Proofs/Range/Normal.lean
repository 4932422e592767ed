import Rangefinder.Proofs.Number.Integers
import Rangefinder.Proofs.Range.Numeric

/-!
# Ranges in normal form

A range is normal when nothing more can be read off its endpoints: they are int32 values in order,
an open side leaves room beyond int32, and a closed range has the exponent of its greater endpoint
and no fractions at a single point. Every normal range passes the check of the representation rules,
and tightening a range that passes the check makes it normal; so it remains to show of each
operation that what it hands to `normalize`, `between` or `setInt32` obeys the rules.
-/

namespace Rangefinder

/-- The endpoints of int32 have the exponent of int32. -/
theorem IsInt32.log2_le {n : Int} (h : IsInt32 n) : n.natAbs.log2 ≤ int32Exponent :=
  log2_le_iff.mpr (h.natAbs_le.trans_lt (by decide))

namespace Range

variable {r s t : Range} {l h : Int}

/-- The exponent is that of a finite number, or one of the two beyond. -/
def IsExponent (e : Nat) : Prop := e ≤ maxFiniteExponent ∨ e = infinityExponent ∨ e = nanExponent

/-- The larger exponent is one. -/
theorem IsExponent.max {d e : Nat} (hd : IsExponent d) (he : IsExponent e) :
    IsExponent (max d e) := by
  rcases max_choice d e with same | same
  · rwa [same]
  · rwa [same]

/-- So is the smaller one. -/
theorem IsExponent.min {d e : Nat} (hd : IsExponent d) (he : IsExponent e) :
    IsExponent (min d e) := by
  rcases min_choice d e with same | same
  · rwa [same]
  · rwa [same]

/-- So is that of int32. -/
theorem isExponent_int32 : IsExponent int32Exponent := .inl (by decide)

/-- Two int32 values in order have the exponent of a finite number. -/
theorem isExponent_implied (lower : int32Min ≤ l) (ordered : l ≤ h) (upper : h ≤ int32Max) :
    IsExponent (max l.natAbs h.natAbs).log2 := by
  have small : (max l.natAbs h.natAbs).log2 ≤ int32Exponent :=
    log2_max_le_iff.mpr ⟨IsInt32.log2_le ⟨lower, ordered.trans upper⟩,
      IsInt32.log2_le ⟨lower.trans ordered, upper⟩⟩
  exact .inl (small.trans (by decide))

/-- A range of which nothing more is to be read off its endpoints. The endpoint of an open side is
the matching limit of int32. -/
structure Normal (r : Range) : Prop where
  /-- The lower endpoint is an int32. -/
  lower_fits : int32Min ≤ r.lo
  /-- The endpoints are in order. -/
  ordered : r.lo ≤ r.hi
  /-- The upper endpoint is an int32. -/
  upper_fits : r.hi ≤ int32Max
  /-- The exponent means something. -/
  isExponent : IsExponent r.exponent
  /-- Numbers beyond int32 have at least the exponent of int32. -/
  open_exponent : r.isClosed = false → int32Exponent ≤ r.exponent
  /-- The greater endpoint of a closed range gives its exponent. -/
  closed_exponent : r.isClosed = true → r.exponent = r.impliedExponent
  /-- A single point is an integer. -/
  point_integral : r.isClosed = true → r.lo = r.hi → r.fractional = false

instance (r : Range) : Decidable r.Normal :=
  decidable_of_iff
    (int32Min ≤ r.lo ∧ r.lo ≤ r.hi ∧ r.hi ≤ int32Max ∧
      (r.exponent ≤ maxFiniteExponent ∨ r.exponent = infinityExponent ∨ r.exponent = nanExponent) ∧
      (r.isClosed = false → int32Exponent ≤ r.exponent) ∧
      (r.isClosed = true → r.exponent = r.impliedExponent) ∧
      (r.isClosed = true → r.lo = r.hi → r.fractional = false))
    ⟨fun ⟨a, b, c, d, e, f, g⟩ => ⟨a, b, c, d, e, f, g⟩,
      fun ⟨a, b, c, d, e, f, g⟩ => ⟨a, b, c, d, e, f, g⟩⟩

namespace Normal

variable (n : r.Normal)

include n

/-- Lower ends are int32. -/
theorem isInt32_lo : IsInt32 r.lo := ⟨n.lower_fits, n.ordered.trans n.upper_fits⟩

/-- Upper ends are int32. -/
theorem isInt32_hi : IsInt32 r.hi := ⟨n.lower_fits.trans n.ordered, n.upper_fits⟩

/-- The exponent of a normal range covers both endpoints. -/
theorem covers : r.lo.natAbs.log2 ≤ r.exponent ∧ r.hi.natAbs.log2 ≤ r.exponent := by
  cases closed : r.isClosed with
  | true =>
    rw [n.closed_exponent closed]
    exact ⟨log2_mono (le_max_left _ _), log2_mono (le_max_right _ _)⟩
  | false =>
    have beyond := n.open_exponent closed
    exact ⟨n.isInt32_lo.log2_le.trans beyond, n.isInt32_hi.log2_le.trans beyond⟩

/-- The exponent of a normal range covers every number between its endpoints. -/
theorem covers_of_between {x : Int} (lower : r.lo ≤ x) (upper : x ≤ r.hi) :
    x.natAbs.log2 ≤ r.exponent := by
  have small : x.natAbs ≤ max r.lo.natAbs r.hi.natAbs := by omega
  exact (log2_mono small).trans (log2_max_le_iff.mpr n.covers)

/-- The exponent covers the lower end. -/
theorem lo_lt : r.lo.natAbs < pow2 (r.exponent + 1) := log2_le_iff.mp n.covers.1

/-- The exponent covers the upper end. -/
theorem hi_lt : r.hi.natAbs < pow2 (r.exponent + 1) := log2_le_iff.mp n.covers.2

/-- A range is closed, or leaves room beyond int32. -/
theorem room : r.isClosed = true ∨ int32Exponent ≤ r.exponent := by
  cases closed : r.isClosed with
  | true => exact .inl rfl
  | false => exact .inr (n.open_exponent closed)

/-- A normal range obeys the rules of ranges. -/
theorem wellFormed : r.WellFormed :=
  ⟨n.lower_fits, n.ordered, n.upper_fits, n.room, n.isExponent, n.covers.2, n.covers.1⟩

/-- Normal ranges pass their check. -/
theorem yields_checked : Yields r.checked Normal := ⟨r, checked_eq_ok.mpr ⟨n.wellFormed, rfl⟩, n⟩

/-- The exponent of a closed range is that of an int32 at most. -/
theorem exponent_le (closed : r.isClosed = true) : r.exponent ≤ int32Exponent := by
  rw [n.closed_exponent closed]
  exact log2_max_le_iff.mpr ⟨n.isInt32_lo.log2_le, n.isInt32_hi.log2_le⟩

/-- A closed range holds finite numbers only. -/
theorem canBeNonFinite_eq_false (closed : r.isClosed = true) : r.canBeNonFinite = false := by
  have small := n.exponent_le closed
  rw [canBeNonFinite, decide_eq_false_iff_not]
  unfold int32Exponent at small
  unfold infinityExponent
  omega

/-- The exponent of a closed range can be asked for. -/
theorem finiteExponent_eq (closed : r.isClosed = true) : r.finiteExponent = .ok r.exponent := by
  rw [finiteExponent, n.canBeNonFinite_eq_false closed]
  rfl

/-- Symbolic bounds do not matter. -/
theorem withSymbolic (lower upper : Option Nat) :
    Normal { r with symbolicLower := lower, symbolicUpper := upper } :=
  ⟨n.lower_fits, n.ordered, n.upper_fits, n.isExponent, n.open_exponent, n.closed_exponent,
    n.point_integral⟩

/-- The numeric part is normal. -/
theorem numeric : r.numeric.Normal := n.withSymbolic none none

end Normal

/-- A range open on a side has the limit of int32 there. -/
theorem lo_of_open (h : r.lower.isSome = false) : r.lo = int32Min := by
  rw [Option.isSome_eq_false_iff, Option.isNone_iff_eq_none] at h
  rw [lo, h, Option.getD_none]

/-- An open upper end is the limit. -/
theorem hi_of_open (h : r.upper.isSome = false) : r.hi = int32Max := by
  rw [Option.isSome_eq_false_iff, Option.isNone_iff_eq_none] at h
  rw [hi, h, Option.getD_none]

/-- The lower end is the bound. -/
theorem lo_eq {l : Int} (bound : l ∈ r.lower) : r.lo = l := by rw [lo, bound, Option.getD_some]

/-- The upper end is the bound. -/
theorem hi_eq {h : Int} (bound : h ∈ r.upper) : r.hi = h := by rw [hi, bound, Option.getD_some]

/-- A lower bound is the end. -/
theorem lower_eq_some (h : r.lower.isSome = true) : r.lower = some r.lo := by
  obtain ⟨l, some⟩ := Option.isSome_iff_exists.mp h
  rw [lo, some, Option.getD_some]

/-- An upper bound is the end. -/
theorem upper_eq_some (h : r.upper.isSome = true) : r.upper = some r.hi := by
  obtain ⟨u, some⟩ := Option.isSome_iff_exists.mp h
  rw [hi, some, Option.getD_some]

/-- Closed means bounded twice. -/
theorem isClosed_iff : r.isClosed = true ↔ r.lower.isSome = true ∧ r.upper.isSome = true := by
  rw [isClosed, Bool.and_eq_true]

/-- Open means without a bound. -/
theorem isClosed_eq_false_iff : r.isClosed = false ↔ r.lower = none ∨ r.upper = none := by
  rw [isClosed, Bool.and_eq_false_iff, Option.isSome_eq_false_iff, Option.isSome_eq_false_iff,
    Option.isNone_iff_eq_none, Option.isNone_iff_eq_none]

/-- Tightening does not change what is bounded. -/
theorem isClosed_tighten : r.tighten.isClosed = r.isClosed := by
  rw [tighten]
  split
  · rfl
  · rfl

/-- Tightening never raises the exponent. -/
theorem exponent_tighten_le : r.tighten.exponent ≤ r.exponent := by
  rw [tighten]
  split
  · exact min_le_right _ _
  · exact le_rfl

/-- Tightening never adds fractions. -/
theorem fractional_tighten (h : r.fractional = false) : r.tighten.fractional = false := by
  rw [tighten]
  split
  · simp [h]
  · exact h

/-- Tightening a range that obeys the rules makes it normal. -/
theorem WellFormed.tighten_normal (w : r.WellFormed) : r.tighten.Normal := by
  obtain ⟨fits, ordered, fits', room, valid, upper, lower⟩ := w
  have implied : r.impliedExponent ≤ r.exponent := log2_max_le_iff.mpr ⟨lower, upper⟩
  rw [tighten]
  split
  · next closed =>
    refine ⟨fits, ordered, fits', ?_, ?_, ?_, ?_⟩
    · rw [min_eq_left implied]
      exact isExponent_implied fits ordered fits'
    · intro still
      rw [show r.isClosed = false from still] at closed
      cases closed
    · intro _
      exact min_eq_left implied
    · intro _ point
      have point : r.lo = r.hi := point
      simp [point]
  · next closed =>
    refine ⟨fits, ordered, fits', valid, ?_, ?_, ?_⟩
    · intro _
      exact room.resolve_left closed
    · intro still
      exact absurd still closed
    · intro still
      exact absurd still closed

/-- Normalizing succeeds. -/
theorem WellFormed.yields_normalize (w : r.WellFormed) : Yields r.normalize Normal :=
  ⟨r.tighten, normalize_eq_ok.mpr ⟨w, rfl⟩, w.tighten_normal⟩

/-- Its result is normal. -/
theorem normalize_normal (run : r.normalize = .ok s) : s.Normal := by
  obtain ⟨rules, rfl⟩ := normalize_eq_ok.mp run
  exact rules.tighten_normal

/-- A range made of endpoints exists and is normal when they are int32 values in order, each is a bound or
the limit on its side, and the exponent covers them. -/
theorem raw_yields {bounded boundedAbove fractional : Bool} {e : Nat}
    (lower : bounded = true ∨ l = int32Min) (upper : boundedAbove = true ∨ h = int32Max)
    (fits : int32Min ≤ l) (ordered : l ≤ h) (fits' : h ≤ int32Max)
    (room : (bounded && boundedAbove) = true ∨ int32Exponent ≤ e) (valid : IsExponent e)
    (covers : l.natAbs.log2 ≤ e) (covers' : h.natAbs.log2 ≤ e) :
    Yields (raw l bounded h boundedAbove fractional e) Normal := by
  have lo_eq : (if bounded then some l else none).getD int32Min = l := by
    cases bounded with
    | true => rfl
    | false => exact (lower.resolve_left Bool.false_ne_true).symm
  have hi_eq : (if boundedAbove then some h else none).getD int32Max = h := by
    cases boundedAbove with
    | true => rfl
    | false => exact (upper.resolve_left Bool.false_ne_true).symm
  have closed : ((if bounded then some l else none).isSome &&
      (if boundedAbove then some h else none).isSome) = (bounded && boundedAbove) := by
    cases bounded <;> cases boundedAbove <;> rfl
  rw [raw_eq lower upper]
  refine WellFormed.yields_normalize ?_
  simp only [WellFormed, Range.lo, Range.hi, Range.isClosed, lo_eq, hi_eq, closed]
  exact ⟨fits, ordered, fits', room, valid, covers', covers⟩

/-- The range of all numbers is normal. -/
theorem unknown_normal : unknown.Normal := by decide

/-- Zero and what is above it, infinity included. -/
def fromZeroOn : Range := ⟨some 0, none, true, infinityExponent, none, none⟩

/-- The integers from -7 to 3. -/
def sevenToThree : Range := ⟨some (-7), some 3, false, 2, none, none⟩

/-- A lower endpoint as a bound, with its side open below int32. -/
theorem lowerBound_spec (x : Int) :
    (lowerBound x).getD int32Min = max int32Min (min x int32Max) ∧
      ((lowerBound x).isSome = true ↔ int32Min ≤ x) := by
  unfold lowerBound int32Min int32Max
  split
  · simp; omega
  · split
    · simp; omega
    · simp; omega

/-- An upper endpoint as a bound, with its side open above int32. -/
theorem upperBound_spec (x : Int) :
    (upperBound x).getD int32Max = max int32Min (min x int32Max) ∧
      ((upperBound x).isSome = true ↔ x ≤ int32Max) := by
  unfold upperBound int32Min int32Max
  split
  · simp; omega
  · split
    · simp; omega
    · simp; omega

/-- The range between two endpoints exists and is normal when endpoints that both become bounds are
in order and covered by the exponent. -/
theorem between_yields {fractional : Bool} {e : Nat} (valid : IsExponent e)
    (bounds : int32Min ≤ l → h ≤ int32Max →
      l ≤ h ∧ l.natAbs < pow2 (e + 1) ∧ h.natAbs < pow2 (e + 1)) :
    Yields (between l h fractional e) Normal := by
  refine WellFormed.yields_normalize ?_
  obtain ⟨lower, bounded⟩ := lowerBound_spec l
  obtain ⟨upper, boundedAbove⟩ := upperBound_spec h
  have limits : int32Min ≤ int32Max := by decide
  by_cases closed : int32Min ≤ l ∧ h ≤ int32Max
  · obtain ⟨ordered, small, small'⟩ := bounds closed.1 closed.2
    have isClosed : ((lowerBound l).isSome && (upperBound h).isSome) = true := by
      rw [bounded.mpr closed.1, boundedAbove.mpr closed.2]
      rfl
    have lo_eq : (lowerBound l).getD int32Min = l := by omega
    have hi_eq : (upperBound h).getD int32Max = h := by omega
    simp only [WellFormed, Range.lo, Range.hi, Range.isClosed, isClosed, lo_eq, hi_eq]
    exact ⟨closed.1, ordered, closed.2, .inl trivial, valid, log2_le_iff.mpr small',
      log2_le_iff.mpr small⟩
  · have isOpen : ((lowerBound l).isSome && (upperBound h).isSome) = false := by
      rw [Bool.and_eq_false_iff, ← Bool.not_eq_true, ← Bool.not_eq_true, bounded, boundedAbove]
      omega
    simp only [WellFormed, Range.lo, Range.hi, Range.isClosed, isOpen, lower, upper]
    have wide := le_max_right e int32Exponent
    refine ⟨by omega, by omega, by omega, .inr wide, valid.max isExponent_int32,
      le_trans (IsInt32.log2_le ?_) wide, le_trans (IsInt32.log2_le ?_) wide⟩
    · exact ⟨by omega, by omega⟩
    · exact ⟨by omega, by omega⟩

/-- A range of int32 values, or of uint32 values, only needs its endpoints in order. -/
theorem int32_yields (ordered : l ≤ h) : Yields (int32 l h) Normal := by
  refine between_yields isExponent_int32 fun fits fits' => ⟨ordered, ?_, ?_⟩
  · exact log2_le_iff.mp (IsInt32.log2_le ⟨fits, ordered.trans fits'⟩)
  · exact log2_le_iff.mp (IsInt32.log2_le ⟨fits.trans ordered, fits'⟩)

/-- Uint32 ranges are normal. -/
theorem uint32_yields (ordered : l ≤ h) : Yields (uint32 l h) Normal :=
  int32_yields ordered

/-- A range whose numbers are int32 values. -/
structure NormalInt32 (r : Range) : Prop extends Normal r where
  /-- Both sides have a bound. -/
  closed : r.isClosed = true
  /-- No number has a fractional part. -/
  integral : r.fractional = false

/-- So are new int32 ends. -/
theorem setInt32_yields (lower : int32Min ≤ l) (ordered : l ≤ h) (upper : h ≤ int32Max) :
    Yields (r.setInt32 l h) fun t => t.NormalInt32 ∧ t.lo = l ∧ t.hi = h := by
  have normal : Normal { r with
      lower := some l, upper := some h, fractional := false
      exponent := (max l.natAbs h.natAbs).log2 } := by
    exact ⟨lower, ordered, upper, isExponent_implied lower ordered upper, by simp [isClosed],
      fun _ => rfl, fun _ _ => rfl⟩
  exact ⟨_, checked_eq_ok.mpr ⟨normal.wellFormed, rfl⟩, ⟨normal, rfl, rfl⟩, rfl, rfl⟩

end Range

end Rangefinder
