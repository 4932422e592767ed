import Rangefinder.Analysis.FixedPoint
import Rangefinder.Proofs.Range.Order

/-!
# Widening

The range of a loop phi is enlarged by the union with its inputs and by widening, and each of these
holds what was there before. How far a range has been widened is measured by what it has given up:
its two bounds, the exponents of finite numbers and of numbers that are not NaN, and integrality; an
int32 phi can only give up its two bounds, by moving them to the limits of int32. A widening that
changes a range makes it give up more, whatever the inputs are: since every part that grows is given
up at once, the measure does not depend on how the inputs move from pass to pass.
-/

namespace Rangefinder

namespace Range

variable {r s t old new : Range} {fractional : Bool} {a b : Bool}

/-- Tightening does not move a bound. -/
theorem bounds_tighten : r.tighten.lower = r.lower ∧ r.tighten.upper = r.upper := by
  rw [tighten]
  split
  · exact ⟨rfl, rfl⟩
  · exact ⟨rfl, rfl⟩

/-- The bounds of a range between two endpoints, and its exponent if a side is open. -/
theorem between_spec {l h : Int} {e : Nat} (run : between l h fractional e = .ok t) :
    t.lower = lowerBound l ∧ t.upper = upperBound h ∧
      (t.isClosed = false → t.exponent = max e int32Exponent) := by
  obtain ⟨-, rfl⟩ := normalize_eq_ok.mp run
  refine ⟨bounds_tighten.1, bounds_tighten.2, fun isOpen => ?_⟩
  rw [isClosed_tighten] at isOpen
  have isOpen' : ((lowerBound l).isSome && (upperBound h).isSome) = false := isOpen
  rw [tighten, isOpen]
  simp only [isClosed, isOpen']
  rfl

/-- A normal range whose bounds, fractions and exponent the range between two endpoints allows for is
within it. -/
theorem Normal.within_between {l h : Int} {e : Nat} (n : r.Normal)
    (lower : ∀ x ∈ lowerBound l, ∃ k ∈ r.lower, x ≤ k)
    (upper : ∀ x ∈ upperBound h, ∃ k ∈ r.upper, k ≤ x)
    (fractions : r.fractional = true → fractional = true) (exponent : r.exponent ≤ e)
    (run : between l h fractional e = .ok t) : r.Within t := by
  obtain ⟨-, rfl⟩ := normalize_eq_ok.mp run
  refine Within.tighten ⟨lower, upper, fractions, ?_⟩ n
  dsimp only
  split
  · exact exponent
  · exact exponent.trans (le_max_left _ _)

/-- A bound that has moved down is dropped, any other one stays. -/
theorem stableLower_cases (old new : Range) :
    lowerBound (stableLower old new) = none ∧ (new.lower = none ∨ new.lo < old.lo) ∨
      stableLower old new = new.lo ∧ new.lower = some new.lo ∧ old.lo ≤ new.lo := by
  rw [stableLower, lo.eq_def new]
  cases new.lower with
  | none => exact .inl ⟨rfl, .inl rfl⟩
  | some l =>
    dsimp only [Option.getD_some]
    split
    · next stable => exact .inr ⟨rfl, rfl, stable⟩
    · next moved => exact .inl ⟨rfl, .inr (not_le.mp moved)⟩

/-- A bound that has moved up is dropped, any other one stays. -/
theorem stableUpper_cases (old new : Range) :
    upperBound (stableUpper old new) = none ∧ (new.upper = none ∨ old.hi < new.hi) ∨
      stableUpper old new = new.hi ∧ new.upper = some new.hi ∧ new.hi ≤ old.hi := by
  rw [stableUpper, hi.eq_def new]
  cases new.upper with
  | none => exact .inl ⟨rfl, .inl rfl⟩
  | some h =>
    dsimp only [Option.getD_some]
    split
    · next stable => exact .inr ⟨rfl, rfl, stable⟩
    · next moved => exact .inl ⟨rfl, .inr (not_le.mp moved)⟩

/-- An int32 is a bound. -/
theorem lowerBound_of_isInt32 {x : Int} (fits : IsInt32 x) : lowerBound x = some x := by
  rw [lowerBound, if_neg (not_lt.mpr fits.2), if_neg (not_lt.mpr fits.1)]

/-- An int32 is a bound. -/
theorem upperBound_of_isInt32 {x : Int} (fits : IsInt32 x) : upperBound x = some x := by
  rw [upperBound, if_neg (not_lt.mpr fits.2), if_neg (not_lt.mpr fits.1)]

/-- What widening does to a range: a bound that has moved is dropped and any other one stays, and an
exponent that has grown becomes that of the infinities where a side is open. -/
structure Widened (old new t : Range) : Prop where
  normal : t.Normal
  within : new.Within t
  lower : t.lower = none ∧ (new.lower = none ∨ new.lo < old.lo) ∨
    t.lower = new.lower ∧ new.lower = some new.lo ∧ old.lo ≤ new.lo
  upper : t.upper = none ∧ (new.upper = none ∨ old.hi < new.hi) ∨
    t.upper = new.upper ∧ new.upper = some new.hi ∧ new.hi ≤ old.hi
  exponent : old.exponent < new.exponent → t.isClosed = false → infinityExponent ≤ t.exponent

/-- Widening succeeds. -/
theorem widen_yields (n : new.Normal) : Yields (widen old new) (Widened old new) := by
  have lower := stableLower_cases old new
  have upper := stableUpper_cases old new
  have valid : IsExponent (stableExponent old new) := by
    rw [stableExponent]
    split
    · exact n.isExponent.max (.inr (.inl rfl))
    · exact n.isExponent
  have grown : new.exponent ≤ stableExponent old new := by
    rw [stableExponent]
    split
    · exact le_max_left _ _
    · exact le_rfl
  have covers := pow2_le_pow2 (Nat.add_le_add_right grown 1)
  have yields : Yields (widen old new) Normal := by
    refine between_yields valid fun fits fits' => ?_
    rcases lower with ⟨dropped, -⟩ | ⟨stays, -⟩
    · have some := (lowerBound_spec _).2.mpr fits
      rw [dropped] at some
      cases some
    · rcases upper with ⟨dropped, -⟩ | ⟨stays', -⟩
      · have some := (upperBound_spec _).2.mpr fits'
        rw [dropped] at some
        cases some
      · rw [stays, stays']
        exact ⟨n.ordered, n.lo_lt.trans_le covers, n.hi_lt.trans_le covers⟩
  obtain ⟨t, run, normal⟩ := yields
  obtain ⟨ofLower, ofUpper, exponent⟩ := between_spec run
  have lower' : t.lower = none ∧ (new.lower = none ∨ new.lo < old.lo) ∨
      t.lower = new.lower ∧ new.lower = some new.lo ∧ old.lo ≤ new.lo := by
    rcases lower with ⟨dropped, why⟩ | ⟨stays, some, le⟩
    · exact .inl ⟨ofLower.trans dropped, why⟩
    · refine .inr ⟨?_, some, le⟩
      rw [ofLower, stays, lowerBound_of_isInt32 n.isInt32_lo, some]
  have upper' : t.upper = none ∧ (new.upper = none ∨ old.hi < new.hi) ∨
      t.upper = new.upper ∧ new.upper = some new.hi ∧ new.hi ≤ old.hi := by
    rcases upper with ⟨dropped, why⟩ | ⟨stays, some, le⟩
    · exact .inl ⟨ofUpper.trans dropped, why⟩
    · refine .inr ⟨?_, some, le⟩
      rw [ofUpper, stays, upperBound_of_isInt32 n.isInt32_hi, some]
  refine ⟨t, run, normal, ?_, lower', upper', fun more isOpen => ?_⟩
  · refine n.within_between (fun x bound => ?_) (fun x bound => ?_) id grown run
    · rw [← ofLower] at bound
      rcases lower' with ⟨none, -⟩ | ⟨same, -⟩
      · rw [none] at bound
        cases bound
      · exact ⟨x, same ▸ bound, le_rfl⟩
    · rw [← ofUpper] at bound
      rcases upper' with ⟨none, -⟩ | ⟨same, -⟩
      · rw [none] at bound
        cases bound
      · exact ⟨x, same ▸ bound, le_rfl⟩
  · rw [exponent isOpen, stableExponent, if_pos more]
    exact (le_max_right _ _).trans (le_max_left _ _)

/-- How much a range has given up. An int32 phi gives up a bound by moving it to the limit of int32;
any other phi can give up both bounds, finiteness, being a number, and integrality. -/
def givenUp (type : ValueType) (r : Range) : Nat :=
  if type = .int32 then (decide (r.lo = int32Min)).toNat + (decide (r.hi = int32Max)).toNat
  else r.lower.isNone.toNat + r.upper.isNone.toNat + r.canBeNonFinite.toNat + r.canBeNaN.toNat +
    r.fractional.toNat

/-- There are five things at most to give up. -/
theorem givenUp_le (type : ValueType) (r : Range) : r.givenUp type ≤ 5 := by
  rw [givenUp]
  split
  · have := Bool.toNat_le (decide (r.lo = int32Min))
    have := Bool.toNat_le (decide (r.hi = int32Max))
    omega
  · have := Bool.toNat_le r.lower.isNone
    have := Bool.toNat_le r.upper.isNone
    have := Bool.toNat_le r.canBeNonFinite
    have := Bool.toNat_le r.canBeNaN
    have := Bool.toNat_le r.fractional
    omega

/-- Only the numbers of a range count. -/
theorem givenUp_of_numeric (type : ValueType) (same : r.numeric = s.numeric) :
    r.givenUp type = s.givenUp type := by
  have view : ∀ r : Range, r.givenUp type = r.numeric.givenUp type := fun _ => rfl
  rw [view, same, ← view]

/-- Flags are monotone. -/
theorem toNat_mono (h : a = true → b = true) : a.toNat ≤ b.toNat := by
  cases a with
  | false => exact Nat.zero_le _
  | true => rw [h rfl]

/-- A flag is raised. -/
theorem toNat_lt (ha : a = false) (hb : b = true) : a.toNat < b.toNat := by
  rw [ha, hb]
  decide

/-- The exponent of a range is that of a finite number, of an infinity, or of NaN. -/
theorem Normal.exponent_cases (n : r.Normal) :
    r.canBeNonFinite = false ∨ r.exponent = infinityExponent ∨ r.exponent = nanExponent := by
  refine n.isExponent.imp_left fun finite => ?_
  rw [canBeNonFinite, decide_eq_false_iff_not]
  unfold maxFiniteExponent at finite
  unfold infinityExponent
  omega

namespace Widened

variable (w : Widened old new t) (n : old.Normal) (m : new.Normal) (within : old.Within new)

include w n within

/-- A lower bound that has moved was there, and is dropped. -/
theorem lower_dropped (moved : new.lower ≠ old.lower) :
    old.lower.isNone = false ∧ t.lower.isNone = true := by
  cases bound : old.lower with
  | none => exact absurd ((within.lower_none bound).trans bound.symm) moved
  | some k =>
    refine ⟨rfl, ?_⟩
    rcases w.lower with ⟨dropped, -⟩ | ⟨-, bounded, le⟩
    · rw [dropped]
      rfl
    · have same : new.lo = old.lo := le_antisymm (within.lo_le n) le
      have own : old.lower = some old.lo := lower_eq_some (by rw [bound]; rfl)
      exact absurd (bounded.trans (same ▸ own.symm)) moved

/-- An upper bound that has moved was there, and is dropped. -/
theorem upper_dropped (moved : new.upper ≠ old.upper) :
    old.upper.isNone = false ∧ t.upper.isNone = true := by
  cases bound : old.upper with
  | none => exact absurd ((within.upper_none bound).trans bound.symm) moved
  | some k =>
    refine ⟨rfl, ?_⟩
    rcases w.upper with ⟨dropped, -⟩ | ⟨-, bounded, le⟩
    · rw [dropped]
      rfl
    · have same : new.hi = old.hi := le_antisymm le (within.le_hi n)
      have own : old.upper = some old.hi := upper_eq_some (by rw [bound]; rfl)
      exact absurd (bounded.trans (same ▸ own.symm)) moved

include m

/-- An exponent that has grown between the same bounds passes from the finite ones to that of the
infinities or of NaN, or from the former to the latter. -/
theorem exponent_dropped (lower : new.lower = old.lower) (upper : new.upper = old.upper)
    (grown : new.exponent ≠ old.exponent) :
    old.canBeNonFinite.toNat + old.canBeNaN.toNat < t.canBeNonFinite.toNat + t.canBeNaN.toNat := by
  have more : old.exponent < new.exponent := lt_of_le_of_ne within.exponent (Ne.symm grown)
  have isOpen : new.isClosed = false := by
    rw [← Bool.not_eq_true]
    intro closed
    have implied : new.impliedExponent = old.impliedExponent := by
      rw [impliedExponent, impliedExponent, lo, hi, lower, upper]
      rfl
    exact grown ((m.closed_exponent closed).trans
      (implied.trans (n.closed_exponent (within.isClosed closed)).symm))
  have isOpen' : t.isClosed = false := by
    rw [← Bool.not_eq_true] at isOpen ⊢
    exact fun closed => isOpen (w.within.isClosed closed)
  have infinite : t.canBeNonFinite = true := by
    rw [canBeNonFinite, decide_eq_true_iff]
    exact w.exponent more isOpen'
  rcases n.exponent_cases with finite | infinity | nan
  · have strict := toNat_lt finite infinite
    have ofNaN := toNat_mono ((within.trans w.within).canBeNaN w.normal.isExponent)
    omega
  · have beyond : new.exponent = nanExponent := by
      have valid := m.isExponent
      unfold IsExponent maxFiniteExponent at valid
      unfold infinityExponent at *
      omega
    have notYet : old.canBeNaN = false := by
      rw [canBeNaN, infinity]
      rfl
    have nan : t.canBeNaN = true :=
      w.within.canBeNaN w.normal.isExponent (by rw [canBeNaN, beyond]; rfl)
    have strict := toNat_lt notYet nan
    have ofFinite := toNat_mono (within.trans w.within).canBeNonFinite
    omega
  · have valid := m.isExponent
    unfold IsExponent maxFiniteExponent infinityExponent at valid
    unfold nanExponent at *
    omega

/-- Widening a range that has grown in any way gives up more of it. -/
theorem givenUp_lt {type : ValueType} (differ : new.numeric ≠ old.numeric) (other : type ≠ .int32) :
    old.givenUp type < t.givenUp type := by
  have all := within.trans w.within
  have ofLower : old.lower.isNone.toNat ≤ t.lower.isNone.toNat := toNat_mono fun none => by
    rw [Option.isNone_iff_eq_none] at none ⊢
    exact all.lower_none none
  have ofUpper : old.upper.isNone.toNat ≤ t.upper.isNone.toNat := toNat_mono fun none => by
    rw [Option.isNone_iff_eq_none] at none ⊢
    exact all.upper_none none
  have ofFinite := toNat_mono all.canBeNonFinite
  have ofNaN := toNat_mono (all.canBeNaN w.normal.isExponent)
  have ofFraction := toNat_mono all.fractional
  rw [givenUp, givenUp, if_neg other, if_neg other]
  by_cases lower : new.lower = old.lower
  swap
  · obtain ⟨had, dropped⟩ := w.lower_dropped n within lower
    have := toNat_lt had dropped
    omega
  by_cases upper : new.upper = old.upper
  swap
  · obtain ⟨had, dropped⟩ := w.upper_dropped n within upper
    have := toNat_lt had dropped
    omega
  by_cases fraction : new.fractional = old.fractional
  swap
  · have integral : old.fractional = false := by
      rw [← Bool.not_eq_true]
      exact fun own => fraction ((within.fractional own).trans own.symm)
    have fractional : t.fractional = true :=
      w.within.fractional (by simpa [integral] using fraction)
    have := toNat_lt integral fractional
    omega
  · have grown : new.exponent ≠ old.exponent := by
      intro same
      exact differ (by rw [numeric, numeric, lower, upper, fraction, same])
    have := w.exponent_dropped n m within lower upper grown
    omega

end Widened

/-- Ranges of int32 values are within one another when their endpoints are. -/
theorem NormalInt32.within (n : r.NormalInt32) (m : s.NormalInt32) (lower : s.lo ≤ r.lo)
    (upper : r.hi ≤ s.hi) : r.Within s := by
  have closed := isClosed_iff.mp n.closed
  have closed' := isClosed_iff.mp m.closed
  have ordered := n.ordered
  refine ⟨fun l bound => ⟨r.lo, lower_eq_some closed.1, ?_⟩,
    fun h bound => ⟨r.hi, upper_eq_some closed.2, ?_⟩, ?_, ?_⟩
  · rw [lower_eq_some closed'.1] at bound
    exact Option.some.inj bound ▸ lower
  · rw [upper_eq_some closed'.2] at bound
    exact Option.some.inj bound ▸ upper
  · intro fraction
    rw [n.integral] at fraction
    cases fraction
  · rw [n.closed_exponent n.closed, m.closed_exponent m.closed]
    exact log2_mono (by omega)

/-- A range of int32 values is its endpoints. -/
theorem NormalInt32.numeric_eq (n : r.NormalInt32) (m : s.NormalInt32) (lower : r.lo = s.lo)
    (upper : r.hi = s.hi) : r.numeric = s.numeric := by
  have closed := isClosed_iff.mp n.closed
  have closed' := isClosed_iff.mp m.closed
  rw [Range.numeric, Range.numeric, lower_eq_some closed.1, lower_eq_some closed'.1,
    upper_eq_some closed.2, upper_eq_some closed'.2, lower, upper, n.integral, m.integral,
    n.closed_exponent n.closed, m.closed_exponent m.closed, impliedExponent, impliedExponent, lower,
    upper]

/-- Widening the range of an int32 phi that has grown moves an endpoint to the limit of int32. -/
theorem Widened.givenUp_lt_int32 (w : Widened old new s) (n : old.NormalInt32) (m : new.NormalInt32)
    (within : old.Within new) (differ : new.numeric ≠ old.numeric) (lo_eq : t.lo = s.lo)
    (hi_eq : t.hi = s.hi) : old.givenUp .int32 < t.givenUp .int32 := by
  have lower := within.lo_le n.toNormal
  have upper := within.le_hi n.toNormal
  have fits := m.lower_fits
  have fits' := m.upper_fits
  have lo_cases : old.lo ≠ int32Min ∧ t.lo = int32Min ∨ new.lo = old.lo ∧ t.lo = old.lo := by
    rcases w.lower with ⟨dropped, why⟩ | ⟨same, -, le⟩
    · refine .inl ⟨?_, lo_eq.trans (lo_of_open (by rw [dropped]; rfl))⟩
      have moved : new.lo < old.lo := why.resolve_left fun none => by
        have closed := (isClosed_iff.mp m.closed).1
        rw [none] at closed
        cases closed
      omega
    · have stable : new.lo = old.lo := by omega
      refine .inr ⟨stable, ?_⟩
      rw [lo_eq, ← stable, lo, lo, same]
  have hi_cases : old.hi ≠ int32Max ∧ t.hi = int32Max ∨ new.hi = old.hi ∧ t.hi = old.hi := by
    rcases w.upper with ⟨dropped, why⟩ | ⟨same, -, le⟩
    · refine .inl ⟨?_, hi_eq.trans (hi_of_open (by rw [dropped]; rfl))⟩
      have moved : old.hi < new.hi := why.resolve_left fun none => by
        have closed := (isClosed_iff.mp m.closed).2
        rw [none] at closed
        cases closed
      omega
    · have stable : new.hi = old.hi := by omega
      refine .inr ⟨stable, ?_⟩
      rw [hi_eq, ← stable, hi, hi, same]
  rw [givenUp, givenUp, if_pos rfl, if_pos rfl]
  rcases lo_cases with ⟨before, after⟩ | ⟨stable, same⟩
  · have strict := toNat_lt (decide_eq_false before) (decide_eq_true after)
    have rest : (decide (old.hi = int32Max)).toNat ≤ (decide (t.hi = int32Max)).toNat := by
      rcases hi_cases with ⟨before, -⟩ | ⟨-, same⟩
      · rw [decide_eq_false before]
        exact Nat.zero_le _
      · rw [same]
    omega
  · rcases hi_cases with ⟨before, after⟩ | ⟨stable', -⟩
    · have strict := toNat_lt (decide_eq_false before) (decide_eq_true after)
      rw [same]
      omega
    · exact absurd (m.numeric_eq n stable stable') differ

end Range

namespace Pass

open Range

variable {type : ValueType} {old inputs r : Range} {widening : Bool} {s t : Range}

/-- The range that a loop phi may have: a normal one, of int32 values if that is its type. -/
structure PhiRange (type : ValueType) (r : Range) : Prop where
  normal : r.Normal
  int32 : type = .int32 → r.NormalInt32

/-- Confining a range to the type of a phi keeps the endpoints, and everything for another type; a
range that the phi may have stays within it. -/
theorem confine_yields (type : ValueType) (n : r.Normal) :
    Yields (confine type r) fun t => PhiRange type t ∧
      (∀ s, PhiRange type s → s.Within r → s.Within t) ∧
      (type = .int32 → t.lo = r.lo ∧ t.hi = r.hi) ∧ (type ≠ .int32 → t = r) := by
  rw [confine]
  split
  · next own =>
    refine (clipToInt32_yields n).mono fun t ⟨int32, lo_eq, hi_eq⟩ => ?_
    refine ⟨⟨int32.toNormal, fun _ => int32⟩, fun s phi within => ?_, fun _ => ⟨lo_eq, hi_eq⟩,
      fun other => absurd own other⟩
    refine (phi.int32 own).within int32 ?_ ?_
    · exact lo_eq.le.trans (within.lo_le phi.normal)
    · exact (within.le_hi phi.normal).trans hi_eq.ge
  · next other =>
    exact .ok ⟨⟨n, fun own => absurd own other⟩, fun _ _ within => within,
      fun own => absurd own other, fun _ => rfl⟩

/-- Confining ranges to the type of a phi keeps one within another. -/
theorem confine_within (n : r.Normal) (m : s.Normal) (within : r.Within s)
    (confined : confine type r = .ok t) :
    ∀ u, confine type s = .ok u → t.Within u := by
  intro u confined'
  obtain ⟨phi, -, endpoints, same⟩ := (confine_yields type n).of_eq confined
  obtain ⟨phi', -, endpoints', same'⟩ := (confine_yields type m).of_eq confined'
  by_cases int32 : type = .int32
  · obtain ⟨lo_eq, hi_eq⟩ := endpoints int32
    obtain ⟨lo_eq', hi_eq'⟩ := endpoints' int32
    refine (phi.int32 int32).within (phi'.int32 int32) ?_ ?_
    · rw [lo_eq, lo_eq']
      exact within.lo_le n
    · rw [hi_eq, hi_eq']
      exact within.le_hi n
  · rw [same int32, same' int32]
    exact within

/-- The range that a loop phi gets from its own range and those of its inputs: it holds the old
range and the inputs confined to the type of the phi, and a widening that changes it gives up more
of it. -/
structure Grown (type : ValueType) (widening : Bool) (old inputs t : Range) : Prop where
  phi : PhiRange type t
  old_within : old.Within t
  inputs_within : Yields (confine type inputs) fun confined => confined.Within t
  progress : widening = true → t.numeric = old.numeric ∨ old.givenUp type < t.givenUp type

/-- Growing succeeds. -/
theorem grow_yields (n : PhiRange type old) (m : inputs.Normal) :
    Yields (grow type widening old inputs) fun result => Grown type widening old inputs result.1 := by
  obtain ⟨joined, joining, normal, held, held'⟩ := Range.union_within n.normal m
  obtain ⟨merged, confining, phi, keeps, -, -⟩ := confine_yields type normal
  obtain ⟨confined, confining', -⟩ := confine_yields type m
  have held : old.Within merged := keeps old n held
  have held' : confined.Within merged := confine_within m normal held' confining' merged confining
  have step : grow type widening old inputs =
      if widening = true ∧ merged.sameNumbers old = false then do
        return (← confine type (← Range.widen old merged), true)
      else pure (merged, false) := by
    rw [grow, joining]
    show (confine type joined >>= _) = _
    rw [confining]
    rfl
  rw [step]
  split
  · next changed =>
    have differ : merged.numeric ≠ old.numeric := beq_eq_false_iff_ne.mp changed.2
    refine (widen_yields phi.normal).bind fun w widened => ?_
    refine (confine_yields type widened.normal).bind fun t ⟨phi', keeps, endpoints, same⟩ => .ok ?_
    have grown : merged.Within t := keeps merged phi widened.within
    refine ⟨phi', held.trans grown, ⟨confined, confining', held'.trans grown⟩, fun _ => .inr ?_⟩
    by_cases int32 : type = .int32
    · subst int32
      obtain ⟨lo_eq, hi_eq⟩ := endpoints rfl
      exact widened.givenUp_lt_int32 (n.int32 rfl) (phi.int32 rfl) held differ lo_eq hi_eq
    · rw [same int32]
      exact widened.givenUp_lt n.normal phi.normal held differ int32
  · next stable =>
    refine .ok ⟨phi, held, ⟨confined, confining', held'⟩, fun widening => .inl ?_⟩
    rw [not_and, Bool.not_eq_false] at stable
    exact beq_iff_eq.mp (stable widening)

/-- Symbolic bounds do not matter. -/
theorem PhiRange.withSymbolic (h : PhiRange type r) (lower upper : Option Nat) :
    PhiRange type { r with symbolicLower := lower, symbolicUpper := upper } :=
  ⟨h.normal.withSymbolic lower upper, fun own =>
    ⟨h.normal.withSymbolic lower upper, (h.int32 own).closed, (h.int32 own).integral⟩⟩

/-- What a loop phi gets does not depend on symbolic bounds. -/
theorem Grown.of_numeric (h : Grown type widening old inputs s) (same : t.numeric = s.numeric) :
    Grown type widening old inputs t := by
  have view : t = { s with symbolicLower := t.symbolicLower, symbolicUpper := t.symbolicUpper } := by
    obtain ⟨lower, upper, fractional, exponent⟩ : t.lower = s.lower ∧ t.upper = s.upper ∧
        t.fractional = s.fractional ∧ t.exponent = s.exponent := by
      simpa [numeric] using same
    rw [← lower, ← upper, ← fractional, ← exponent]
  have within : ∀ r : Range, r.Within s → r.Within t := by
    rintro r ⟨lower, upper, fractional, exponent⟩
    rw [view]
    exact ⟨lower, upper, fractional, exponent⟩
  refine ⟨?_, within old h.old_within, h.inputs_within.mono fun r => within r, fun widening => ?_⟩
  · rw [view]
    exact h.phi.withSymbolic _ _
  · rw [same, givenUp_of_numeric type same]
    exact h.progress widening

end Pass

end Rangefinder
