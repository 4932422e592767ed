import Rangefinder.Proofs.Range.Lattice

/-!
# Arithmetic on normal ranges

Sums, products, quotients, remainders and the other arithmetic results of normal ranges are normal.
Two questions come up for each of them: whether the endpoints computed in 64 bits stay in order, and
whether the exponent computed from the operands covers them when both of them become bounds.
-/

namespace Rangefinder.Range

variable {r s : Range} {x y : Int}

/-- Numbers far within 64 bits pass the check for them. -/
theorem fitInt64_of_natAbs_le {x : Int} (small : x.natAbs ≤ 4611686018427387904) :
    fitInt64 x = .ok x :=
  if_pos ⟨by omega, by omega⟩

/-- An operation on two bounds gives the sentinel or the result on the endpoints. -/
theorem onBounds_yields {op : Int → Int → Int} {x y : Option Int} (absent dx dy : Int)
    (fits : (op (x.getD dx) (y.getD dy)).natAbs ≤ 4611686018427387904) :
    Yields (onBounds op absent x y) fun z => z = absent ∨
      x.isSome = true ∧ y.isSome = true ∧ z = op (x.getD dx) (y.getD dy) := by
  unfold onBounds
  split
  · exact ⟨_, fitInt64_of_natAbs_le fits, .inr ⟨rfl, rfl, rfl⟩⟩
  · exact .ok (.inl rfl)

/-- The exponent of a sum of two normal ranges. -/
theorem sumExponent_yields (n : r.Normal) (m : s.Normal) :
    Yields (sumExponent r s) fun e => IsExponent e ∧
      (r.isClosed = true → s.isClosed = true → e = max r.exponent s.exponent + 1) := by
  rw [sumExponent]
  split
  · next infinite =>
    refine .ok ⟨.inr (.inr rfl), fun closed _ => ?_⟩
    rw [n.canBeNonFinite_eq_false closed] at infinite
    cases infinite
  · dsimp only
    split
    · next finite =>
      unfold maxFiniteExponent at finite
      rw [fitUint16, if_pos (by omega)]
      refine .ok ⟨?_, fun _ _ => rfl⟩
      unfold IsExponent maxFiniteExponent infinityExponent
      omega
    · next beyond =>
      refine .ok ⟨n.isExponent.max m.isExponent, fun closed closed' => absurd ?_ beyond⟩
      exact (max_le (n.exponent_le closed) (m.exponent_le closed')).trans (by decide)

/-- A carry adds one bit. -/
theorem pow2_add_le (d e : Nat) : pow2 (d + 1) + pow2 (e + 1) ≤ pow2 (max d e + 1 + 1) := by
  have left := pow2_le_pow2 (Nat.add_le_add_right (le_max_left d e) 1)
  have right := pow2_le_pow2 (Nat.add_le_add_right (le_max_right d e) 1)
  rw [pow2_succ (max d e + 1)]
  omega

/-- The sum of the magnitudes of two numbers has at most one bit more than they have. -/
theorem add_lt_pow2 {x y d e : Nat} (hx : x < pow2 (d + 1)) (hy : y < pow2 (e + 1)) :
    x + y < pow2 (max d e + 1 + 1) :=
  (Nat.add_lt_add hx hy).trans_le (pow2_add_le d e)

/-- Sums are normal. -/
theorem add_yields (n : r.Normal) (m : s.Normal) : Yields (r.add s) Normal := by
  have := n.isInt32_lo.natAbs_le
  have := n.isInt32_hi.natAbs_le
  have := m.isInt32_lo.natAbs_le
  have := m.isInt32_hi.natAbs_le
  refine (onBounds_yields noLowerBound int32Min int32Min
    (show (r.lo + s.lo).natAbs ≤ _ by omega)).bind fun l lower => ?_
  refine (onBounds_yields noUpperBound int32Max int32Max
    (show (r.hi + s.hi).natAbs ≤ _ by omega)).bind fun h upper => ?_
  refine (sumExponent_yields n m).bind fun e ⟨valid, carry⟩ => ?_
  refine between_yields valid fun fits fits' => ?_
  obtain ⟨left, right, rfl⟩ := lower.resolve_left fun absent => absurd (absent ▸ fits) (by decide)
  obtain ⟨left', right', rfl⟩ := upper.resolve_left fun absent => absurd (absent ▸ fits') (by decide)
  rw [carry (isClosed_iff.mpr ⟨left, left'⟩) (isClosed_iff.mpr ⟨right, right'⟩)]
  exact ⟨Int.add_le_add n.ordered m.ordered,
    (Int.natAbs_add_le _ _).trans_lt (add_lt_pow2 n.lo_lt m.lo_lt),
    (Int.natAbs_add_le _ _).trans_lt (add_lt_pow2 n.hi_lt m.hi_lt)⟩

/-- Differences are normal. -/
theorem sub_yields (n : r.Normal) (m : s.Normal) : Yields (r.sub s) Normal := by
  have := n.isInt32_lo.natAbs_le
  have := n.isInt32_hi.natAbs_le
  have := m.isInt32_lo.natAbs_le
  have := m.isInt32_hi.natAbs_le
  refine (onBounds_yields noLowerBound int32Min int32Max
    (show (r.lo - s.hi).natAbs ≤ _ by omega)).bind fun l lower => ?_
  refine (onBounds_yields noUpperBound int32Max int32Min
    (show (r.hi - s.lo).natAbs ≤ _ by omega)).bind fun h upper => ?_
  refine (sumExponent_yields n m).bind fun e ⟨valid, carry⟩ => ?_
  refine between_yields valid fun fits fits' => ?_
  obtain ⟨left, right, rfl⟩ := lower.resolve_left fun absent => absurd (absent ▸ fits) (by decide)
  obtain ⟨left', right', rfl⟩ := upper.resolve_left fun absent => absurd (absent ▸ fits') (by decide)
  rw [carry (isClosed_iff.mpr ⟨left, left'⟩) (isClosed_iff.mpr ⟨right', right⟩)]
  exact ⟨Int.sub_le_sub n.ordered m.ordered,
    (Int.natAbs_sub_le _ _).trans_lt (add_lt_pow2 n.lo_lt m.hi_lt),
    (Int.natAbs_sub_le _ _).trans_lt (add_lt_pow2 n.hi_lt m.lo_lt)⟩

/-- The number of bits of a range of finite numbers. -/
theorem bits_eq (finite : r.canBeNonFinite = false) :
    r.bits = .ok (r.exponent + 1) ∧ r.exponent ≤ maxFiniteExponent := by
  have small : r.exponent ≤ maxFiniteExponent := by
    rw [canBeNonFinite, decide_eq_false_iff_not] at finite
    unfold infinityExponent at finite
    unfold maxFiniteExponent
    omega
  refine ⟨?_, small⟩
  unfold maxFiniteExponent at small
  rw [bits, finiteExponent, finite]
  exact if_pos (by omega)

/-- The exponent of a product of two normal ranges. -/
theorem productExponent_yields (n : r.Normal) (m : s.Normal) :
    Yields (productExponent r s) fun e => IsExponent e ∧
      (r.isClosed = true → s.isClosed = true → e = r.exponent + s.exponent + 1) := by
  rw [productExponent]
  split
  · next finite =>
    rw [Bool.and_eq_true, Bool.not_eq_true', Bool.not_eq_true'] at finite
    obtain ⟨left, small⟩ := bits_eq finite.1
    obtain ⟨right, small'⟩ := bits_eq finite.2
    have fits : fitUint16 (r.exponent + 1 + (s.exponent + 1)) =
        .ok (r.exponent + 1 + (s.exponent + 1)) := by
      unfold maxFiniteExponent at small small'
      exact if_pos (by omega)
    rw [left, right]
    simp only [bind, Except.bind, fits]
    refine .ok ⟨?_, fun closed closed' => ?_⟩
    · split
      · exact .inr (.inl rfl)
      · next within => exact .inl (not_lt.mp within)
    · have := n.exponent_le closed
      have := m.exponent_le closed'
      unfold int32Exponent at *
      rw [if_neg (by unfold maxFiniteExponent; omega)]
      omega
  · next infinite =>
    have impossible : r.isClosed = true → s.isClosed = true → False := by
      intro closed closed'
      rw [n.canBeNonFinite_eq_false closed, m.canBeNonFinite_eq_false closed'] at infinite
      exact infinite rfl
    split
    · exact .ok ⟨.inr (.inl rfl), fun closed closed' => (impossible closed closed').elim⟩
    · exact .ok ⟨.inr (.inr rfl), fun closed closed' => (impossible closed closed').elim⟩

/-- The bits of the factors add up. -/
theorem pow2_mul_pow2 (d e : Nat) : pow2 (d + 1) * pow2 (e + 1) = pow2 (d + e + 1 + 1) := by
  rw [pow2_eq, pow2_eq, pow2_eq, ← pow_add]
  congr 1
  omega

/-- A product of two endpoints fits 64 bits, and the bits of the factors add up. -/
theorem product_fits {d e : Nat} (hx : IsInt32 x) (hy : IsInt32 y) (covers : x.natAbs < pow2 (d + 1))
    (covers' : y.natAbs < pow2 (e + 1)) :
    fitInt64 (x * y) = .ok (x * y) ∧ (x * y).natAbs < pow2 (d + e + 1 + 1) := by
  rw [Int.natAbs_mul]
  constructor
  · refine fitInt64_of_natAbs_le ?_
    rw [Int.natAbs_mul]
    exact Nat.mul_le_mul hx.natAbs_le hy.natAbs_le
  · calc x.natAbs * y.natAbs < pow2 (d + 1) * pow2 (e + 1) := Nat.mul_lt_mul'' covers covers'
      _ = pow2 (d + e + 1 + 1) := pow2_mul_pow2 d e

/-- Minima keep a magnitude. -/
theorem natAbs_min_lt {k : Nat} (hx : x.natAbs < k) (hy : y.natAbs < k) :
    (min x y).natAbs < k := by
  rcases min_choice x y with same | same <;> rwa [same]

/-- So do maxima. -/
theorem natAbs_max_lt {k : Nat} (hx : x.natAbs < k) (hy : y.natAbs < k) :
    (max x y).natAbs < k := by
  rcases max_choice x y with same | same <;> rwa [same]

/-- Products are bounded. -/
theorem productBounds_yields (n : r.Normal) (m : s.Normal) :
    Yields (productBounds r.lo r.hi s.lo s.hi) fun (l, h) => l ≤ h ∧
      l.natAbs < pow2 (r.exponent + s.exponent + 1 + 1) ∧
      h.natAbs < pow2 (r.exponent + s.exponent + 1 + 1) := by
  obtain ⟨ac, hac⟩ := product_fits n.isInt32_lo m.isInt32_lo n.lo_lt m.lo_lt
  obtain ⟨ad, had⟩ := product_fits n.isInt32_lo m.isInt32_hi n.lo_lt m.hi_lt
  obtain ⟨bc, hbc⟩ := product_fits n.isInt32_hi m.isInt32_lo n.hi_lt m.lo_lt
  obtain ⟨bd, hbd⟩ := product_fits n.isInt32_hi m.isInt32_hi n.hi_lt m.hi_lt
  have left := n.ordered
  have right := m.ordered
  simp only [productBounds, ac, ad, bc, bd]
  split
  · next signs => exact .ok ⟨by nlinarith, hac, hbd⟩
  · split
    · next signs => exact .ok ⟨by nlinarith, hbd, hac⟩
    · split
      · next signs => exact .ok ⟨by nlinarith, hbc, had⟩
      · split
        · next signs => exact .ok ⟨by nlinarith, had, hbc⟩
        · refine .ok ⟨?_, natAbs_min_lt (natAbs_min_lt hac had) (natAbs_min_lt hbc hbd),
            natAbs_max_lt (natAbs_max_lt hac had) (natAbs_max_lt hbc hbd)⟩
          exact ((min_le_left _ _).trans (min_le_left _ _)).trans
            ((le_max_left _ _).trans (le_max_left _ _))

/-- Products are normal. -/
theorem mul_yields (n : r.Normal) (m : s.Normal) : Yields (r.mul s) Normal := by
  refine (productExponent_yields n m).bind fun e ⟨valid, product⟩ => ?_
  split
  · next closed =>
    rw [Bool.and_eq_true] at closed
    refine (productBounds_yields n m).bind fun ⟨l, h⟩ bounds => ?_
    rw [product closed.1 closed.2] at valid ⊢
    exact between_yields valid fun _ _ => bounds
  · exact between_yields valid fun fits => absurd fits (by decide)

/-- How a quotient of closed ranges is built. -/
theorem div_eq (n : r.Normal) (left : r.isClosed = true) (right : s.isClosed = true) (integral : Bool) :
    r.div s integral =
      if 1 ≤ s.lo then
        between (min r.lo 0) (max r.hi 0) (!integral) (if integral then int32Exponent else r.exponent)
      else if s.hi ≤ -1 then
        between (min (-r.hi) 0) (max (-r.lo) 0) (!integral)
          (if integral then int32Exponent else r.exponent)
      else .ok unknown := by
  have low := n.isInt32_lo.natAbs_le
  have high := n.isInt32_hi.natAbs_le
  have exponent : (if integral then pure int32Exponent else r.finiteExponent) =
      Except.ok (if integral then int32Exponent else r.exponent) := by
    rw [n.finiteExponent_eq left]
    split <;> rfl
  rw [div, left, right, exponent, fitInt64_of_natAbs_le (by omega), fitInt64_of_natAbs_le (by omega)]
  rfl

/-- Open quotients are unknown. -/
theorem div_of_open (isOpen : r.isClosed = false ∨ s.isClosed = false) (integral : Bool) :
    r.div s integral = .ok unknown := by
  rw [div, Bool.and_eq_false_iff.mpr isOpen]
  rfl

/-- Known ones are closed. -/
theorem div_unknown_or_closed (r s : Range) (integral : Bool) :
    r.div s integral = .ok unknown ∨ r.isClosed = true ∧ s.isClosed = true := by
  by_cases closed : r.isClosed = true ∧ s.isClosed = true
  · exact .inr closed
  · rw [not_and_or, Bool.not_eq_true, Bool.not_eq_true] at closed
    exact .inl (div_of_open closed integral)

/-- Quotients are normal. -/
theorem div_yields (n : r.Normal) (integral : Bool) :
    Yields (r.div s integral) Normal := by
  rcases div_unknown_or_closed r s integral with vague | ⟨left, right⟩
  · exact ⟨_, vague, unknown_normal⟩
  rw [div_eq n left right]
  have exponent : IsExponent (if integral then int32Exponent else r.exponent) ∧
      r.exponent ≤ (if integral then int32Exponent else r.exponent) := by
    split
    · exact ⟨isExponent_int32, n.exponent_le left⟩
    · exact ⟨n.isExponent, le_rfl⟩
  obtain ⟨valid, covers⟩ := exponent
  have below : ∀ x : Int, x.natAbs ≤ max r.lo.natAbs r.hi.natAbs →
      x.natAbs < pow2 ((if integral then int32Exponent else r.exponent) + 1) := by
    intro x small
    have := pow2_le_pow2 (Nat.add_le_add_right covers 1)
    have := n.lo_lt
    have := n.hi_lt
    omega
  have ordered := n.ordered
  split
  · exact between_yields valid fun _ _ => ⟨by omega, below _ (by omega), below _ (by omega)⟩
  · split
    · exact between_yields valid fun _ _ => ⟨by omega, below _ (by omega), below _ (by omega)⟩
    · exact .ok unknown_normal

/-- The greater magnitude of the endpoints of a normal range. -/
theorem endpointMagnitude_eq (n : r.Normal) :
    r.endpointMagnitude = .ok ((max r.lo.natAbs r.hi.natAbs : Nat) : Int) := by
  have := n.isInt32_lo.natAbs_le
  have := n.isInt32_hi.natAbs_le
  rw [endpointMagnitude, fitInt64_of_natAbs_le (by omega), fitInt64_of_natAbs_le (by omega)]
  exact congrArg Except.ok (by omega)

/-- The greatest magnitude of a remainder: not above that of the dividend, and not above that of the
divisor, which integers stay below. -/
def remainderBound (r s : Range) : Int :=
  min (max r.lo.natAbs r.hi.natAbs : Nat)
    (if r.fractional || s.fractional then (max s.lo.natAbs s.hi.natAbs : Nat)
      else (max s.lo.natAbs s.hi.natAbs : Nat) - 1)

/-- How a remainder of closed ranges is built, unless the divisor may be zero. -/
theorem mod_eq (n : r.Normal) (m : s.Normal) (left : r.isClosed = true) (right : s.isClosed = true)
    (nonzero : s.canBeZero = false) :
    r.mod s = between (if 0 ≤ r.lo then 0 else -remainderBound r s)
      (if r.hi ≤ 0 then 0 else remainderBound r s) (r.fractional || s.fractional)
      (min r.exponent s.exponent) := by
  have := n.isInt32_lo.natAbs_le
  have := n.isInt32_hi.natAbs_le
  have := m.isInt32_lo.natAbs_le
  have := m.isInt32_hi.natAbs_le
  have divisor : (if r.fractional || s.fractional then pure ((max s.lo.natAbs s.hi.natAbs : Nat) : Int)
      else fitInt64 ((max s.lo.natAbs s.hi.natAbs : Nat) - 1)) =
        Except.ok (if r.fractional || s.fractional then ((max s.lo.natAbs s.hi.natAbs : Nat) : Int)
          else (max s.lo.natAbs s.hi.natAbs : Nat) - 1) := by
    rw [fitInt64_of_natAbs_le (by omega)]
    split <;> rfl
  have lower : (if 0 ≤ r.lo then pure 0 else fitInt64 (-remainderBound r s)) =
      Except.ok (if 0 ≤ r.lo then 0 else -remainderBound r s) := by
    rw [fitInt64_of_natAbs_le (by unfold remainderBound; split <;> omega)]
    split <;> rfl
  rw [mod, left, right, nonzero, endpointMagnitude_eq n, endpointMagnitude_eq m,
    n.finiteExponent_eq left, m.finiteExponent_eq right]
  unfold remainderBound at lower ⊢
  simp only [divisor, lower, bind, Except.bind]
  rfl

/-- Open remainders are unknown. -/
theorem mod_of_open (isOpen : r.isClosed = false ∨ s.isClosed = false ∨ s.canBeZero = true) :
    r.mod s = .ok unknown := by
  rw [mod, if_neg]
  rcases isOpen with left | right | zero
  · simp [left]
  · simp [right]
  · simp [zero]

/-- Known ones are closed. -/
theorem mod_unknown_or_closed (r s : Range) : r.mod s = .ok unknown ∨
    r.isClosed = true ∧ s.isClosed = true ∧ s.canBeZero = false := by
  by_cases closed : r.isClosed = true ∧ s.isClosed = true ∧ s.canBeZero = false
  · exact .inr closed
  · rw [not_and_or, not_and_or, Bool.not_eq_true, Bool.not_eq_true, Bool.not_eq_false] at closed
    exact .inl (mod_of_open closed)

/-- Remainders are normal. -/
theorem mod_yields (n : r.Normal) (m : s.Normal) : Yields (r.mod s) Normal := by
  rcases mod_unknown_or_closed r s with vague | ⟨left, right, nonzero⟩
  · exact ⟨_, vague, unknown_normal⟩
  rw [mod_eq n m left right nonzero]
  have bound : 0 ≤ remainderBound r s ∧ (remainderBound r s).natAbs ≤ max r.lo.natAbs r.hi.natAbs ∧
      (remainderBound r s).natAbs ≤ max s.lo.natAbs s.hi.natAbs := by
    have ordered := m.ordered
    rw [canBeZero, Bool.and_eq_false_iff, decide_eq_false_iff_not, decide_eq_false_iff_not] at nonzero
    unfold remainderBound
    split <;> omega
  obtain ⟨nonneg, within, within'⟩ := bound
  have below : ∀ x : Int, x.natAbs ≤ (remainderBound r s).natAbs →
      x.natAbs < pow2 (min r.exponent s.exponent + 1) := by
    intro x small
    refine log2_le_iff.mp (le_min ((log2_mono (small.trans within)).trans ?_)
      ((log2_mono (small.trans within')).trans ?_))
    · exact log2_max_le_iff.mpr n.covers
    · exact log2_max_le_iff.mpr m.covers
  refine between_yields (n.isExponent.min m.isExponent) fun _ _ => ⟨?_, below _ ?_, below _ ?_⟩
  · split <;> split <;> omega
  · split <;> omega
  · split <;> omega

/-- The negated endpoint of a normal range, where the greatest int32 is the limit. -/
theorem negateEndpoint_eq {x : Int} (fits : IsInt32 x) :
    negateEndpoint x = .ok (min (-x) int32Max) := by
  rw [negateEndpoint]
  unfold IsInt32 at fits
  split
  · next least =>
    subst least
    rfl
  · next more =>
    have : IsInt32 (-x) := by
      unfold IsInt32 int32Min int32Max at *
      omega
    rw [fitInt32, if_pos this, min_eq_left this.2]

/-- The parts of a range of absolute values. -/
def folded (r : Range) : Range :=
  ⟨some (max (max 0 r.lo) (min (-r.hi) int32Max)),
    if r.isClosed && decide (r.lo ≠ int32Min) then some (max (max 0 r.hi) (min (-r.lo) int32Max)) else none,
    r.fractional, r.exponent, none, none⟩

/-- The magnitude of an endpoint that is no bound is the greatest int32. -/
theorem folded_limit (n : r.Normal) : (r.isClosed && decide (r.lo ≠ int32Min)) = true ∨
    max (max 0 r.hi) (min (-r.lo) int32Max) = int32Max := by
  have upper := n.upper_fits
  rw [Bool.and_eq_true, decide_eq_true_iff]
  by_cases least : r.lo = int32Min
  · rw [least]
    exact .inr (max_eq_right (max_le (by decide) upper))
  · cases boundedAbove : r.upper.isSome with
    | false =>
      have positive : 0 ≤ int32Max := by decide
      rw [hi_of_open boundedAbove, max_eq_right positive]
      exact .inr (max_eq_left (min_le_right _ _))
    | true =>
      cases bounded : r.lower.isSome with
      | false => exact absurd (lo_of_open bounded) least
      | true => exact .inl ⟨isClosed_iff.mpr ⟨bounded, boundedAbove⟩, least⟩

/-- The range of absolute values is made of these parts. -/
theorem abs_eq_raw (n : r.Normal) : r.abs =
    raw (max (max 0 r.lo) (min (-r.hi) int32Max)) true (max (max 0 r.hi) (min (-r.lo) int32Max))
      (r.isClosed && decide (r.lo ≠ int32Min)) r.fractional r.exponent := by
  rw [abs, negateEndpoint_eq n.isInt32_lo, negateEndpoint_eq n.isInt32_hi, ok_bind, ok_bind]

/-- Magnitudes fold the range. -/
theorem abs_eq (n : r.Normal) : r.abs = r.folded.normalize := by
  rw [abs_eq_raw n, raw_eq (.inl rfl) (folded_limit n), folded, if_pos rfl]

/-- The range of the absolute values of a normal range is normal. -/
theorem abs_yields (n : r.Normal) : Yields r.abs Normal := by
  have ordered := n.ordered
  have lower := n.lower_fits
  have upper := n.upper_fits
  have limits : int32Min ≤ int32Max := by decide
  have positive : 0 ≤ int32Max := by decide
  have magnitude : ∀ x : Int, x.natAbs ≤ max r.lo.natAbs r.hi.natAbs → x.natAbs.log2 ≤ r.exponent :=
    fun x small => (log2_mono small).trans (log2_max_le_iff.mpr n.covers)
  have room : (r.isClosed && decide (r.lo ≠ int32Min)) = true ∨ int32Exponent ≤ r.exponent := by
    rw [Bool.and_eq_true, decide_eq_true_iff]
    by_cases least : r.lo = int32Min
    · have covers := n.covers.1
      rw [least] at covers
      exact .inr covers
    · exact n.room.imp_left fun closed => ⟨closed, least⟩
  rw [abs_eq_raw n]
  exact raw_yields (.inl rfl) (folded_limit n) (by omega) (by omega) (by omega) (by simpa using room)
    n.isExponent (magnitude _ (by omega)) (magnitude _ (by omega))

/-- The range of the smaller of two numbers from normal ranges is normal. -/
theorem minimum_yields (n : r.Normal) (m : s.Normal) : Yields (r.minimum s) Normal := by
  rw [minimum]
  split
  · exact .ok unknown_normal
  have covers := n.covers_max m
  refine raw_yields (lower_both n m) (upper_either r s) (le_min n.lower_fits m.lower_fits)
    (min_le_min n.ordered m.ordered) ((min_le_left _ _).trans n.upper_fits) ?_
    (n.isExponent.max m.isExponent) ?_ ?_
  · refine (n.room_max m).imp_left ?_
    rintro ⟨closed, closed'⟩
    rw [isClosed_iff] at closed closed'
    simp [closed, closed']
  · rcases min_choice r.lo s.lo with same | same <;> exact covers _ (by simp [same])
  · rcases min_choice r.hi s.hi with same | same <;> exact covers _ (by simp [same])

/-- The range of the greater of two numbers from normal ranges is normal. -/
theorem maximum_yields (n : r.Normal) (m : s.Normal) : Yields (r.maximum s) Normal := by
  rw [maximum]
  split
  · exact .ok unknown_normal
  have covers := n.covers_max m
  refine raw_yields (lower_either r s) (upper_both n m) (n.lower_fits.trans (le_max_left _ _))
    (max_le_max n.ordered m.ordered) (max_le n.upper_fits m.upper_fits) ?_
    (n.isExponent.max m.isExponent) ?_ ?_
  · refine (n.room_max m).imp_left ?_
    rintro ⟨closed, closed'⟩
    rw [isClosed_iff] at closed closed'
    simp [closed, closed']
  · rcases max_choice r.lo s.lo with same | same <;> exact covers _ (by simp [same])
  · rcases max_choice r.hi s.hi with same | same <;> exact covers _ (by simp [same])

/-- Rounded ranges are normal. -/
theorem rounded_yields (n : r.Normal) : Yields r.rounded Normal := by
  have exponent : Yields (if r.isClosed then pure r.impliedExponent
      else if r.fractional && decide (r.exponent < maxFiniteExponent) then fitUint16 (r.exponent + 1)
      else pure r.exponent) fun e => IsExponent e ∧
        (r.isClosed = false → int32Exponent ≤ e) ∧ (r.isClosed = true → e = r.impliedExponent) := by
    split
    · next closed =>
      refine .ok ⟨n.closed_exponent closed ▸ n.isExponent, fun isOpen => ?_, fun _ => rfl⟩
      rw [closed] at isOpen
      cases isOpen
    · next isOpen =>
      rw [Bool.not_eq_true] at isOpen
      have wide := n.open_exponent isOpen
      split
      · next fraction =>
        rw [Bool.and_eq_true, decide_eq_true_iff] at fraction
        have small := fraction.2
        unfold maxFiniteExponent at small
        rw [fitUint16, if_pos (by omega)]
        exact .ok ⟨.inl fraction.2, fun _ => wide.trans (Nat.le_succ _), by simp [isOpen]⟩
      · exact .ok ⟨n.isExponent, fun _ => wide, by simp [isOpen]⟩
  refine exponent.bind fun e ⟨valid, beyond, implied⟩ => ?_
  exact Normal.yields_checked
    ⟨n.lower_fits, n.ordered, n.upper_fits, valid, beyond, implied, fun _ _ => rfl⟩

/-- A number is at least its square root, rounded up. -/
theorem ceilSqrt_le (k : Nat) : ceilSqrt k ≤ k := by
  have square := Nat.sqrt_le k
  have more := Nat.le_mul_self k.sqrt
  rw [ceilSqrt]
  split
  · exact more.trans square
  · omega

/-- Square roots are normal. -/
theorem sqrt_yields (n : r.Normal) : Yields r.sqrt Normal := by
  rw [sqrt]
  split
  · exact .ok unknown_normal
  next positive =>
  rw [not_or, not_lt] at positive
  cases bound : r.upper with
  | none => exact between_yields n.isExponent fun _ fits => absurd fits (by decide)
  | some h =>
    have hi_eq : r.hi = h := by rw [hi, bound, Option.getD_some]
    have ordered := n.ordered
    have root := ceilSqrt_le h.toNat
    refine between_yields n.isExponent fun _ _ => ⟨?_, pow2_pos _, ?_⟩
    · exact Int.natCast_nonneg _
    · have covers := n.hi_lt
      show (ceilSqrt h.toNat : Int).natAbs < _
      omega

end Rangefinder.Range
