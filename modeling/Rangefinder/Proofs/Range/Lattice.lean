import Rangefinder.Proofs.Range.Normal

/-!
# Refining and joining normal ranges

Refinements, unions, intersections and reductions of normal ranges are normal. A union leaves room
beyond int32 as soon as one of its parts does; an intersection only needs it where both do, since an
endpoint that either range has bounds the result.
-/

namespace Rangefinder.Range

variable {r s : Range}

/-- Where one of two ranges is open below, so is the lesser endpoint. -/
theorem lower_both (n : r.Normal) (m : s.Normal) :
    (r.lower.isSome && s.lower.isSome) = true ∨ min r.lo s.lo = int32Min := by
  have fits := n.lower_fits
  have fits' := m.lower_fits
  cases own : r.lower.isSome with
  | false => exact .inr (by rw [lo_of_open own, min_eq_left fits'])
  | true =>
    cases other : s.lower.isSome with
    | false => exact .inr (by rw [lo_of_open other, min_eq_right fits])
    | true => exact .inl rfl

/-- Where one of two ranges is open above, so is the greater endpoint. -/
theorem upper_both (n : r.Normal) (m : s.Normal) :
    (r.upper.isSome && s.upper.isSome) = true ∨ max r.hi s.hi = int32Max := by
  have fits := n.upper_fits
  have fits' := m.upper_fits
  cases own : r.upper.isSome with
  | false => exact .inr (by rw [hi_of_open own, max_eq_left fits'])
  | true =>
    cases other : s.upper.isSome with
    | false => exact .inr (by rw [hi_of_open other, max_eq_right fits])
    | true => exact .inl rfl

/-- Only where both ranges are open below is the greater endpoint no bound. -/
theorem lower_either (r s : Range) :
    (r.lower.isSome || s.lower.isSome) = true ∨ max r.lo s.lo = int32Min := by
  cases own : r.lower.isSome with
  | true => exact .inl rfl
  | false =>
    cases other : s.lower.isSome with
    | true => exact .inl rfl
    | false => exact .inr (by rw [lo_of_open own, lo_of_open other, max_self])

/-- Only where both ranges are open above is the lesser endpoint no bound. -/
theorem upper_either (r s : Range) :
    (r.upper.isSome || s.upper.isSome) = true ∨ min r.hi s.hi = int32Max := by
  cases own : r.upper.isSome with
  | true => exact .inl rfl
  | false =>
    cases other : s.upper.isSome with
    | true => exact .inl rfl
    | false => exact .inr (by rw [hi_of_open own, hi_of_open other, min_self])

/-- Where one of two normal ranges is open, the greater exponent leaves room beyond int32. -/
theorem Normal.room_max (n : r.Normal) (m : s.Normal) :
    r.isClosed = true ∧ s.isClosed = true ∨ int32Exponent ≤ max r.exponent s.exponent := by
  rcases n.room with closed | wide
  · rcases m.room with closed' | wide
    · exact .inl ⟨closed, closed'⟩
    · exact .inr (wide.trans (le_max_right _ _))
  · exact .inr (wide.trans (le_max_left _ _))

/-- The greater of two exponents covers every endpoint of the two ranges. -/
theorem Normal.covers_max (n : r.Normal) (m : s.Normal) :
    ∀ x ∈ [r.lo, r.hi, s.lo, s.hi], x.natAbs.log2 ≤ max r.exponent s.exponent := by
  intro x member
  simp only [List.mem_cons, List.not_mem_nil, or_false] at member
  rcases member with rfl | rfl | rfl | rfl
  · exact n.covers.1.trans (le_max_left _ _)
  · exact n.covers.2.trans (le_max_left _ _)
  · exact m.covers.1.trans (le_max_right _ _)
  · exact m.covers.2.trans (le_max_right _ _)

/-- Lower limits keep normal. -/
theorem atLeast_yields (n : r.Normal) {x : Int} (below : x ≤ r.hi) :
    Yields (r.atLeast x) Normal := by
  rw [atLeast, if_pos below]
  have inside : max r.lo x ≤ r.hi := max_le n.ordered below
  refine WellFormed.yields_normalize ⟨le_trans n.lower_fits (le_max_left _ _), inside,
    n.upper_fits, ?_, n.isExponent, n.covers.2, n.covers_of_between (le_max_left _ _) inside⟩
  refine n.room.imp_left fun closed => ?_
  rw [isClosed_iff] at closed ⊢
  exact ⟨rfl, closed.2⟩

/-- So do upper limits. -/
theorem atMost_yields (n : r.Normal) {x : Int} (above : r.lo ≤ x) :
    Yields (r.atMost x) Normal := by
  rw [atMost, if_pos above]
  have inside : r.lo ≤ min r.hi x := le_min n.ordered above
  refine WellFormed.yields_normalize ⟨n.lower_fits, inside,
    le_trans (min_le_left _ _) n.upper_fits, ?_, n.isExponent,
    n.covers_of_between inside (min_le_left _ _), n.covers.1⟩
  refine n.room.imp_left fun closed => ?_
  rw [isClosed_iff] at closed ⊢
  exact ⟨closed.1, rfl⟩

/-- Updates are normal. -/
theorem update_yields (n : r.Normal) (m : s.Normal) :
    Yields (r.update s) fun result => result.1.Normal := by
  rw [update]
  split
  · exact .ok n
  · exact (m.withSymbolic _ _).yields_checked.bind fun t normal => .ok normal

/-- The union of normal ranges is normal. -/
theorem union_yields (n : r.Normal) (m : s.Normal) : Yields (r.union s) Normal := by
  have covers := n.covers_max m
  refine raw_yields (lower_both n m) (upper_both n m) (le_min n.lower_fits m.lower_fits) ?_
    (max_le n.upper_fits m.upper_fits) ?_ (n.isExponent.max m.isExponent) ?_ ?_
  · exact le_trans (min_le_left _ _) (n.ordered.trans (le_max_left _ _))
  · refine (n.room_max m).imp_left ?_
    rintro ⟨closed, closed'⟩
    rw [isClosed_iff] at closed closed'
    simp [closed, closed']
  · rcases min_choice r.lo s.lo with same | same <;> exact covers _ (by simp [same])
  · rcases max_choice r.hi s.hi with same | same <;> exact covers _ (by simp [same])

/-- So are ranges with NaN. -/
theorem withNaN_normal (n : r.Normal) : r.withNaN.Normal := by
  rw [withNaN]
  split
  · exact n
  · next isOpen =>
    refine ⟨n.lower_fits, n.ordered, n.upper_fits, .inr (.inr rfl), fun _ => ?_, ?_, ?_⟩
    · show int32Exponent ≤ nanExponent
      decide
    · intro closed
      exact absurd closed isOpen
    · intro closed
      exact absurd closed isOpen

/-- Clipping keeps the ends. -/
theorem clipToInt32_yields (n : r.Normal) :
    Yields r.clipToInt32 fun t => t.NormalInt32 ∧ t.lo = r.lo ∧ t.hi = r.hi := by
  rw [clipToInt32]
  split
  · next is =>
    rw [isInt32, Bool.and_eq_true, Bool.not_eq_true'] at is
    exact .ok ⟨⟨n, is.1, is.2⟩, rfl, rfl⟩
  · exact setInt32_yields n.lower_fits n.ordered n.upper_fits

/-- Wrapping gives int32. -/
theorem wrapToInt32_yields (n : r.Normal) : Yields r.wrapToInt32 NormalInt32 := by
  rw [wrapToInt32]
  split
  · next closed =>
    split
    · have w : WellFormed { r with fractional := false } := n.wellFormed
      exact ⟨_, normalize_eq_ok.mpr ⟨w, rfl⟩, w.tighten_normal, isClosed_tighten.trans closed,
        fractional_tighten rfl⟩
    · next integral => exact .ok ⟨n, closed, by simpa using integral⟩
  · exact (setInt32_yields (by decide) (by decide) (by decide)).mono fun t result => result.1

/-- So does conversion. -/
theorem asInt32_yields (n : r.Normal) : Yields r.asInt32 NormalInt32 := wrapToInt32_yields n.numeric

/-- A shift count is an int32 below 32. -/
theorem wrapToShiftCount_yields (n : r.Normal) :
    Yields r.wrapToShiftCount fun t => t.NormalInt32 ∧ 0 ≤ t.lo ∧ t.hi < 32 := by
  refine (wrapToInt32_yields n).bind fun t int32 => ?_
  have ordered := int32.ordered
  split
  · split
    · next same =>
      rw [Int.fdiv_eq_ediv_of_nonneg _ (by decide), Int.fdiv_eq_ediv_of_nonneg _ (by decide)] at same
      have small : 0 ≤ t.lo % 32 ∧ t.lo % 32 ≤ t.hi % 32 ∧ t.hi % 32 < 32 := by omega
      exact (setInt32_yields (le_trans (by decide) small.1) small.2.1
        (small.2.2.le.trans (by decide))).mono
          fun u ⟨result, lower, upper⟩ => ⟨result, by omega, by omega⟩
    · exact (setInt32_yields (by decide) (by decide) (by decide)).mono
        fun u ⟨result, lower, upper⟩ => ⟨result, by omega, by omega⟩
  · next small => exact .ok ⟨int32, by omega, by omega⟩

/-- So do truth values. -/
theorem wrapToBoolean_yields (n : r.Normal) : Yields r.wrapToBoolean NormalInt32 := by
  refine (wrapToInt32_yields n).bind fun t int32 => ?_
  split
  · exact .ok int32
  · exact (setInt32_yields (by decide) (by decide) (by decide)).mono fun u result => result.1

/-- Extension is normal. -/
theorem extendToNegative_yields (n : r.Normal) (isOpen : r.upper.isSome = false) :
    Yields r.extendToNegative Normal := by
  have open' : ∀ lower : Option Int, Range.isClosed { r with lower := lower } = false := by
    simp [isClosed, isOpen]
  have lower : (r.lower.map fun _ => int32Min).getD int32Min = int32Min := by
    cases r.lower <;> rfl
  rw [extendToNegative, isOpen]
  refine Normal.yields_checked ⟨?_, ?_, n.upper_fits, n.isExponent, fun _ => ?_, ?_, ?_⟩
  · exact lower.ge
  · exact lower.le.trans n.isInt32_hi.1
  · exact n.open_exponent (open' r.lower)
  · intro closed
    rw [open'] at closed
    cases closed
  · intro closed
    rw [open'] at closed
    cases closed

/-! ### Intersections -/

/-- The bounds that either of two ranges has, with the fractions and the exponent that both allow. -/
def common (r s : Range) : Range :=
  ⟨if r.lower.isSome || s.lower.isSome then some (max r.lo s.lo) else none,
    if r.upper.isSome || s.upper.isSome then some (min r.hi s.hi) else none,
    r.fractional && s.fractional, min r.exponent s.exponent, none, none⟩

/-- When the common part is closed. -/
theorem isClosed_common : (common r s).isClosed =
    ((r.lower.isSome || s.lower.isSome) && (r.upper.isSome || s.upper.isSome)) := by
  simp only [isClosed, common]
  cases r.lower.isSome || s.lower.isSome <;> cases r.upper.isSome || s.upper.isSome <;> rfl

/-- The limit that an exponent below that of int32 sets is an int32, and so is its negation. -/
theorem fits_limit {e : Nat} (small : e < int32Exponent) :
    fitShift ((e : Int) + 1) = .ok (e + 1) ∧
      fitInt32 (-((pow2 (e + 1) : Int) - 1)) = .ok (-((pow2 (e + 1) : Int) - 1)) ∧
      fitInt32 ((pow2 (e + 1) : Int) - 1) = .ok ((pow2 (e + 1) : Int) - 1) := by
  have limit : pow2 (e + 1) ≤ 2147483648 := pow2_le_pow2 (l := 31) small
  have pos := pow2_pos (e + 1)
  unfold int32Exponent at small
  refine ⟨?_, if_pos ?_, if_pos ?_⟩
  · rw [fitShift, if_pos (by omega)]
    rfl
  · unfold IsInt32 int32Min int32Max
    omega
  · unfold IsInt32 int32Min int32Max
    omega

/-- An exponent below that of int32 says no more than the endpoints do: the range that has it is closed,
and its endpoints lie within the limit. -/
theorem common_limit (n : r.Normal) (m : s.Normal) (small : min r.exponent s.exponent < int32Exponent) :
    (r.lower.isSome || s.lower.isSome) = true ∧ (r.upper.isSome || s.upper.isSome) = true ∧
      -((pow2 (min r.exponent s.exponent + 1) : Int) - 1) ≤ max r.lo s.lo ∧
      min r.hi s.hi ≤ (pow2 (min r.exponent s.exponent + 1) : Int) - 1 := by
  rcases min_choice r.exponent s.exponent with same | same
  · rw [same] at small ⊢
    obtain ⟨lower, upper⟩ := isClosed_iff.mp (n.room.resolve_right (not_le.mpr small))
    have low := n.lo_lt
    have high := n.hi_lt
    exact ⟨by simp [lower], by simp [upper], by omega, by omega⟩
  · rw [same] at small ⊢
    obtain ⟨lower, upper⟩ := isClosed_iff.mp (m.room.resolve_right (not_le.mpr small))
    have low := m.lo_lt
    have high := m.hi_lt
    exact ⟨by simp [lower], by simp [upper], by omega, by omega⟩

/-- Normal ranges that do not lie apart have their common range as intersection, unless it would be closed
and both hold NaN. -/
theorem intersect_eq (n : r.Normal) (m : s.Normal) : r.intersect s =
    if min r.hi s.hi < max r.lo s.lo then
      .ok (if r.canBeNaN && s.canBeNaN then some unknown else none)
    else if (common r s).isClosed && (min r.exponent s.exponent == nanExponent) then .ok (some unknown)
    else some <$> (common r s).normalize := by
  rw [isClosed_common]
  simp only [intersect]
  refine ite_congr rfl (fun _ => rfl) fun apart => ite_congr rfl (fun _ => rfl) fun _ => ?_
  split
  · next mixed =>
    rw [Bool.and_eq_true, decide_eq_true_iff] at mixed
    obtain ⟨shift, fits, fits'⟩ := fits_limit mixed.2
    obtain ⟨bounded, boundedAbove, lower, upper⟩ := common_limit n m mixed.2
    simp only [shift, fits, fits', bind, Except.bind, max_eq_left lower, min_eq_left upper, if_neg apart,
      raw_eq (.inl rfl) (.inl rfl), common, bounded, boundedAbove, if_true]
  · rw [raw_eq (lower_either r s) (upper_either r s), common]

/-- The common range is closed if one of the two is, and otherwise its exponent leaves room beyond int32. -/
theorem Normal.room_common (n : r.Normal) (m : s.Normal) :
    (common r s).isClosed = true ∨ int32Exponent ≤ min r.exponent s.exponent := by
  rw [isClosed_common]
  rcases n.room with closed | wide
  · exact .inl (by simp [isClosed_iff.mp closed])
  · rcases m.room with closed | wide'
    · exact .inl (by simp [isClosed_iff.mp closed])
    · exact .inr (le_min wide wide')

/-- Normal ranges that do not lie apart have a normal range in common. -/
theorem common_yields (n : r.Normal) (m : s.Normal) (meet : max r.lo s.lo ≤ min r.hi s.hi) :
    Yields (common r s).normalize Normal := by
  have lowers := max_le_iff.mp (le_refl (max r.lo s.lo))
  have uppers := le_min_iff.mp (le_refl (min r.hi s.hi))
  rw [common, ← raw_eq (lower_either r s) (upper_either r s)]
  refine raw_yields (lower_either r s) (upper_either r s) (n.lower_fits.trans lowers.1) meet
    (uppers.1.trans n.upper_fits) (isClosed_common (r := r) (s := s) ▸ n.room_common m)
    (n.isExponent.min m.isExponent) (le_min ?_ ?_) (le_min ?_ ?_)
  · exact n.covers_of_between lowers.1 (meet.trans uppers.1)
  · exact m.covers_of_between lowers.2 (meet.trans uppers.2)
  · exact n.covers_of_between (lowers.1.trans meet) uppers.1
  · exact m.covers_of_between (lowers.2.trans meet) uppers.2

/-- Intersections are normal. -/
theorem intersect_yields (n : r.Normal) (m : s.Normal) :
    Yields (r.intersect s) fun t => ∀ u ∈ t, u.Normal := by
  rw [intersect_eq n m]
  split
  · refine .ok fun u shared => ?_
    split at shared
    · exact Option.some.inj shared ▸ unknown_normal
    · cases shared
  next apart =>
  split
  · exact .ok fun u unknown => Option.some.inj unknown ▸ unknown_normal
  · refine Yields.map ((common_yields n m (not_lt.mp apart)).mono fun t normal u member => ?_)
    exact Option.some.inj member ▸ normal

end Rangefinder.Range
