import Rangefinder.Proofs.Range.Order

/-!
# The numbers two ranges share

Normal ranges that do not lie apart have a common range: the bounds that either has, with the fractions
and the exponent that both allow. It holds the numbers that are in both, NaN included. Their intersection
is the common range in normal form. A closed range in normal form has no room for NaN, though, so where
two ranges close each other and share NaN the intersection is the range of all numbers. Ranges that lie
apart share at most NaN. Hence there is no intersection exactly when no number is in both.
-/

namespace Rangefinder.Range

variable {r s : Range} {a : Number}

/-- The common part is symmetric. -/
theorem common_comm (r s : Range) : common r s = common s r := by
  rw [common, common, Bool.or_comm, max_comm, Bool.or_comm r.upper.isSome, min_comm r.hi, Bool.and_comm,
    min_comm r.exponent]

/-- It lies within the first range. -/
theorem common_within_left (r s : Range) : (common r s).Within r where
  lower l bound := by
    have some : r.lower.isSome = true := Option.isSome_of_mem bound
    exact ⟨max r.lo s.lo, by simp [common, some], lo_eq bound ▸ le_max_left _ _⟩
  upper h bound := by
    have some : r.upper.isSome = true := Option.isSome_of_mem bound
    exact ⟨min r.hi s.hi, by simp [common, some], hi_eq bound ▸ min_le_left _ _⟩
  fractional fraction := (Bool.and_eq_true_iff.mp fraction).1
  exponent := min_le_left _ _

/-- It lies within the second. -/
theorem common_within_right (r s : Range) : (common r s).Within s :=
  common_comm s r ▸ common_within_left s r

section Normal

variable (n : r.Normal) (m : s.Normal)

include n m

/-- A number above the lower bounds of both ranges is above the common one: an open side has the least
endpoint there is, so the other range decides. -/
theorem lower_common (left : ∀ l ∈ r.lower, (Number.ofInt l).le a = true)
    (right : ∀ l ∈ s.lower, (Number.ofInt l).le a = true) :
    ∀ l ∈ (common r s).lower, (Number.ofInt l).le a = true := by
  have fits := n.lower_fits
  have fits' := m.lower_fits
  cases own : r.lower with
  | none =>
    cases other : s.lower with
    | none => simp [common, own, other]
    | some l =>
      rw [lo_eq other] at fits'
      simpa [common, lo, own, other, max_eq_right fits'] using right l other
  | some k =>
    rw [lo_eq own] at fits
    cases other : s.lower with
    | none => simpa [common, lo, own, other, max_eq_left fits] using left k own
    | some l => simpa [common, lo, own, other] using Number.ofInt_max_le.mpr ⟨left k own, right l other⟩

/-- Both upper bounds hold. -/
theorem upper_common (left : ∀ h ∈ r.upper, a.le (.ofInt h) = true)
    (right : ∀ h ∈ s.upper, a.le (.ofInt h) = true) :
    ∀ h ∈ (common r s).upper, a.le (.ofInt h) = true := by
  have fits := n.upper_fits
  have fits' := m.upper_fits
  cases own : r.upper with
  | none =>
    cases other : s.upper with
    | none => simp [common, own, other]
    | some h =>
      rw [hi_eq other] at fits'
      simpa [common, hi, own, other, min_eq_right fits'] using right h other
  | some k =>
    rw [hi_eq own] at fits
    cases other : s.upper with
    | none => simpa [common, hi, own, other, min_eq_left fits] using left k own
    | some h => simpa [common, hi, own, other] using Number.le_ofInt_min.mpr ⟨left k own, right h other⟩

/-- The common range holds the numbers that are in both ranges. -/
theorem contains_common :
    (common r s).contains a = true ↔ r.contains a = true ∧ s.contains a = true := by
  constructor
  · intro member
    exact ⟨(common_within_left r s).contains n.isExponent member,
      (common_within_right r s).contains m.isExponent member⟩
  · rintro ⟨left, right⟩
    by_cases number : a = .nan
    · subst number
      rw [contains_nan] at left right ⊢
      exact (congrArg₂ min left right).trans (min_self _)
    · rw [contains_iff_spans number] at left right ⊢
      refine ⟨lower_common n m left.lower right.lower, upper_common n m left.upper right.upper,
        fun whole => ?_, fun finite => ?_⟩
      · exact (Bool.and_eq_false_iff.mp whole).elim left.integral right.integral
      · rcases min_choice r.exponent s.exponent with same | same
        · have exponent : (common r s).exponent = r.exponent := same
          rw [canBeNonFinite, exponent] at finite
          exact exponent ▸ left.covered finite
        · have exponent : (common r s).exponent = s.exponent := same
          rw [canBeNonFinite, exponent] at finite
          exact exponent ▸ right.covered finite

/-- Where one range ends before the other begins, they share at most NaN. -/
theorem not_contains_of_lt (apart : r.hi < s.lo) (number : a ≠ .nan) (left : r.contains a = true) :
    s.contains a = false := by
  -- Neither side is open there: an open one would reach the limit of int32.
  have bounded : r.upper.isSome = true := by
    rw [← Bool.not_eq_false]
    intro isOpen
    have least := m.isInt32_lo.2
    rw [hi_of_open isOpen] at apart
    omega
  have bounded' : s.lower.isSome = true := by
    rw [← Bool.not_eq_false]
    intro isOpen
    have greatest := n.isInt32_hi.1
    rw [lo_of_open isOpen] at apart
    omega
  rw [← Bool.not_eq_true]
  intro right
  rw [contains_iff_spans number] at left right
  have order := Number.le_trans (right.lower _ (lower_eq_some bounded'))
    (left.upper _ (upper_eq_some bounded))
  rw [Number.le_ofInt, decide_eq_true_iff] at order
  omega

end Normal

/-- What an intersection says of two ranges: that no number is in both, or that there are such numbers and a
range holds them, and nothing else unless it is the range of all numbers. -/
def Shares (r s : Range) : Option Range → Prop
  | none => ∀ a, ¬(r.contains a = true ∧ s.contains a = true)
  | some u => (∃ a, r.contains a = true ∧ s.contains a = true) ∧
    (u = unknown ∨ ∀ a, u.contains a = true ↔ r.contains a = true ∧ s.contains a = true)

/-- Normal ranges have an intersection, and what it says is so. -/
theorem intersect_shares (n : r.Normal) (m : s.Normal) : Yields (r.intersect s) (Shares r s) := by
  rw [intersect_eq n m]
  split
  · next apart =>
    refine .ok ?_
    cases nan : r.canBeNaN && s.canBeNaN with
    | true =>
      obtain ⟨left, right⟩ := Bool.and_eq_true_iff.mp nan
      exact ⟨⟨.nan, left, right⟩, .inl rfl⟩
    | false =>
      rintro a ⟨left, right⟩
      by_cases number : a = .nan
      · subst number
        rw [show r.canBeNaN = true from left, show s.canBeNaN = true from right] at nan
        cases nan
      · have ordered := n.ordered
        have ordered' := m.ordered
        have sides : r.hi < s.lo ∨ s.hi < r.lo := by omega
        rcases sides with before | after
        · rw [not_contains_of_lt n m before number left] at right
          cases right
        · rw [not_contains_of_lt m n after number right] at left
          cases left
  next apart =>
  split
  · next closed =>
    rw [Bool.and_eq_true, beq_iff_eq] at closed
    exact .ok ⟨⟨.nan, (contains_common n m).mp (contains_nan.mpr closed.2)⟩, .inl rfl⟩
  · next room =>
    have meet := not_lt.mp apart
    refine Yields.map ((common_yields n m meet).of_run fun u run normal => ?_)
    refine ⟨⟨.ofInt (max r.lo s.lo), ?_, ?_⟩, .inr fun a => ?_⟩
    · exact contains_ofInt.mpr (n.holds_intCast (le_max_left _ _) (meet.trans (min_le_left _ _)))
    · exact contains_ofInt.mpr (m.holds_intCast (le_max_right _ _) (meet.trans (min_le_right _ _)))
    · rw [← contains_common n m]
      by_cases closed : (common r s).isClosed = true ∧ a = .nan
      · -- A common range that is closed has no exponent for NaN, before or after it is tightened.
        obtain ⟨closed, rfl⟩ := closed
        have absent : ¬(common r s).contains .nan = true := fun nan =>
          room (Bool.and_eq_true_iff.mpr ⟨closed, nan⟩)
        refine iff_of_false (fun nan => absent ?_) absent
        obtain ⟨-, rfl⟩ := normalize_eq_ok.mp run
        exact tighten_within.contains (n.isExponent.min m.isExponent) nan
      · exact contains_normalize run fun own nan => closed ⟨own, nan⟩

end Rangefinder.Range
