import Rangefinder.Proofs.Range.ArithmeticSoundness

/-!
# Quotients and remainders lie in their ranges

A divisor of magnitude one or more does not move the dividend away from zero, whatever its sign: dividing
by a negative number is dividing the negated dividend by a positive one. A remainder has the sign of the
dividend, at most its magnitude, and a magnitude below that of the divisor; it does not depend on the
sign of the divisor.

Division and remainder ask for closed operands, and for a divisor that stays away from zero. Of all other
operands nothing is known, and the range of all numbers is returned.
-/

namespace Rangefinder

variable {x y : Rat}

/-! ### Quotients and remainders of rationals -/

/-- A divisor of one or more does not move the dividend away from zero. -/
theorem div_between {l h : Int} (lower : (l : Rat) ≤ x) (upper : x ≤ h) (large : 1 ≤ y) :
    ((min l 0 : Int) : Rat) ≤ x / y ∧ x / y ≤ ((max h 0 : Int) : Rat) := by
  have pos : 0 < y := zero_lt_one.trans_le large
  rw [Int.cast_min, Int.cast_max, Int.cast_zero]
  rcases le_total 0 x with nonneg | nonpos
  · exact ⟨min_le_of_right_le (div_nonneg nonneg pos.le),
      le_max_of_le_left ((div_le_self nonneg large).trans upper)⟩
  · have shrinks : x ≤ x / y := by
      rw [le_div_iff₀ pos]
      exact mul_le_of_one_le_right nonpos large
    exact ⟨min_le_of_left_le (lower.trans shrinks),
      le_max_of_le_right (div_nonpos_of_nonpos_of_nonneg nonpos pos.le)⟩

/-- Bounds of a quotient by a negative divisor. -/
theorem div_between_of_neg {l h : Int} (lower : (l : Rat) ≤ x) (upper : x ≤ h) (large : y ≤ -1) :
    ((min (-h) 0 : Int) : Rat) ≤ x / y ∧ x / y ≤ ((max (-l) 0 : Int) : Rat) := by
  rw [← neg_div_neg_eq]
  refine div_between ?_ ?_ (le_neg_of_le_neg large)
  · rw [Int.cast_neg]
    exact neg_le_neg upper
  · rw [Int.cast_neg]
    exact neg_le_neg lower

/-- Quotients shrink. -/
theorem abs_div_le (large : 1 ≤ |y|) : |x / y| ≤ |x| := by
  rw [abs_div]
  exact div_le_self (abs_nonneg x) large

/-- So do truncations. -/
theorem abs_truncate_le (x : Rat) : |(truncate x : Rat)| ≤ |x| := by
  rcases le_total 0 x with nonneg | nonpos
  · rw [truncate_of_nonneg nonneg, abs_of_nonneg nonneg,
      abs_of_nonneg (Int.cast_nonneg (Int.floor_nonneg.mpr nonneg))]
    exact Int.floor_le x
  · have nonneg := neg_nonneg.mpr nonpos
    rw [← neg_neg x, truncate_neg, Int.cast_neg, abs_neg, abs_neg, truncate_of_nonneg nonneg,
      abs_of_nonneg nonneg, abs_of_nonneg (Int.cast_nonneg (Int.floor_nonneg.mpr nonneg))]
    exact Int.floor_le (-x)

/-- What is left of the dividend by the truncated quotient. -/
def remainder (x y : Rat) : Rat := x - y * truncate (x / y)

/-- The dividend gives the sign. -/
theorem remainder_neg_left (x y : Rat) : remainder (-x) y = -remainder x y := by
  rw [remainder, remainder, neg_div, truncate_neg, Int.cast_neg]
  ring

/-- The divisor does not. -/
theorem remainder_neg_right (x y : Rat) : remainder x (-y) = remainder x y := by
  rw [remainder, remainder, div_neg, truncate_neg, Int.cast_neg]
  ring

/-- Only its size counts. -/
theorem remainder_abs_right (x y : Rat) : remainder x |y| = remainder x y := by
  rcases abs_choice y with same | negated
  · rw [same]
  · rw [negated, remainder_neg_right]

/-- The remainder of a dividend that is not negative. -/
theorem remainder_of_nonneg (nonneg : 0 ≤ x) (ne : y ≠ 0) :
    0 ≤ remainder x y ∧ remainder x y ≤ x ∧ remainder x y < |y| := by
  have pos : 0 < |y| := abs_pos.mpr ne
  have quotient : 0 ≤ x / |y| := div_nonneg nonneg pos.le
  rw [← remainder_abs_right, remainder, truncate_of_nonneg quotient, mul_comm]
  refine ⟨Int.sub_floor_div_mul_nonneg x pos, ?_, Int.sub_floor_div_mul_lt x pos⟩
  exact sub_le_self x (mul_nonneg (Int.cast_nonneg (Int.floor_nonneg.mpr quotient)) pos.le)

/-- A remainder has the sign of the dividend. -/
theorem remainder_nonneg (nonneg : 0 ≤ x) (ne : y ≠ 0) : 0 ≤ remainder x y :=
  (remainder_of_nonneg nonneg ne).1

/-- The sign is kept. -/
theorem remainder_nonpos (nonpos : x ≤ 0) (ne : y ≠ 0) : remainder x y ≤ 0 := by
  have mirrored := remainder_nonneg (neg_nonneg.mpr nonpos) ne
  rwa [remainder_neg_left, neg_nonneg] at mirrored

/-- A remainder is not beyond the dividend, and closer to zero than the divisor. -/
theorem abs_remainder (x : Rat) (ne : y ≠ 0) : |remainder x y| ≤ |x| ∧ |remainder x y| < |y| := by
  rcases le_total 0 x with nonneg | nonpos
  · obtain ⟨sign, within, below⟩ := remainder_of_nonneg nonneg ne
    rw [abs_of_nonneg sign, abs_of_nonneg nonneg]
    exact ⟨within, below⟩
  · obtain ⟨sign, within, below⟩ := remainder_of_nonneg (neg_nonneg.mpr nonpos) ne
    rw [remainder_neg_left] at sign within below
    rw [abs_of_nonpos (neg_nonneg.mp sign), abs_of_nonpos nonpos]
    exact ⟨within, below⟩

/-- Remainders of integers. -/
theorem remainder_intCast (i j : Int) : remainder i j = (i - j * i.tdiv j : Int) := by
  rw [remainder, truncate_div, Int.cast_sub, Int.cast_mul]

namespace Range

variable {r s t : Range}

/-! ### Quotients -/

/-- The range of a quotient is built around the quotients, with an exponent that covers them, or nothing
is known of it. -/
theorem div_run (n : r.Normal) {integral : Bool} (run : r.div s integral = .ok t) (hx : r.Holds x)
    (hy : s.Holds y) : t = unknown ∨ ∃ (l h : Int) (e : Nat), between l h (!integral) e = .ok t ∧
      (l : Rat) ≤ x / y ∧ x / y ≤ h ∧ |x / y| < (pow2 (e + 1) : Nat) := by
  rcases div_unknown_or_closed r s integral with vague | ⟨left, right⟩
  · exact .inl (Except.ok.inj (run.symm.trans vague))
  have covered : 1 ≤ |y| →
      |x / y| < (pow2 ((if integral then int32Exponent else r.exponent) + 1) : Nat) := by
    intro large
    have wider : r.exponent ≤ if integral then int32Exponent else r.exponent := by
      split
      · exact n.exponent_le left
      · exact le_rfl
    calc |x / y| ≤ |x| := abs_div_le large
      _ < (pow2 (r.exponent + 1) : Nat) := hx.covered (n.canBeNonFinite_eq_false left)
      _ ≤ _ := Nat.cast_le.mpr (pow2_le_pow2 (Nat.add_le_add_right wider 1))
  obtain ⟨lower, upper⟩ := hx.between_of_isClosed left
  obtain ⟨lower', upper'⟩ := hy.between_of_isClosed right
  rw [div_eq n left right] at run
  split at run
  · next positive =>
    have large : 1 ≤ y := by
      rw [← Int.cast_one]
      exact (Int.cast_le.mpr positive).trans lower'
    obtain ⟨above, below⟩ := div_between lower upper large
    exact .inr ⟨_, _, _, run, above, below, covered (le_abs.mpr (.inl large))⟩
  · split at run
    · next negative =>
      have large : y ≤ -1 := by
        rw [← Int.cast_one, ← Int.cast_neg]
        exact upper'.trans (Int.cast_le.mpr negative)
      obtain ⟨above, below⟩ := div_between_of_neg lower upper large
      exact .inr ⟨_, _, _, run, above, below, covered (le_abs.mpr (.inr (le_neg_of_le_neg large)))⟩
    · exact .inl (Except.ok.inj run).symm

/-- Quotients are members. -/
theorem div_contains (n : r.Normal) (hx : r.Holds x) (hy : s.Holds y) :
    Yields (r.div s false) fun t => t.contains (.finite (x / y)) = true := by
  refine (div_yields n false).of_run fun t run _ => ?_
  rcases div_run n run hx hy with rfl | ⟨l, h, e, run, lower, upper, covered⟩
  · exact unknown_contains _
  · exact contains_finite.mpr (between_holds run (.inr lower) (.inr upper) (by simp) fun _ => covered)

/-- The integers of a quotient range are the truncated quotients. -/
theorem div_contains_tdiv {i j : Int} (n : r.Normal) (hi : r.Holds i) (hj : s.Holds j) :
    Yields (r.div s true) fun t => t.contains (.ofInt (i.tdiv j)) = true := by
  refine (div_yields n true).of_run fun t run _ => ?_
  rcases div_run n run hi hj with rfl | ⟨l, h, e, run, lower, upper, covered⟩
  · exact unknown_contains _
  · rw [← truncate_div]
    refine contains_ofInt.mpr (between_holds run (.inr (Int.cast_le.mpr (le_truncate lower)))
      (.inr (Int.cast_le.mpr (truncate_le upper))) (fun _ => ⟨_, rfl⟩) fun _ => ?_)
    exact (abs_truncate_le _).trans_lt covered

/-! ### Remainders -/

/-- The bound on the magnitude of a remainder holds of all remainders. -/
theorem abs_remainder_le (hx : r.Holds x) (hy : s.Holds y) (left : r.isClosed = true)
    (right : s.isClosed = true) (ne : y ≠ 0) : |remainder x y| ≤ (remainderBound r s : Rat) := by
  obtain ⟨within, below⟩ := abs_remainder x ne
  obtain ⟨lower, upper⟩ := hx.between_of_isClosed left
  obtain ⟨lower', upper'⟩ := hy.between_of_isClosed right
  have dividend := within.trans (abs_le_of_between lower upper)
  have divisor := below.trans_le (abs_le_of_between lower' upper')
  rw [remainderBound, Int.cast_min, le_min_iff]
  refine ⟨dividend, ?_⟩
  split
  · exact divisor.le
  · next whole =>
    -- Integers below an integer are below it by one at least.
    obtain ⟨left, right⟩ := Bool.or_eq_false_iff.mp (Bool.eq_false_iff.mpr whole)
    obtain ⟨i, rfl⟩ := hx.integral left
    obtain ⟨j, rfl⟩ := hy.integral right
    rw [remainder_intCast, ← Int.cast_abs] at divisor ⊢
    have strict : |i - j * i.tdiv j| < ((max s.lo.natAbs s.hi.natAbs : Nat) : Int) :=
      Int.cast_lt.mp divisor
    exact Int.cast_le.mpr (Int.le_sub_one_of_lt strict)

/-- Remainders are members. -/
theorem mod_contains (n : r.Normal) (m : s.Normal) (hx : r.Holds x) (hy : s.Holds y) (ne : y ≠ 0) :
    Yields (r.mod s) fun t => t.contains (.finite (remainder x y)) = true := by
  refine (mod_yields n m).of_run fun t run _ => ?_
  rcases mod_unknown_or_closed r s with vague | ⟨left, right, nonzero⟩
  · obtain rfl := Except.ok.inj (run.symm.trans vague)
    exact unknown_contains _
  rw [mod_eq n m left right nonzero] at run
  obtain ⟨lower, upper⟩ := hx.between_of_isClosed left
  have bound := abs_le.mp (abs_remainder_le hx hy left right ne)
  refine contains_finite.mpr (between_holds run (.inr ?_) (.inr ?_) (fun whole => ?_) fun _ => ?_)
  · split
    · next nonneg =>
      rw [Int.cast_zero]
      exact remainder_nonneg ((Int.cast_nonneg nonneg).trans lower) ne
    · rw [Int.cast_neg]
      exact bound.1
  · split
    · next nonpos =>
      rw [Int.cast_zero]
      exact remainder_nonpos (upper.trans (Int.cast_nonpos.mpr nonpos)) ne
    · exact bound.2
  · obtain ⟨left, right⟩ := Bool.or_eq_false_iff.mp whole
    obtain ⟨i, rfl⟩ := hx.integral left
    obtain ⟨j, rfl⟩ := hy.integral right
    exact ⟨_, (remainder_intCast i j).symm⟩
  · obtain ⟨within, below⟩ := abs_remainder x ne
    rcases min_choice r.exponent s.exponent with least | least
    · rw [least]
      exact within.trans_lt (hx.covered (n.canBeNonFinite_eq_false left))
    · rw [least]
      exact below.trans (hy.covered (m.canBeNonFinite_eq_false right))

/-! ### Soundness -/

/-- Where the divisor may be zero or an operand is open, nothing is said about quotients and
remainders. -/
theorem division_unknown (n : r.Normal)
    (vague : s.contains (.ofInt 0) = true ∨ r.isClosed = false ∨ s.isClosed = false) :
    (∀ integral, r.div s integral = .ok unknown) ∧ r.mod s = .ok unknown := by
  by_cases closed : r.isClosed = true ∧ s.isClosed = true
  · have zero : s.canBeZero = true := by
      have member := vague.resolve_right (by simp [closed])
      exact canBeZero_of_holds (Int.cast_zero (R := Rat) ▸ contains_ofInt.mp member)
    have around : s.lo ≤ 0 ∧ 0 ≤ s.hi := by simpa [canBeZero] using zero
    refine ⟨fun integral => ?_, mod_of_open (.inr (.inr zero))⟩
    rw [div_eq n closed.1 closed.2, if_neg (by omega), if_neg (by omega)]
  · rw [not_and_or, Bool.not_eq_true, Bool.not_eq_true] at closed
    exact ⟨div_of_open closed, mod_of_open (closed.imp_right .inl)⟩

/-- Division of normal ranges succeeds and holds the quotients of the rationals, and with integral results
the truncated quotients of the integers, for all divisors but zero. Remainders, with the sign of the
dividend, lie in theirs. Where the divisor may be zero or an operand is open, the result is the range of
all numbers. -/
theorem division_sound (n : r.Normal) (m : s.Normal) :
    (∀ x y : Rat, r.contains (.finite x) = true → s.contains (.finite y) = true → y ≠ 0 →
      Yields (r.div s false) (fun t => t.contains (.finite (x / y)) = true) ∧
      Yields (r.mod s) (fun t => t.contains (.finite (x - y * truncate (x / y))) = true)) ∧
    (∀ i j : Int, r.contains (.ofInt i) = true → s.contains (.ofInt j) = true → j ≠ 0 →
      Yields (r.div s true) (fun t => t.contains (.ofInt (i.tdiv j)) = true)) ∧
    (s.contains (.ofInt 0) = true ∨ r.isClosed = false ∨ s.isClosed = false →
      (∀ integral, r.div s integral = .ok unknown) ∧ r.mod s = .ok unknown) ∧
    ∀ a, unknown.contains a = true := by
  refine ⟨fun x y hx hy ne => ?_, fun i j hi hj _ => ?_, division_unknown n, unknown_contains⟩
  · rw [contains_finite] at hx hy
    exact ⟨div_contains n hx hy, mod_contains n m hx hy ne⟩
  · exact div_contains_tdiv n (contains_ofInt.mp hi) (contains_ofInt.mp hj)

/-- Numbers from the least int32 to five. -/
def leastToFive : Range := ⟨some int32Min, some 5, true, 31, none, none⟩

/-- Integers below zero. -/
def minusFourToMinusOne : Range := ⟨some (-4), some (-1), false, 2, none, none⟩

/-- A negative divisor: -7/2 divided by -3, the least int32 by -1, which leaves int32, and a dividend that
nothing is known of. -/
theorem leastToFive_division :
    leastToFive.Normal ∧ minusFourToMinusOne.Normal ∧ unknown.Normal ∧
      leastToFive.contains (.finite (-7 / 2)) = true ∧
      minusFourToMinusOne.contains (.finite (-3)) = true ∧
      Yields (leastToFive.div minusFourToMinusOne false) (fun t => t.contains (.finite (7 / 6)) = true) ∧
      Yields (leastToFive.mod minusFourToMinusOne) (fun t => t.contains (.finite (-1 / 2)) = true) ∧
      leastToFive.contains (.ofInt int32Min) = true ∧
      minusFourToMinusOne.contains (.ofInt (-1)) = true ∧
      Yields (leastToFive.div minusFourToMinusOne true) (fun t => t.contains (.ofInt 2147483648) = true) ∧
      unknown.isClosed = false ∧ unknown.mod minusFourToMinusOne = .ok unknown := by
  have normal : leastToFive.Normal := by decide
  have normal' : minusFourToMinusOne.Normal := by decide
  have member : leastToFive.contains (.finite (-7 / 2)) = true := by decide +kernel
  have member' : minusFourToMinusOne.contains (.finite (-3)) = true := by decide +kernel
  have least : leastToFive.contains (.ofInt int32Min) = true := by decide +kernel
  have minusOne : minusFourToMinusOne.contains (.ofInt (-1)) = true := by decide +kernel
  have quotient : (-7 / 2 : Rat) / -3 = 7 / 6 := by decide +kernel
  have left : (-7 / 2 : Rat) - -3 * truncate (-7 / 2 / -3) = -1 / 2 := by decide +kernel
  have truncated : int32Min.tdiv (-1) = 2147483648 := by decide
  obtain ⟨rationals, integers, -⟩ := division_sound normal normal'
  obtain ⟨-, -, vague, -⟩ := division_sound unknown_normal normal'
  obtain ⟨divided, remaining⟩ := rationals (-7 / 2) (-3) member member' (by decide +kernel)
  rw [quotient] at divided
  rw [left] at remaining
  have outside := integers int32Min (-1) least minusOne (by decide)
  rw [truncated] at outside
  exact ⟨normal, normal', unknown_normal, member, member', divided, remaining, least, minusOne,
    outside, rfl, (vague (.inr (.inl rfl))).2⟩

end Range

end Rangefinder
