import Rangefinder.Proofs.Range.Bitwise
import Rangefinder.Proofs.Range.Membership

/-!
# Bitwise results lie in the ranges of bitwise operations

The operands are numbers of any kind; what counts is the int32 that each of them is read as, and the
range of the reading holds it. It remains to compare the endpoints that the operations compute with the
operations on int32 values. Leading ones of a negative operand and leading zeros of the others are what
the endpoints rest on; a negative operand of an exclusive disjunction is complemented first, so that only
values without a sign are left.
-/

namespace Rangefinder

namespace Range

variable {r s : Range} {a b : Number} {x y : Int}

/-- Conjunctions are members. -/
theorem and_contains (n : r.Normal) (m : s.Normal) (ha : r.contains a = true)
    (hb : s.contains b = true) :
    Yields (r.and s) fun t => t.contains (.ofInt (Word.and a.toInt32 b.toInt32)) = true := by
  refine (asInt32_reads n ha).bind fun r' left => (asInt32_reads m hb).bind fun s' right => ?_
  have fits := left.isInt32
  have fits' := right.isInt32
  obtain ⟨-, lower, upper⟩ := left
  obtain ⟨-, lower', upper'⟩ := right
  generalize a.toInt32 = x at *
  generalize b.toInt32 = y at *
  have word : IsInt32 (Word.and x y) := isInt32_bitVec _
  have left : 0 ≤ x → 0 ≤ Word.and x y ∧ Word.and x y ≤ x :=
    fun nonneg => Word.and_bounds_of_nonneg nonneg fits.2 y
  have right : 0 ≤ y → 0 ≤ Word.and x y ∧ Word.and x y ≤ y :=
    fun nonneg => Word.and_comm x y ▸ Word.and_bounds_of_nonneg nonneg fits'.2 x
  have negative : x < 0 → y < 0 → Word.and x y ≤ x :=
    fun hx hy => Word.and_le_of_neg hx hy fits.1 fits'.1
  split
  · exact int32_contains word word.1 (by omega)
  · refine int32_contains word (by omega) ?_
    split
    · omega
    · split
      · omega
      · omega

/-- The leading ones that all int32 values from `l` up to -1 have make a value that is not above `l`. -/
theorem leadingOnes_le {l : Int} (lower : int32Min ≤ l) (upper : l < -1) :
    Yields (leadingOnes l) fun ones => ones ≤ l := by
  unfold int32Min at lower
  refine (coveringMask_yields (k := (Word.not l).toNat) ?_ ?_).bind fun mask covers => .ok ?_
  · unfold Word.not
    omega
  · unfold Word.not
    omega
  · unfold Word.not at covers ⊢
    omega

/-- The leading ones of an operand that is negative throughout bound a disjunction with it. -/
theorem leadingOnes_le_or (reads : r.Reads x) (other : ¬(r.lo = r.hi ∧ r.lo = -1)) (y : Int) :
    Yields (if r.hi < 0 then leadingOnes r.lo else pure int32Min) fun ones => ones ≤ Word.or x y := by
  have fits := reads.isInt32
  obtain ⟨normal, lower, upper⟩ := reads
  split
  · next negative =>
    refine (leadingOnes_le normal.lower_fits (by have := normal.ordered; omega)).mono fun ones le => ?_
    have := (Word.or_bounds_of_neg (by omega) fits.1 y).1
    omega
  · exact .ok (isInt32_bitVec _).1

/-- The mask that covers the endpoints covers a disjunction of values without a sign. -/
theorem or_le_coveringMask {d : Int} (hx : 0 ≤ x) (hy : 0 ≤ y) (left : x ≤ d) (right : y ≤ d)
    (pos : 0 < d) (fits : d ≤ int32Max) :
    Yields (coveringMask d.toNat) fun mask => Word.or x y ≤ (mask : Int) := by
  have top : int32Max ≤ 4294967295 := by decide
  refine ⟨_, coveringMask_eq (by omega) (by omega), ?_⟩
  have covered : d.toNat < 2 ^ (d.toNat.log2 + 1) := Nat.lt_log2_self
  have below : x.toNat ||| y.toNat < pow2 (d.toNat.log2 + 1) :=
    Nat.or_lt_two_pow (by omega) (by omega)
  rw [Word.or_of_nonneg hx hy (left.trans fits) (right.trans fits)]
  omega

/-- Disjunctions are members. -/
theorem or_contains (n : r.Normal) (m : s.Normal) (ha : r.contains a = true)
    (hb : s.contains b = true) :
    Yields (r.or s) fun t => t.contains (.ofInt (Word.or a.toInt32 b.toInt32)) = true := by
  refine (asInt32_reads n ha).bind fun r' left => (asInt32_reads m hb).bind fun s' right => ?_
  generalize a.toInt32 = x at left
  generalize b.toInt32 = y at right
  have fits := left.isInt32
  have fits' := right.isInt32
  -- A single point 0 or -1 on either side gives the disjunction exactly.
  split
  · next zero =>
    rw [left.eq_of_point zero, Word.or_zero_left fits']
    exact .ok right.contains
  split
  · next ones =>
    rw [left.eq_of_point ones, Word.or_negOne_left, ← left.eq_of_point ones]
    exact .ok left.contains
  next nonzero mixed =>
  split
  · next zero =>
    rw [right.eq_of_point zero, Word.or_comm, Word.or_zero_left fits]
    exact .ok left.contains
  split
  · next ones =>
    rw [right.eq_of_point ones, Word.or_comm, Word.or_negOne_left, ← right.eq_of_point ones]
    exact .ok right.contains
  next mixed' =>
  have word : IsInt32 (Word.or x y) := isInt32_bitVec _
  split
  · next nonneg =>
    have ordered := left.normal.ordered
    have bound := max_le left.normal.upper_fits right.normal.upper_fits
    have hx := nonneg.1.trans left.lower
    have hy := nonneg.2.trans right.lower
    have first := Word.le_or_of_nonneg hx hy fits.2 fits'.2
    have second := Word.le_or_of_nonneg hy hx fits'.2 fits.2
    rw [Word.or_comm y x] at second
    exact (or_le_coveringMask hx hy (left.upper.trans (le_max_left _ _))
      (right.upper.trans (le_max_right _ _)) (by omega) bound).bind fun mask covers =>
        int32_contains word (max_le (left.lower.trans first) (right.lower.trans second)) covers
  · refine (leadingOnes_le_or left mixed y).bind fun fromLeft above => ?_
    refine (leadingOnes_le_or right mixed' x).bind fun fromRight above' => ?_
    rw [Word.or_comm y x] at above'
    refine int32_contains word (max_le above above') ?_
    split
    · next negative =>
      rcases negative with negative | negative
      · exact (Word.or_bounds_of_neg (left.upper.trans_lt negative) fits.1 y).2
      · rw [Word.or_comm]
        exact (Word.or_bounds_of_neg (right.upper.trans_lt negative) fits'.1 x).2
    · exact word.2

/-- One side of the upper endpoint of an exclusive disjunction: the other operand's endpoint, with ones
in all places that the operand may have. -/
theorem xor_le_lor_mask {u v c d : Int} (hu : 0 ≤ u) (hv : 0 ≤ v) (left : u ≤ c) (right : v ≤ d)
    (fits : c ≤ int32Max) (fits' : d ≤ int32Max) :
    Word.xor u v ≤ (Nat.lor d.toNat (pow2 (c.toNat.log2 + 1) - 1) : Nat) := by
  have covered : c.toNat < 2 ^ (c.toNat.log2 + 1) := Nat.lt_log2_self
  rw [Word.xor_of_nonneg hu hv (left.trans fits) (right.trans fits')]
  exact Int.ofNat_le.mpr (xor_le_or_mask (by omega) (by omega))

/-- The endpoints of an exclusive disjunction enclose it. -/
theorem xorBounds_enclose {u v a b c d : Int} (hu : IsInt32 u) (hv : IsInt32 v) (left : a ≤ u ∧ u ≤ b)
    (right : c ≤ v ∧ v ≤ d) (fits : b ≤ int32Max) (fits' : d ≤ int32Max) :
    Yields (xorBounds a b c d) fun (l, h) => l ≤ Word.xor u v ∧ Word.xor u v ≤ h := by
  have top : int32Max ≤ 4294967295 := by decide
  rw [xorBounds]
  split
  · next zero =>
    obtain rfl : u = 0 := by omega
    rw [Word.xor_zero_left hv]
    exact .ok right
  split
  · next zero =>
    obtain rfl : v = 0 := by omega
    rw [Word.xor_comm, Word.xor_zero_left hu]
    exact .ok left
  split
  · next nonneg =>
    rw [coveringMask_eq (k := b.toNat) (by omega) (by omega),
      coveringMask_eq (k := d.toNat) (by omega) (by omega)]
    have first := xor_le_lor_mask (by omega : 0 ≤ u) (by omega) left.2 right.2 fits fits'
    have second := xor_le_lor_mask (by omega : 0 ≤ v) (by omega) right.2 left.2 fits' fits
    rw [Word.xor_comm v u] at second
    refine .ok ⟨?_, ?_⟩
    · rw [Word.xor_of_nonneg (by omega) (by omega) hu.2 hv.2]
      exact Int.natCast_nonneg _
    · rw [Nat.cast_min]
      exact le_min first second
  · exact .ok (isInt32_bitVec _)

/-- The operand of an exclusive disjunction, complemented when its range is negative throughout. -/
theorem complemented_between (reads : r.Reads x) :
    IsInt32 (if r.hi < 0 then Word.not x else x) ∧
      (if r.hi < 0 then (Word.not r.hi, Word.not r.lo) else (r.lo, r.hi)).1 ≤
          (if r.hi < 0 then Word.not x else x) ∧
        (if r.hi < 0 then Word.not x else x) ≤
          (if r.hi < 0 then (Word.not r.hi, Word.not r.lo) else (r.lo, r.hi)).2 := by
  have fits := reads.isInt32
  obtain ⟨-, lower, upper⟩ := reads
  split
  · unfold IsInt32 int32Min int32Max at *
    unfold Word.not
    refine ⟨by omega, by dsimp only; omega, by dsimp only; omega⟩
  · exact ⟨fits, lower, upper⟩

/-- The complement of exactly one operand complements an exclusive disjunction. -/
theorem xor_complemented (p q : Prop) [Decidable p] [Decidable q] (x y : Int) :
    Word.xor (if p then Word.not x else x) (if q then Word.not y else y) =
      if decide p != decide q then Word.not (Word.xor x y) else Word.xor x y := by
  have twice : ∀ z, Word.not (Word.not z) = z := by
    intro z
    unfold Word.not
    omega
  by_cases hp : p <;> by_cases hq : q
  · simp [hp, hq, Word.xor_not_left, Word.xor_not_right, twice]
  · simp [hp, hq, Word.xor_not_left]
  · simp [hp, hq, Word.xor_not_right]
  · simp [hp, hq]

/-- Exclusive ones are members. -/
theorem xor_contains (n : r.Normal) (m : s.Normal) (ha : r.contains a = true)
    (hb : s.contains b = true) :
    Yields (r.xor s) fun t => t.contains (.ofInt (Word.xor a.toInt32 b.toInt32)) = true := by
  refine (asInt32_reads n ha).bind fun r' left => (asInt32_reads m hb).bind fun s' right => ?_
  generalize a.toInt32 = x at *
  generalize b.toInt32 = y at *
  have word : IsInt32 (Word.xor x y) := isInt32_bitVec _
  obtain ⟨fits, between⟩ := complemented_between left
  obtain ⟨fits', between'⟩ := complemented_between right
  have top := (complemented_ordered left.normal.toNormal).2
  have top' := (complemented_ordered right.normal.toNormal).2
  refine (xorBounds_enclose fits fits' between between' top top').bind fun (l, h) enclosed => ?_
  rw [xor_complemented] at enclosed
  dsimp only at enclosed ⊢
  split
  · next one =>
    rw [if_pos one] at enclosed
    unfold Word.not at enclosed ⊢
    exact int32_contains word (by omega) (by omega)
  · next both =>
    rw [if_neg both] at enclosed
    exact int32_contains word enclosed.1 enclosed.2

/-- Complements are members. -/
theorem not_contains (n : r.Normal) (ha : r.contains a = true) :
    Yields r.not fun t => t.contains (.ofInt (Word.not a.toInt32)) = true := by
  refine (asInt32_reads n ha).bind fun r' reads => ?_
  have fits := reads.isInt32
  obtain ⟨-, lower, upper⟩ := reads
  unfold Word.not
  refine int32_contains ?_ (by omega) (by omega)
  unfold IsInt32 int32Min int32Max at *
  omega

/-- Bitwise operations on normal ranges return ranges that hold the results on their numbers. The
numbers may be fractions, beyond int32, infinite or NaN: each is read as an int32 first. -/
theorem bitwise_sound (n : r.Normal) (m : s.Normal) (ha : r.contains a = true)
    (hb : s.contains b = true) :
    Yields (r.and s) (fun t => t.contains (.ofInt (Word.and a.toInt32 b.toInt32)) = true) ∧
      Yields (r.or s) (fun t => t.contains (.ofInt (Word.or a.toInt32 b.toInt32)) = true) ∧
      Yields (r.xor s) (fun t => t.contains (.ofInt (Word.xor a.toInt32 b.toInt32)) = true) ∧
      Yields r.not (fun t => t.contains (.ofInt (Word.not a.toInt32)) = true) :=
  ⟨and_contains n m ha hb, or_contains n m ha hb, xor_contains n m ha hb, not_contains n ha⟩

/-- Halves from -9 to -4. -/
def halvesBelowZero : Range := ⟨some (-9), some (-4), true, 3, none, none⟩

/-- Numbers from 3 on, of up to 51 bits. -/
def threeAndBeyond : Range := ⟨some 3, none, true, 50, none, none⟩

/-- A fraction and a large number. -/
theorem fractionBeyondInt32_bitwise :
    halvesBelowZero.Normal ∧ threeAndBeyond.Normal ∧
      halvesBelowZero.contains (.finite (-17 / 2)) = true ∧
      threeAndBeyond.contains (.finite 1099511627788) = true ∧
      Yields (halvesBelowZero.and threeAndBeyond) (fun t => t.contains (.ofInt 8) = true) ∧
      Yields (halvesBelowZero.or threeAndBeyond) (fun t => t.contains (.ofInt (-4)) = true) ∧
      Yields (halvesBelowZero.xor threeAndBeyond) (fun t => t.contains (.ofInt (-12)) = true) ∧
      Yields halvesBelowZero.not (fun t => t.contains (.ofInt 7) = true) := by
  have normal : halvesBelowZero.Normal := by decide
  have normal' : threeAndBeyond.Normal := by decide
  have member : halvesBelowZero.contains (.finite (-17 / 2)) = true := by decide +kernel
  have member' : threeAndBeyond.contains (.finite 1099511627788) = true := by decide +kernel
  have left : (Number.finite (-17 / 2)).toInt32 = -8 := by decide +kernel
  have right : (Number.finite 1099511627788).toInt32 = 12 := by decide +kernel
  have sound := bitwise_sound normal normal' member member'
  rw [left, right] at sound
  exact ⟨normal, normal', member, member', sound⟩

end Range

end Rangefinder
