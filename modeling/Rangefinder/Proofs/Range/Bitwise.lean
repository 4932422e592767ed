import Rangefinder.Proofs.Range.Lattice

/-!
# Bitwise operations on normal ranges

The operands are reduced to int32, so every result of a bitwise operation is covered by the exponent
of int32 and only its endpoints have to be in order. The masks exist because the exact cases, where
an operand is the single point 0 or -1, have been told apart before a mask is asked for.
-/

namespace Rangefinder.Range

variable {r s : Range} {x : Int}

/-- The mask that covers a positive number of 32 bits has ones in all places up to its highest one. -/
theorem coveringMask_eq {k : Nat} (pos : 0 < k) (fits : k ≤ 4294967295) :
    coveringMask k = .ok (pow2 (k.log2 + 1) - 1) := by
  have small : k.log2 ≤ 31 := log2_le_iff.mpr (fits.trans_lt (by decide))
  rw [coveringMask, if_neg (by omega), fitShift, if_pos (by omega)]
  rfl

/-- The mask that covers a positive number of 32 bits exists and is no less than the number. -/
theorem coveringMask_yields {k : Nat} (pos : 0 < k) (fits : k ≤ 4294967295) :
    Yields (coveringMask k) fun mask => k ≤ mask := by
  have covered : k < pow2 (k.log2 + 1) := log2_le_iff.mp le_rfl
  exact ⟨_, coveringMask_eq pos fits, by omega⟩

/-- The leading ones of negative int32 values that are not all -1 make a negative int32. -/
theorem leadingOnes_yields (lower : int32Min ≤ x) (upper : x < -1) :
    Yields (leadingOnes x) fun l => l ≤ -1 := by
  unfold int32Min at lower
  refine (coveringMask_yields (k := (Word.not x).toNat) ?_ ?_).bind fun mask _ => .ok ?_
  · unfold Word.not
    omega
  · unfold Word.not
    omega
  · unfold Word.not
    omega

/-- Conjunctions are normal. -/
theorem and_yields (n : r.Normal) (m : s.Normal) : Yields (r.and s) Normal := by
  refine (asInt32_yields n).bind fun r' left => (asInt32_yields m).bind fun s' right => ?_
  have ordered := left.ordered
  have ordered' := right.ordered
  split
  · exact int32_yields (left.isInt32_hi.1.trans (le_max_left _ _))
  · next signs =>
    refine int32_yields ?_
    split
    · omega
    · split
      · omega
      · omega

/-- Disjunctions are normal. -/
theorem or_yields (n : r.Normal) (m : s.Normal) : Yields (r.or s) Normal := by
  refine (asInt32_yields n).bind fun r' left => (asInt32_yields m).bind fun s' right => ?_
  have ordered := left.ordered
  have ordered' := right.ordered
  have limits : int32Min ≤ -1 := by decide
  have top : int32Max ≤ 4294967295 := by decide
  have fits := left.upper_fits
  have fits' := right.upper_fits
  split
  · exact .ok right.toNormal
  next nonzero =>
  split
  · exact .ok left.toNormal
  next mixed =>
  split
  · exact .ok left.toNormal
  split
  · exact .ok right.toNormal
  next mixed' =>
  split
  · next nonneg =>
    refine (coveringMask_yields (k := (max r'.hi s'.hi).toNat) (by omega) (by omega)).bind
      fun mask covers => int32_yields (by omega)
  · -- an operand that is negative throughout is not the single point -1
    have ones : ∀ t : Range, t.Normal → ¬(t.lo = t.hi ∧ t.lo = -1) →
        Yields (if t.hi < 0 then leadingOnes t.lo else pure int32Min) fun l => l ≤ -1 := by
      intro t normal other
      have := normal.ordered
      split
      · exact leadingOnes_yields normal.lower_fits (by omega)
      · exact .ok limits
    refine (ones r' left.toNormal mixed).bind fun fromLeft negative => ?_
    refine (ones s' right.toNormal mixed').bind fun fromRight negative' => int32_yields ?_
    split
    · exact max_le negative negative'
    · exact (max_le negative negative').trans (by decide)

/-- The endpoints of an exclusive disjunction of int32 values are in order. -/
theorem xorBounds_yields {a b c d : Int} (left : a ≤ b) (right : c ≤ d) (fits : b ≤ int32Max)
    (fits' : d ≤ int32Max) : Yields (xorBounds a b c d) fun (l, h) => l ≤ h := by
  unfold int32Max at fits fits'
  rw [xorBounds]
  split
  · exact .ok right
  · split
    · exact .ok left
    · split
      · refine (coveringMask_yields (k := b.toNat) (by omega) (by omega)).bind fun _ _ => ?_
        refine (coveringMask_yields (k := d.toNat) (by omega) (by omega)).bind fun _ _ => ?_
        exact .ok (Int.natCast_nonneg _)
      · exact .ok (by decide)

/-- Complementing the endpoints of a negative range gives endpoints in order. -/
theorem complemented_ordered (n : r.Normal) :
    (if r.hi < 0 then (Word.not r.hi, Word.not r.lo) else (r.lo, r.hi)).1 ≤
        (if r.hi < 0 then (Word.not r.hi, Word.not r.lo) else (r.lo, r.hi)).2 ∧
      (if r.hi < 0 then (Word.not r.hi, Word.not r.lo) else (r.lo, r.hi)).2 ≤ int32Max := by
  have ordered := n.ordered
  have lower := n.lower_fits
  unfold Word.not
  split
  · unfold int32Min at lower
    unfold int32Max
    exact ⟨by dsimp only; omega, by dsimp only; omega⟩
  · exact ⟨ordered, n.upper_fits⟩

/-- Exclusive disjunctions are normal. -/
theorem xor_yields (n : r.Normal) (m : s.Normal) : Yields (r.xor s) Normal := by
  refine (asInt32_yields n).bind fun r' left => (asInt32_yields m).bind fun s' right => ?_
  obtain ⟨ordered, fits⟩ := complemented_ordered left.toNormal
  obtain ⟨ordered', fits'⟩ := complemented_ordered right.toNormal
  refine (xorBounds_yields ordered ordered' fits fits').bind fun (l, h) order => ?_
  have order : l ≤ h := order
  dsimp only
  split
  · exact int32_yields (by unfold Word.not; omega)
  · exact int32_yields order

/-- Complements are normal. -/
theorem not_yields (n : r.Normal) : Yields r.not Normal := by
  refine (asInt32_yields n).bind fun t int32 => int32_yields ?_
  have ordered := int32.ordered
  unfold Word.not
  omega

/-- Left shifts by a constant are normal. -/
theorem shiftLeftBy_yields (n : r.Normal) (count : Int) : Yields (r.shiftLeftBy count) Normal := by
  refine (asInt32_yields n).bind fun t int32 => ?_
  dsimp only
  split
  · exact int32_yields (Int.mul_le_mul_of_nonneg_right int32.ordered (Int.natCast_nonneg _))
  · exact int32_yields (by decide)

/-- Shifting right keeps the order of numbers. -/
theorem shiftRight_mono {x y : Int} (h : x ≤ y) (k : Nat) :
    Word.shiftRight x k ≤ Word.shiftRight y k := by
  rw [Word.shiftRight, Word.shiftRight, Int.fdiv_eq_ediv_of_nonneg _ (Int.natCast_nonneg _),
    Int.fdiv_eq_ediv_of_nonneg _ (Int.natCast_nonneg _)]
  exact Int.ediv_le_ediv (Int.natCast_pos.mpr (pow2_pos k)) h

/-- Shifting a number further right moves it towards zero from above, towards -1 from below. -/
theorem shiftRight_further {k l : Nat} (h : k ≤ l) :
    (0 ≤ x → Word.shiftRight x l ≤ Word.shiftRight x k) ∧
      (x < 0 → Word.shiftRight x k ≤ Word.shiftRight x l) := by
  obtain ⟨j, rfl⟩ := Nat.exists_eq_add_of_le h
  have twice : Word.shiftRight x (k + j) = Word.shiftRight x k / (pow2 j : Int) := by
    rw [Word.shiftRight, Word.shiftRight, Int.fdiv_eq_ediv_of_nonneg _ (Int.natCast_nonneg _),
      Int.fdiv_eq_ediv_of_nonneg _ (Int.natCast_nonneg _),
      Int.ediv_ediv_of_nonneg (Int.natCast_nonneg _)]
    rw [pow2_eq, pow2_eq, pow2_eq, pow_add, Int.natCast_mul]
  have pos : 0 < (pow2 j : Int) := Int.natCast_pos.mpr (pow2_pos j)
  rw [twice]
  constructor
  · intro nonneg
    have : 0 ≤ Word.shiftRight x k := Int.fdiv_nonneg nonneg (Int.natCast_nonneg _)
    exact Int.ediv_le_self _ this
  · intro negative
    have : Word.shiftRight x k < 0 := Int.fdiv_neg_of_neg_of_pos negative
      (Int.natCast_pos.mpr (pow2_pos k))
    exact Int.le_ediv_of_mul_le pos (by nlinarith)

/-- Right shifts by one are normal. -/
theorem shiftRightBy_yields (n : r.Normal) (count : Int) :
    Yields (r.shiftRightBy count) Normal :=
  (asInt32_yields n).bind fun _ int32 => int32_yields (shiftRight_mono int32.ordered _)

/-- Numbers of one sign keep their order as uint32 values shifted right. -/
theorem shiftRightUnsigned_mono {x y : Int} (h : x ≤ y) (lower : int32Min ≤ x) (upper : y ≤ int32Max)
    (sign : 0 ≤ x ∨ y < 0) (k : Nat) :
    Word.shiftRightUnsigned x k ≤ Word.shiftRightUnsigned y k := by
  refine Nat.div_le_div_right ?_
  unfold int32Min at lower
  unfold int32Max at upper
  unfold wrapUint32
  omega

/-- So are unsigned ones. -/
theorem shiftRightUnsignedBy_yields (n : r.Normal) (count : Int) :
    Yields (r.shiftRightUnsignedBy count) Normal := by
  refine (asInt32_yields n).bind fun t int32 => ?_
  dsimp only
  split
  · next sign =>
    refine uint32_yields (Int.ofNat_le.mpr (shiftRightUnsigned_mono int32.ordered int32.lower_fits
      int32.upper_fits ?_ _))
    rw [Bool.or_eq_true, isNonNegative, isNegative, Bool.and_eq_true, Bool.and_eq_true,
      decide_eq_true_iff, decide_eq_true_iff] at sign
    exact sign.imp And.left And.left
  · exact uint32_yields (Int.natCast_nonneg _)

/-- Counts are below 32. -/
theorem shiftCount_yields (n : r.Normal) :
    Yields r.shiftCount fun t => t.NormalInt32 ∧ 0 ≤ t.lo ∧ t.hi < 32 :=
  wrapToShiftCount_yields n.numeric

/-- Left shifts are normal. -/
theorem shiftLeft_yields (n : r.Normal) (m : s.Normal) : Yields (r.shiftLeft s) Normal := by
  refine (shiftCount_yields m).bind fun count _ => ?_
  split
  · exact shiftLeftBy_yields n _
  · exact int32_yields (by decide)

/-- Counts below 32 fit. -/
theorem fitShift_eq (lower : 0 ≤ x) (upper : x < 32) : fitShift x = .ok x.toNat :=
  if_pos ⟨lower, upper⟩

/-- Right shifts are normal. -/
theorem shiftRight_yields (n : r.Normal) (m : s.Normal) : Yields (r.shiftRight s) Normal := by
  refine (asInt32_yields n).bind fun t int32 => ?_
  refine (shiftCount_yields m).bind fun count ⟨counts, least, most⟩ => ?_
  have ordered := counts.ordered
  have further : count.lo.toNat ≤ count.hi.toNat := by omega
  rw [fitShift_eq (by split <;> omega) (by split <;> omega),
    fitShift_eq (by split <;> omega) (by split <;> omega)]
  refine int32_yields ?_
  split
  · next negative =>
    split
    · exact shiftRight_mono int32.ordered _
    · next negative' =>
      exact (shiftRight_mono int32.ordered _).trans
        ((shiftRight_further further).2 (by omega))
  · next nonneg =>
    have := int32.ordered
    rw [if_pos (by omega)]
    exact ((shiftRight_further further).1 (by omega)).trans (shiftRight_mono int32.ordered _)

/-- Unsigned shifts are normal. -/
theorem shiftRightUnsigned_yields (n : r.Normal) (m : s.Normal) :
    Yields (r.shiftRightUnsigned s) Normal := by
  refine (shiftCount_yields m).bind fun count ⟨counts, least, most⟩ => ?_
  have ordered := counts.ordered
  split
  · exact shiftRightUnsignedBy_yields n _
  · refine (asInt32_yields n).bind fun t int32 => ?_
    rw [fitShift_eq least (by omega)]
    exact uint32_yields (Int.natCast_nonneg _)

end Rangefinder.Range
