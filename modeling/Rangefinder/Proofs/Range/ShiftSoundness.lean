import Rangefinder.Proofs.Range.Bitwise
import Rangefinder.Proofs.Range.Membership

/-!
# Shifted words lie in the ranges of shifts

A shift reads both operands as int32 and reduces the count modulo 32. The range of the count is exact
when its endpoints lie between the same multiples of 32, and all counts otherwise. A left shift has
bounds only where both endpoints shift without losing a bit, since then everything between them does. A
right shift moves numbers towards zero from above and towards -1 from below, so the sign of an endpoint
decides whether the least or the greatest count bounds the result. An unsigned shift may give a result
above int32, which leaves the range open above.
-/

namespace Rangefinder

namespace Word

variable {x y : Int} {k l : Nat}

/-- A reduced count is the remainder modulo 32. -/
theorem shiftCount_cast (n : Int) : (Word.shiftCount n : Int) = n % 32 :=
  Int.toNat_of_nonneg (Int.emod_nonneg n (by decide))

/-- Small counts are kept. -/
theorem shiftCount_of_lt (lower : 0 ≤ x) (upper : x < 32) : Word.shiftCount x = x.toNat := by
  rw [Word.shiftCount, Int.emod_eq_of_lt lower upper]

/-- A left shift that loses no bit multiplies. -/
theorem shiftLeft_of_isInt32 (fits : IsInt32 (x * pow2 k)) : Word.shiftLeft x k = x * pow2 k :=
  wrapInt32_of_isInt32 fits

/-- All ones shift highest. -/
theorem shiftRightUnsigned_le (x : Int) (k : Nat) :
    Word.shiftRightUnsigned x k ≤ Word.shiftRightUnsigned (-1) k := by
  refine Nat.div_le_div_right ?_
  unfold wrapUint32
  omega

/-- Results are uint32. -/
theorem shiftRightUnsigned_fits (x : Int) (k : Nat) : Word.shiftRightUnsigned x k ≤ 4294967295 := by
  refine (Nat.div_le_self _ _).trans ?_
  unfold wrapUint32
  omega

/-- Shifting further leaves less. -/
theorem shiftRightUnsigned_further (h : k ≤ l) (x : Int) :
    Word.shiftRightUnsigned x l ≤ Word.shiftRightUnsigned x k :=
  Nat.div_le_div_left (pow2_le_pow2 h) (pow2_pos k)

end Word

namespace Range

variable {r s : Range} {a b : Number} {x : Int} {k : Nat}

/-! ### Shifts by a constant -/

/-- What shifts without loss at both endpoints does so between them. -/
theorem isInt32_of_fitsShift {l h : Int} (lower : l ≤ x) (upper : x ≤ h)
    (fits : fitsShift l k ∧ fitsShift h k) :
    l * pow2 k ≤ x * pow2 k ∧ x * pow2 k ≤ h * pow2 k ∧ IsInt32 (x * pow2 k) := by
  have below : l * pow2 k ≤ x * pow2 k := Int.mul_le_mul_of_nonneg_right lower (Int.natCast_nonneg _)
  have above : x * pow2 k ≤ h * pow2 k := Int.mul_le_mul_of_nonneg_right upper (Int.natCast_nonneg _)
  refine ⟨below, above, ?_⟩
  obtain ⟨first, second⟩ := fits
  have twice : ∀ z : Int, z * (pow2 (k + 1) : Nat) = 2 * (z * pow2 k) := by
    intro z
    rw [pow2_succ, Int.natCast_mul, Int.mul_left_comm]
    rfl
  rw [fitsShift, twice] at first second
  unfold IsInt32 int32Min int32Max at *
  omega

/-- Left shifts by a constant are members. -/
theorem shiftLeftBy_contains (n : r.Normal) (ha : r.contains a = true) (count : Int) :
    Yields (r.shiftLeftBy count) fun t =>
      t.contains (.ofInt (Word.shiftLeft a.toInt32 (Word.shiftCount count))) = true := by
  refine (asInt32_reads n ha).bind fun r' reads => ?_
  dsimp only
  split
  · next fits =>
    obtain ⟨lower, upper, word⟩ := isInt32_of_fitsShift reads.lower reads.upper fits
    rw [Word.shiftLeft_of_isInt32 word]
    exact int32_contains word lower upper
  · have word : IsInt32 (Word.shiftLeft a.toInt32 (Word.shiftCount count)) := wrapInt32_isInt32 _
    exact int32_contains word word.1 word.2

/-- Right shifts by a constant are members. -/
theorem shiftRightBy_contains (n : r.Normal) (ha : r.contains a = true) (count : Int) :
    Yields (r.shiftRightBy count) fun t =>
      t.contains (.ofInt (Word.shiftRight a.toInt32 (Word.shiftCount count))) = true := by
  refine (asInt32_reads n ha).bind fun r' reads => ?_
  exact int32_contains (isInt32_shiftRight reads.isInt32 _) (shiftRight_mono reads.lower _)
    (shiftRight_mono reads.upper _)

/-- Endpoints around the result of an unsigned shift make a range that holds it. -/
theorem uint32_contains_shifted {l h : Nat} (lower : l ≤ Word.shiftRightUnsigned x k)
    (upper : Word.shiftRightUnsigned x k ≤ h) :
    Yields (uint32 l h) fun t => t.contains (.ofInt (Word.shiftRightUnsigned x k)) = true :=
  uint32_contains (Word.shiftRightUnsigned_fits x k) (Int.ofNat_le.mpr lower) (Int.ofNat_le.mpr upper)

/-- Unsigned shifts by a constant are members. -/
theorem shiftRightUnsignedBy_contains (n : r.Normal) (ha : r.contains a = true) (count : Int) :
    Yields (r.shiftRightUnsignedBy count) fun t =>
      t.contains (.ofInt (Word.shiftRightUnsigned a.toInt32 (Word.shiftCount count))) = true := by
  refine (asInt32_reads n ha).bind fun r' reads => ?_
  have lower := reads.lower
  have upper := reads.upper
  have fits := reads.isInt32
  dsimp only
  split
  · next sign =>
    rw [Bool.or_eq_true, isNonNegative, isNegative, Bool.and_eq_true, Bool.and_eq_true,
      decide_eq_true_iff, decide_eq_true_iff] at sign
    have sign := sign.imp And.left And.left
    exact uint32_contains_shifted
      (shiftRightUnsigned_mono lower reads.normal.lower_fits fits.2 (by omega) _)
      (shiftRightUnsigned_mono upper fits.1 reads.normal.upper_fits (by omega) _)
  · exact uint32_contains_shifted (Nat.zero_le _) (Word.shiftRightUnsigned_le _ _)

/-! ### Shifts by a range of counts -/

/-- The range of a shift count holds the reduced count. -/
theorem shiftCount_reads (m : s.Normal) (hb : s.contains b = true) :
    Yields s.shiftCount fun t =>
      t.Reads (Word.shiftCount b.toInt32) ∧ 0 ≤ t.lo ∧ t.hi < 32 := by
  refine (shiftCount_yields m).of_run fun t run ⟨int32, least, most⟩ => ⟨?_, least, most⟩
  obtain ⟨u, wrapped, run⟩ := bind_eq_ok.mp run
  have reads : u.Reads b.toInt32 := (asInt32_reads m hb).of_eq wrapped
  have lower := reads.lower
  have upper := reads.upper
  have reduced := Word.shiftCount_cast b.toInt32
  split at run
  · split at run
    · next same =>
      rw [Int.fdiv_eq_ediv_of_nonneg _ (by decide), Int.fdiv_eq_ediv_of_nonneg _ (by decide)] at same
      obtain ⟨-, rfl⟩ := checked_eq_ok.mp run
      exact ⟨int32, show u.lo % 32 ≤ _ by omega, show _ ≤ u.hi % 32 by omega⟩
    · obtain ⟨-, rfl⟩ := checked_eq_ok.mp run
      exact ⟨int32, show 0 ≤ _ by omega, show _ ≤ 31 by omega⟩
  · obtain rfl := pure_eq_ok.mp run
    exact ⟨int32, by omega, by omega⟩

/-- A count that is known shifts like a constant. -/
theorem shiftCount_of_point {count : Range} (reads : count.Reads k) (most : count.hi < 32)
    (point : count.lo = count.hi) : Word.shiftCount count.lo = k := by
  have lower := reads.lower
  have upper := reads.upper
  rw [Word.shiftCount_of_lt (by omega) (by omega)]
  omega

/-- Left shifts are members. -/
theorem shiftLeft_contains (n : r.Normal) (m : s.Normal) (ha : r.contains a = true)
    (hb : s.contains b = true) :
    Yields (r.shiftLeft s) fun t =>
      t.contains (.ofInt (Word.shiftLeft a.toInt32 (Word.shiftCount b.toInt32))) = true := by
  refine (shiftCount_reads m hb).bind fun count ⟨reads, least, most⟩ => ?_
  split
  · next point =>
    rw [← shiftCount_of_point reads most point]
    exact shiftLeftBy_contains n ha count.lo
  · have word : IsInt32 (Word.shiftLeft a.toInt32 (Word.shiftCount b.toInt32)) := wrapInt32_isInt32 _
    exact int32_contains word word.1 word.2

/-- Right shifts are members. -/
theorem shiftRight_contains (n : r.Normal) (m : s.Normal) (ha : r.contains a = true)
    (hb : s.contains b = true) :
    Yields (r.shiftRight s) fun t =>
      t.contains (.ofInt (Word.shiftRight a.toInt32 (Word.shiftCount b.toInt32))) = true := by
  refine (asInt32_reads n ha).bind fun r' reads => ?_
  refine (shiftCount_reads m hb).bind fun count ⟨counts, least, most⟩ => ?_
  have ordered := counts.normal.ordered
  have fewest : count.lo.toNat ≤ Word.shiftCount b.toInt32 := Int.toNat_le.mpr counts.lower
  have furthest : Word.shiftCount b.toInt32 ≤ count.hi.toNat := (Int.le_toNat (by omega)).mpr counts.upper
  rw [fitShift_eq (by split <;> omega) (by split <;> omega),
    fitShift_eq (by split <;> omega) (by split <;> omega)]
  refine int32_contains (isInt32_shiftRight reads.isInt32 _) ?_ ?_
  · refine le_trans ?_ (shiftRight_mono reads.lower _)
    split
    · next negative => exact (shiftRight_further fewest).2 negative
    · next nonneg => exact (shiftRight_further furthest).1 (not_lt.mp nonneg)
  · refine (shiftRight_mono reads.upper _).trans ?_
    split
    · next nonneg => exact (shiftRight_further fewest).1 nonneg
    · next negative => exact (shiftRight_further furthest).2 (not_le.mp negative)

/-- Unsigned shifts are members. -/
theorem shiftRightUnsigned_contains (n : r.Normal) (m : s.Normal) (ha : r.contains a = true)
    (hb : s.contains b = true) :
    Yields (r.shiftRightUnsigned s) fun t =>
      t.contains (.ofInt (Word.shiftRightUnsigned a.toInt32 (Word.shiftCount b.toInt32))) = true := by
  refine (shiftCount_reads m hb).bind fun count ⟨counts, least, most⟩ => ?_
  split
  · next point =>
    rw [← shiftCount_of_point counts most point]
    exact shiftRightUnsignedBy_contains n ha count.lo
  · refine (asInt32_reads n ha).bind fun r' reads => ?_
    have ordered := counts.normal.ordered
    have fewest : count.lo.toNat ≤ Word.shiftCount b.toInt32 := Int.toNat_le.mpr counts.lower
    rw [fitShift_eq least (by omega)]
    refine uint32_contains_shifted (Nat.zero_le _) ((Word.shiftRightUnsigned_further fewest _).trans ?_)
    split
    · next nonneg =>
      rw [isNonNegative, Bool.and_eq_true, decide_eq_true_iff] at nonneg
      exact shiftRightUnsigned_mono reads.upper reads.isInt32.1 reads.normal.upper_fits
        (.inl (nonneg.1.trans reads.lower)) _
    · exact Word.shiftRightUnsigned_le _ _

/-- Shifts of a normal range return ranges that hold the shifted words: for all counts of a normal
range, and for every constant count. -/
theorem shift_sound (n : r.Normal) (ha : r.contains a = true) :
    (∀ s b, s.Normal → s.contains b = true →
      Yields (r.shiftLeft s) (fun t =>
        t.contains (.ofInt (Word.shiftLeft a.toInt32 (Word.shiftCount b.toInt32))) = true) ∧
      Yields (r.shiftRight s) (fun t =>
        t.contains (.ofInt (Word.shiftRight a.toInt32 (Word.shiftCount b.toInt32))) = true) ∧
      Yields (r.shiftRightUnsigned s) (fun t =>
        t.contains (.ofInt (Word.shiftRightUnsigned a.toInt32 (Word.shiftCount b.toInt32))) = true)) ∧
    ∀ count : Int,
      Yields (r.shiftLeftBy count) (fun t =>
        t.contains (.ofInt (Word.shiftLeft a.toInt32 (Word.shiftCount count))) = true) ∧
      Yields (r.shiftRightBy count) (fun t =>
        t.contains (.ofInt (Word.shiftRight a.toInt32 (Word.shiftCount count))) = true) ∧
      Yields (r.shiftRightUnsignedBy count) (fun t =>
        t.contains (.ofInt (Word.shiftRightUnsigned a.toInt32 (Word.shiftCount count))) = true) :=
  ⟨fun _ _ m hb => ⟨shiftLeft_contains n m ha hb, shiftRight_contains n m ha hb,
      shiftRightUnsigned_contains n m ha hb⟩,
    fun count => ⟨shiftLeftBy_contains n ha count, shiftRightBy_contains n ha count,
      shiftRightUnsignedBy_contains n ha count⟩⟩

/-- Integers of both signs. -/
def aroundZero : Range := ⟨some (-3), some 5, false, 2, none, none⟩

/-- Negative counts between two multiples of 32. -/
def negativeCounts : Range := ⟨some (-40), some (-34), false, 5, none, none⟩

/-- The word -3 is shifted by the count -35, which is 29, and by the constant 33, which is 1. -/
theorem aroundZero_shift :
    aroundZero.Normal ∧ negativeCounts.Normal ∧ aroundZero.contains (.ofInt (-3)) = true ∧
      negativeCounts.contains (.ofInt (-35)) = true ∧
      (Yields (aroundZero.shiftLeft negativeCounts) (fun t => t.contains (.ofInt (-1610612736)) = true) ∧
        Yields (aroundZero.shiftRight negativeCounts) (fun t => t.contains (.ofInt (-1)) = true) ∧
        Yields (aroundZero.shiftRightUnsigned negativeCounts) fun t => t.contains (.ofInt 7) = true) ∧
      Yields (aroundZero.shiftLeftBy 33) (fun t => t.contains (.ofInt (-6)) = true) ∧
      Yields (aroundZero.shiftRightBy 33) (fun t => t.contains (.ofInt (-2)) = true) ∧
      Yields (aroundZero.shiftRightUnsignedBy 33) (fun t => t.contains (.ofInt 2147483646) = true) := by
  have normal : aroundZero.Normal := by decide
  have normal' : negativeCounts.Normal := by decide
  have member : aroundZero.contains (.ofInt (-3)) = true := by decide +kernel
  have member' : negativeCounts.contains (.ofInt (-35)) = true := by decide +kernel
  have left : (Number.ofInt (-3)).toInt32 = -3 := by decide +kernel
  have right : (Number.ofInt (-35)).toInt32 = -35 := by decide +kernel
  obtain ⟨counted, constant⟩ := shift_sound normal member
  have counted := counted negativeCounts (.ofInt (-35)) normal' member'
  have constant := constant 33
  rw [left] at constant counted
  rw [right] at counted
  exact ⟨normal, normal', member, member', counted, constant⟩

end Range

end Rangefinder
