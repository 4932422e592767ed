import Rangefinder.Proofs.Number.Integers

/-!
# Words as integers

Bitwise operations act on 32-bit words, and ranges bound the int32 values that the words stand for. On
int32 values without a sign the operations are those on natural numbers. Complement turns negative values
into such values, and it exchanges conjunction and disjunction and passes through exclusive disjunction;
so the bounds for all signs follow from the bounds for natural numbers.
-/

namespace Rangefinder

/-- Words are int32 numbers. -/
theorem isInt32_bitVec (w : BitVec 32) : IsInt32 w.toInt := by
  have lower := w.le_toInt
  have upper := w.toInt_lt
  unfold IsInt32 int32Min int32Max
  omega

/-- Conversions give int32 numbers. -/
theorem Number.isInt32_toInt32 (x : Number) : IsInt32 x.toInt32 := by
  cases finite : x.toRat? with
  | none =>
    rw [toInt32_of_nonFinite finite]
    decide
  | some value =>
    rw [toInt32_of_toRat? finite]
    exact wrapInt32_isInt32 _

/-- Right shifts give int32 numbers. -/
theorem isInt32_shiftRight {x : Int} (h : IsInt32 x) (s : Nat) : IsInt32 (Word.shiftRight x s) := by
  have pos : 0 < pow2 s := pow2_pos s
  unfold IsInt32 int32Min int32Max at h ⊢
  rw [Word.shiftRight, Int.fdiv_eq_ediv_of_nonneg _ (by omega)]
  constructor
  · exact Int.le_ediv_of_mul_le (by omega) (by nlinarith)
  · exact Int.ediv_le_of_le_mul (by omega) (by nlinarith)

/-- Ones in the low places of one operand cover what an exclusive disjunction changes there. -/
theorem xor_le_or_mask {m n d k : Nat} (low : m < 2 ^ k) (le : n ≤ d) :
    m ^^^ n ≤ d ||| (2 ^ k - 1) := by
  have pos : 0 < 2 ^ k := Nat.two_pow_pos k
  have high : (m ^^^ n) / 2 ^ k = n / 2 ^ k := by
    rw [Nat.xor_div_two_pow, Nat.div_eq_of_lt low, Nat.zero_xor]
  have high' : (d ||| (2 ^ k - 1)) / 2 ^ k = d / 2 ^ k := by
    rw [Nat.or_div_two_pow, Nat.div_eq_of_lt (by omega : 2 ^ k - 1 < 2 ^ k), Nat.or_zero]
  have low' : (d ||| (2 ^ k - 1)) % 2 ^ k = 2 ^ k - 1 := by
    have below : (d ||| (2 ^ k - 1)) % 2 ^ k < 2 ^ k := Nat.mod_lt _ pos
    have above : 2 ^ k - 1 ≤ (d ||| (2 ^ k - 1)) % 2 ^ k := by
      rw [Nat.or_mod_two_pow, Nat.mod_eq_of_lt (by omega : 2 ^ k - 1 < 2 ^ k)]
      exact Nat.right_le_or
    omega
  have whole := Nat.div_add_mod (d ||| (2 ^ k - 1)) (2 ^ k)
  rw [high', low'] at whole
  calc m ^^^ n = 2 ^ k * (n / 2 ^ k) + (m ^^^ n) % 2 ^ k := by rw [← high, Nat.div_add_mod]
    _ ≤ 2 ^ k * (d / 2 ^ k) + (2 ^ k - 1) :=
        Nat.add_le_add (Nat.mul_le_mul_left _ (Nat.div_le_div_right le))
          (Nat.le_sub_one_of_lt (Nat.mod_lt _ pos))
    _ = d ||| (2 ^ k - 1) := whole

namespace Word

variable {x y : Int}

/-! ### Complement -/

/-- Complements of negatives are natural. -/
theorem not_nonneg (negative : x < 0) : 0 ≤ Word.not x := by
  unfold Word.not
  omega

/-- Complements stay in int32. -/
theorem not_le_int32Max (fits : int32Min ≤ x) : Word.not x ≤ int32Max := by
  unfold int32Min at fits
  unfold Word.not int32Max
  omega

/-- The complement as a word. -/
theorem ofInt_not (x : Int) : BitVec.ofInt 32 (Word.not x) = ~~~BitVec.ofInt 32 x := by
  rw [Word.not, Int.sub_eq_add_neg, Int.add_comm, BitVec.ofInt_add, BitVec.ofInt_neg,
    BitVec.not_eq_neg_add, BitVec.sub_eq_add_neg]
  rfl

/-- A complemented word. -/
theorem toInt_not (w : BitVec 32) : (~~~w).toInt = Word.not w.toInt := by
  have fits := isInt32_bitVec w
  have complement : ~~~w = BitVec.ofInt 32 (Word.not w.toInt) := by rw [ofInt_not, BitVec.ofInt_toInt]
  rw [complement, BitVec.toInt_ofInt]
  refine wrapInt32_of_isInt32 (n := Word.not w.toInt) ?_
  unfold IsInt32 int32Min int32Max at fits ⊢
  unfold Word.not
  omega

/-- The complement of a disjunction is the conjunction of the complements. -/
theorem and_not_not (x y : Int) : Word.and (Word.not x) (Word.not y) = Word.not (Word.or x y) := by
  rw [Word.and, Word.or, ofInt_not, ofInt_not, ← BitVec.not_or, toInt_not]

/-- De Morgan's law. -/
theorem or_not_not (x y : Int) : Word.or (Word.not x) (Word.not y) = Word.not (Word.and x y) := by
  rw [Word.and, Word.or, ofInt_not, ofInt_not, ← BitVec.not_and, toInt_not]

/-- Exclusive disjunction complements its result with either operand. -/
theorem xor_not_left (x y : Int) : Word.xor (Word.not x) y = Word.not (Word.xor x y) := by
  rw [Word.xor, Word.xor, ofInt_not, ← toInt_not, BitVec.not_xor_left]

/-- A complement can be taken after the exclusive disjunction. -/
theorem xor_not_right (x y : Int) : Word.xor x (Word.not y) = Word.not (Word.xor x y) := by
  rw [Word.xor, Word.xor, ofInt_not, ← toInt_not, BitVec.not_xor_right]

/-- Conjunction commutes. -/
theorem and_comm (x y : Int) : Word.and x y = Word.and y x := by rw [Word.and, BitVec.and_comm, Word.and]

/-- Disjunction commutes. -/
theorem or_comm (x y : Int) : Word.or x y = Word.or y x := by rw [Word.or, BitVec.or_comm, Word.or]

/-- So does the exclusive one. -/
theorem xor_comm (x y : Int) : Word.xor x y = Word.xor y x := by
  rw [Word.xor, BitVec.xor_comm, Word.xor]

/-! ### Neutral and absorbing operands -/

/-- An int32 fits a word. -/
theorem toInt_ofInt (fits : IsInt32 x) : (BitVec.ofInt 32 x).toInt = x :=
  (BitVec.toInt_ofInt x).trans (wrapInt32_of_isInt32 fits)

/-- Zero is neutral for disjunction. -/
theorem or_zero_left (fits : IsInt32 y) : Word.or 0 y = y := by
  rw [Word.or, show BitVec.ofInt 32 0 = 0#32 from rfl, BitVec.zero_or, toInt_ofInt fits]

/-- All ones absorb a disjunction. -/
theorem or_negOne_left (y : Int) : Word.or (-1) y = -1 := by
  rw [Word.or, show BitVec.ofInt 32 (-1) = BitVec.allOnes 32 from rfl, BitVec.allOnes_or]
  rfl

/-- Zero is neutral for exclusive disjunction. -/
theorem xor_zero_left (fits : IsInt32 y) : Word.xor 0 y = y := by
  rw [Word.xor, show BitVec.ofInt 32 0 = 0#32 from rfl, BitVec.zero_xor, toInt_ofInt fits]

/-- All ones are neutral for conjunction. -/
theorem and_negOne_left (fits : IsInt32 y) : Word.and (-1) y = y := by
  rw [Word.and, show BitVec.ofInt 32 (-1) = BitVec.allOnes 32 from rfl, BitVec.allOnes_and, toInt_ofInt fits]

/-- Conjunction is idempotent. -/
theorem and_self (fits : IsInt32 x) : Word.and x x = x := by rw [Word.and, BitVec.and_self, toInt_ofInt fits]

/-- Disjunction is idempotent. -/
theorem or_self (fits : IsInt32 x) : Word.or x x = x := by rw [Word.or, BitVec.or_self, toInt_ofInt fits]

/-- A left shift by no places changes nothing. -/
theorem shiftLeft_zero (fits : IsInt32 x) : shiftLeft x 0 = x := by
  rw [shiftLeft, show (pow2 0 : Int) = 1 from rfl, Int.mul_one, wrapInt32_of_isInt32 fits]

/-- A right shift by no places changes nothing. -/
theorem shiftRight_zero (x : Int) : shiftRight x 0 = x := by
  rw [shiftRight, show (pow2 0 : Int) = 1 from rfl, Int.fdiv_one]

/-! ### Values without a sign -/

/-- So does a natural. -/
theorem toNat_ofInt_of_nonneg (nonneg : 0 ≤ x) (fits : x ≤ int32Max) :
    (BitVec.ofInt 32 x).toNat = x.toNat := by
  unfold int32Max at fits
  rw [BitVec.toNat_ofInt, Int.emod_eq_of_lt nonneg (by omega)]

/-- Small words have no sign. -/
theorem toInt_of_toNat_lt {w : BitVec 32} (small : w.toNat < 2 ^ 31) : w.toInt = w.toNat :=
  BitVec.toInt_eq_toNat_of_lt (by omega)

/-- Int32 bounds are small. -/
theorem toNat_lt_of_le_int32Max (fits : x ≤ int32Max) : x.toNat < 2 ^ 31 := by
  unfold int32Max at fits
  omega

/-- Disjunction of naturals. -/
theorem or_of_nonneg (hx : 0 ≤ x) (hy : 0 ≤ y) (fits : x ≤ int32Max) (fits' : y ≤ int32Max) :
    Word.or x y = (x.toNat ||| y.toNat : Nat) := by
  have value : (BitVec.ofInt 32 x ||| BitVec.ofInt 32 y).toNat = x.toNat ||| y.toNat := by
    rw [BitVec.toNat_or, toNat_ofInt_of_nonneg hx fits, toNat_ofInt_of_nonneg hy fits']
  rw [Word.or, toInt_of_toNat_lt, value]
  rw [value]
  exact Nat.or_lt_two_pow (toNat_lt_of_le_int32Max fits) (toNat_lt_of_le_int32Max fits')

/-- Exclusive disjunction of naturals. -/
theorem xor_of_nonneg (hx : 0 ≤ x) (hy : 0 ≤ y) (fits : x ≤ int32Max) (fits' : y ≤ int32Max) :
    Word.xor x y = (x.toNat ^^^ y.toNat : Nat) := by
  have value : (BitVec.ofInt 32 x ^^^ BitVec.ofInt 32 y).toNat = x.toNat ^^^ y.toNat := by
    rw [BitVec.toNat_xor, toNat_ofInt_of_nonneg hx fits, toNat_ofInt_of_nonneg hy fits']
  rw [Word.xor, toInt_of_toNat_lt, value]
  rw [value]
  exact Nat.xor_lt_two_pow (toNat_lt_of_le_int32Max fits) (toNat_lt_of_le_int32Max fits')

/-! ### Bounds -/

/-- A conjunction has no bit that an operand without a sign does not have. -/
theorem and_bounds_of_nonneg (hx : 0 ≤ x) (fits : x ≤ int32Max) (y : Int) :
    0 ≤ Word.and x y ∧ Word.and x y ≤ x := by
  have within : (BitVec.ofInt 32 x &&& BitVec.ofInt 32 y).toNat ≤ x.toNat := by
    rw [BitVec.toNat_and, toNat_ofInt_of_nonneg hx fits]
    exact Nat.and_le_left
  rw [Word.and, toInt_of_toNat_lt (within.trans_lt (toNat_lt_of_le_int32Max fits))]
  omega

/-- A disjunction with a negative operand is negative and no less than the operand. -/
theorem or_bounds_of_neg (hx : x < 0) (fits : int32Min ≤ x) (y : Int) :
    x ≤ Word.or x y ∧ Word.or x y ≤ -1 := by
  have complement := and_bounds_of_nonneg (not_nonneg hx) (not_le_int32Max fits) (Word.not y)
  rw [and_not_not] at complement
  unfold Word.not at complement
  omega

/-- Disjunction does not decrease. -/
theorem le_or_of_nonneg (hx : 0 ≤ x) (hy : 0 ≤ y) (fits : x ≤ int32Max) (fits' : y ≤ int32Max) :
    x ≤ Word.or x y := by
  have within : x.toNat ≤ x.toNat ||| y.toNat := Nat.left_le_or
  rw [or_of_nonneg hx hy fits fits']
  omega

/-- A conjunction of negative operands is no greater than either of them. -/
theorem and_le_of_neg (hx : x < 0) (hy : y < 0) (fits : int32Min ≤ x) (fits' : int32Min ≤ y) :
    Word.and x y ≤ x := by
  have complement := le_or_of_nonneg (not_nonneg hx) (not_nonneg hy) (not_le_int32Max fits)
    (not_le_int32Max fits')
  rw [or_not_not] at complement
  unfold Word.not at complement
  omega

end Word

end Rangefinder
