import Rangefinder.Proofs.Number.Words
import Rangefinder.Proofs.Procedure.Integral

/-!
# Int32 arithmetic of the machine

The machine computes with doubles. Operations that give an int32 do so on int32 operands as the
integers do: a result that is not reduced modulo 2^32 is the exact one, since an operation whose
exact result leaves int32 ends the run.
-/

namespace Rangefinder

/-- The number is an int32. -/
def Number.IsWhole (x : Number) : Prop := ∃ n, x = .ofInt n ∧ IsInt32 n

/-- The exact result of an operation on integers, for the operations of which sums are made. -/
def BinaryOp.onIntegers? : BinaryOp → Int → Int → Option Int
  | add, a, b => some (a + b)
  | sub, a, b => some (a - b)
  | mul, a, b => some (a * b)
  | _, _, _ => none

/-- The comparison of two integers. -/
def CompareOp.onInts : CompareOp → Int → Int → Bool
  | lt, a, b => decide (a < b)
  | le, a, b => decide (a ≤ b)
  | gt, a, b => decide (b < a)
  | ge, a, b => decide (b ≤ a)
  | eq, a, b => decide (a = b)
  | ne, a, b => decide (a ≠ b)

/-- Integers are compared. -/
theorem CompareOp.holds_of_toRat? {op : CompareOp} {x y : Number} {a b : Int}
    (hx : x.toRat? = some (a : Rat)) (hy : y.toRat? = some (b : Rat)) :
    op.holds x y = op.onInts a b := by
  cases op <;> simp [holds, onInts, Number.lt_of_toRat? hx hy, Number.lt_of_toRat? hy hx,
    Number.le_of_toRat? hx hy, Number.le_of_toRat? hy hx, Number.equal_of_toRat? hx hy]

namespace Number

/-- Int32 are whole. -/
theorem IsWhole.ofInt {n : Int} (h : IsInt32 n) : (Number.ofInt n).IsWhole := ⟨n, rfl, h⟩

/-- Booleans are whole. -/
theorem isWhole_ofBool (b : Bool) : (ofBool b).IsWhole := by
  rw [ofBool_eq]
  refine .ofInt ?_
  cases b <;> decide

/-- An integer that rounding leaves in int32 is one. -/
theorem ofRat_of_stays {n : Int} (stays : (ofRat (n : Rat)).leavesInt32 = false) :
    ofRat (n : Rat) = ofInt n ∧ IsInt32 n := by
  have small : n.natAbs ≤ 9007199254740992 := by
    by_contra large
    rw [leavesInt32_ofRat (by omega)] at stays
    cases stays
  have same := ofRat_intCast small
  rw [same, leavesInt32_ofInt, decide_eq_false_iff_not, not_not] at stays
  exact ⟨same, stays⟩

/-- A sum of integers that rounding leaves in int32 is exact. -/
theorem toRat?_add_of_stays {x y : Number} {a b : Int} (hx : x.toRat? = some (a : Rat))
    (hy : y.toRat? = some (b : Rat)) (stays : (x.add y).leavesInt32 = false) :
    (x.add y).toRat? = some ((a + b : Int) : Rat) := by
  rcases add_of_toRat? hx hy with rounded | ⟨zero, same⟩
  · rw [rounded] at stays ⊢
    rw [(ofRat_of_stays stays).1]
    rfl
  · rw [zero, same]
    rfl

end Number

open Number

namespace Machine

variable {v : ValueId} {op : BinaryOp} {a b r : Number} {i j : Int} {flags : ArithFlags}

/-- A bitwise operation on int32 gives an int32. -/
theorem bitwise_isWhole (h : bitwise v op a b flags .int32 = .ok r) : r.IsWhole := by
  have words := isInt32_bitVec
  cases op with
  | bitAnd | bitOr | bitXor =>
    obtain rfl := Except.ok.inj h
    exact .ofInt (words _)
  | shiftLeft =>
    obtain rfl := Except.ok.inj h
    exact .ofInt (wrapInt32_isInt32 _)
  | shiftRight =>
    obtain rfl := Except.ok.inj h
    exact .ofInt (isInt32_shiftRight (isInt32_toInt32 a) _)
  | _ =>
    simp only [bitwise, ne_eq, not_true_eq_false, if_false] at h
    split at h
    · cases h
    · obtain rfl := Except.ok.inj h
      exact .ofInt (wrapInt32_isInt32 _)

/-- An operation that is reduced modulo 2^32 gives an int32. -/
theorem onWords_isWhole : (op.onWords a b).IsWhole := by
  have left := isInt32_toInt32 a
  have right := isInt32_toInt32 b
  refine .ofInt ?_
  cases op with
  | add | sub | mul => exact wrapInt32_isInt32 _
  | div | mod => exact isInt32_toInt32 _
  | _ =>
    unfold IsInt32 at left right ⊢
    dsimp only
    omega

/-- A quotient is computed only where it is an integer. -/
theorem exactInt32_div (hi : IsInt32 i)
    (h : exactInt32 v .div (.ofInt i) (.ofInt j) flags = .ok r) : ∃ n : Int, r = ofRat n := by
  simp only [exactInt32, equal_ofInt, lt_ofInt, decide_eq_true_eq] at h
  split at h
  · cases h
  · next nonzero =>
    split at h
    · cases h
    · next sign =>
      split at h
      · cases h
      · next exact =>
        obtain rfl := Except.ok.inj h
        rw [rem_ofInt nonzero] at exact
        have whole : i.tmod j = 0 := by
          by_contra rest
          rw [if_neg rest, equal_ofInt, decide_eq_false rest] at exact
          exact exact rfl
        by_cases zero : i = 0
        · subst zero
          have positive : 0 < j := by
            simp only [decide_true, Bool.true_and, decide_eq_true_eq] at sign
            omega
          refine ⟨0, ?_⟩
          have : (ofInt 0).div (ofInt j) =
              if (j : Rat) = 0 then
                (if ((0 : Int) : Rat) = 0 then nan
                  else signedInf ((ofInt 0).signBit != (ofInt j).signBit))
              else if ((0 : Int) : Rat) = 0 then signedZero ((ofInt 0).signBit != (ofInt j).signBit)
              else ofRat (((0 : Int) : Rat) / j) := rfl
          rw [this, if_neg (by simpa using nonzero), if_pos (by simp), signBit_ofInt, signBit_ofInt,
            decide_eq_false (Int.lt_irrefl 0), decide_eq_false (by omega), ofRat_intCast (by decide)]
          rfl
        · refine ⟨i.tdiv j, ?_⟩
          rw [div_ofInt hi nonzero zero whole, ofRat_intCast]
          have := Int.natAbs_tdiv_le_natAbs i j
          have := hi.natAbs_le
          omega

/-- A remainder is an integer. -/
theorem exactInt32_mod (hi : IsInt32 i)
    (h : exactInt32 v .mod (.ofInt i) (.ofInt j) flags = .ok r) : ∃ n : Int, r = ofRat n := by
  simp only [exactInt32, equal_ofInt, lt_ofInt, decide_eq_true_eq] at h
  split at h
  · cases h
  · next nonzero =>
    split at h
    · cases h
    · next sign =>
      obtain rfl := Except.ok.inj h
      rw [rem_ofInt nonzero] at sign ⊢
      by_cases whole : i.tmod j = 0
      · rw [if_pos whole] at sign ⊢
        have nonneg : ¬i < 0 := by
          intro neg
          rw [decide_eq_true neg] at sign
          exact sign rfl
        exact ⟨0, by rw [decide_eq_false nonneg, ofRat_intCast (by decide)]; rfl⟩
      · rw [if_neg whole]
        refine ⟨i.tmod j, (ofRat_intCast ?_).symm⟩
        have := hi.natAbs_le
        rw [Int.natAbs_tmod]
        exact (Nat.mod_le _ _).trans (by omega)

/-- Before it is checked, the result of an int32 operation is the integer that it should be. -/
theorem exactInt32_ofInt (hi : IsInt32 i) (hj : IsInt32 j)
    (h : exactInt32 v op (.ofInt i) (.ofInt j) flags = .ok r) :
    ∃ n : Int, r = ofRat n ∧ ∀ e ∈ op.onIntegers? i j, n = e := by
  have left := hi.natAbs_le
  have right := hj.natAbs_le
  cases op with
  | add =>
    obtain rfl := Except.ok.inj h
    exact ⟨i + j, by rw [add_ofInt (by omega), ofRat_intCast (by omega)], by simp [BinaryOp.onIntegers?]⟩
  | sub =>
    obtain rfl := Except.ok.inj h
    exact ⟨i - j, by rw [sub_ofInt (by omega), ofRat_intCast (by omega)], by simp [BinaryOp.onIntegers?]⟩
  | mul =>
    simp only [exactInt32, toInt64_ofInt hi, toInt64_ofInt hj] at h
    split at h
    · cases h
    · split at h
      · cases h
      · obtain rfl := Except.ok.inj h
        exact ⟨i * j, rfl, by simp [BinaryOp.onIntegers?]⟩
  | div =>
    obtain ⟨n, rfl⟩ := exactInt32_div hi h
    exact ⟨n, rfl, by simp [BinaryOp.onIntegers?]⟩
  | mod =>
    obtain ⟨n, rfl⟩ := exactInt32_mod hi h
    exact ⟨n, rfl, by simp [BinaryOp.onIntegers?]⟩
  | minimum =>
    obtain rfl := Except.ok.inj h
    exact ⟨min i j, by rw [minimum_ofInt, ofRat_intCast (by omega)], by simp [BinaryOp.onIntegers?]⟩
  | _ =>
    obtain rfl := Except.ok.inj h
    exact ⟨max i j, by rw [maximum_ofInt, ofRat_intCast (by omega)], by simp [BinaryOp.onIntegers?]⟩

/-- A checked int32 operation gives an int32, and the exact result. -/
theorem checkedInt32_ofInt (hi : IsInt32 i) (hj : IsInt32 j)
    (h : checkedInt32 v op (.ofInt i) (.ofInt j) flags = .ok r) :
    ∃ n, r = ofInt n ∧ IsInt32 n ∧ ∀ e ∈ op.onIntegers? i j, n = e := by
  rw [checkedInt32, isIntegral_ofInt, isIntegral_ofInt, Bool.and_self, if_pos rfl, bind_eq_ok] at h
  obtain ⟨exact, computed, h⟩ := h
  obtain ⟨n, rfl, agrees⟩ := exactInt32_ofInt hi hj computed
  split at h
  · split at h <;> cases h
  · next stays =>
    obtain rfl := pure_eq_ok.mp h
    obtain ⟨same, fits⟩ := ofRat_of_stays (by simpa using stays)
    exact ⟨n, same, fits, agrees⟩

/-- An int32 sum or difference that is not reduced modulo 2^32 is the exact one of two integers. -/
theorem binary_sum (sum : op = .add ∨ op = .sub) (checked : flags.wrapping = false)
    (h : binary v op a b flags .int32 = .ok r) :
    ∃ i j e : Int, a.toRat? = some (i : Rat) ∧ b.toRat? = some (j : Rat) ∧
      op.onIntegers? i j = some e ∧ r.toRat? = some (e : Rat) := by
  have arithmetic : op.isBitwise = false := by rcases sum with rfl | rfl <;> rfl
  rw [binary, arithmetic, checked, if_neg (by simp), if_neg (by simp), if_neg (by simp),
    checkedInt32] at h
  split at h
  · next integral =>
    obtain ⟨left, right⟩ := Bool.and_eq_true_iff.mp integral
    obtain ⟨i, hi⟩ := Number.isIntegral_iff.mp left
    obtain ⟨j, hj⟩ := Number.isIntegral_iff.mp right
    obtain ⟨result, computed, h⟩ := bind_eq_ok.mp h
    split at h
    · split at h <;> cases h
    · next stays =>
      obtain rfl := pure_eq_ok.mp h
      rw [Bool.not_eq_true] at stays
      rcases sum with rfl | rfl
      · obtain rfl := Except.ok.inj computed
        exact ⟨i, j, i + j, hi, hj, rfl, Number.toRat?_add_of_stays hi hj stays⟩
      · obtain rfl := Except.ok.inj computed
        have negated := Int.cast_neg (R := Rat) j ▸ Number.toRat?_neg hj
        exact ⟨i, j, i - j, hi, hj, rfl, Number.toRat?_add_of_stays hi negated stays⟩
  · cases h

/-- A binary operation on int32 gives an int32. -/
theorem binary_isWhole (ha : a.IsWhole) (hb : b.IsWhole)
    (h : binary v op a b flags .int32 = .ok r) : r.IsWhole := by
  obtain ⟨i, rfl, hi⟩ := ha
  obtain ⟨j, rfl, hj⟩ := hb
  rw [binary] at h
  split at h
  · exact bitwise_isWhole h
  · rw [if_neg (by simp)] at h
    split at h
    · obtain rfl := Except.ok.inj h
      exact onWords_isWhole
    · obtain ⟨n, rfl, fits, -⟩ := checkedInt32_ofInt hi hj h
      exact .ofInt fits

/-- A sum, difference or product on int32 that is not reduced modulo 2^32 is exact. -/
theorem binary_exact {e : Int} (hi : IsInt32 i) (hj : IsInt32 j)
    (sum : op.onIntegers? i j = some e) (checked : flags.wrapping = false)
    (h : binary v op (.ofInt i) (.ofInt j) flags .int32 = .ok r) : r = ofInt e := by
  have arithmetic : op.isBitwise = false := by
    cases op with
    | add | sub | mul => rfl
    | _ => cases sum
  rw [binary, arithmetic, checked, if_neg (by simp), if_neg (by simp), if_neg (by simp)] at h
  obtain ⟨n, rfl, -, agrees⟩ := checkedInt32_ofInt hi hj h
  rw [agrees e sum]

/-- The unary operations on int32 give an int32. -/
theorem unary_isWhole {op : UnaryOp} (int32 : op.isInt32 = true) (ha : a.IsWhole)
    (h : unary v op a .int32 = .ok r) : r.IsWhole := by
  obtain ⟨i, rfl, hi⟩ := ha
  have stays : ∀ {n : Int}, op.apply (.ofInt i) = ofInt n → r.IsWhole := by
    intro n same
    rw [unary, same] at h
    simp only [isIntegral_ofInt, leavesInt32_ofInt, Bool.not_true, Bool.false_or, decide_eq_true_eq,
      true_and] at h
    split at h
    · cases h
    · next fits =>
      obtain rfl := Except.ok.inj h
      exact .ofInt (not_not.mp fits)
  cases op with
  | bitNot | toInt32 => exact stays rfl
  | abs => exact stays abs_ofInt
  | _ => cases int32

end Machine

end Rangefinder
