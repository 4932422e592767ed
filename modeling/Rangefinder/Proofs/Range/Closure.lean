import Rangefinder.Proofs.Range.Arithmetic
import Rangefinder.Proofs.Range.Bitwise

/-!
# Normal ranges are closed under all operations

Every operation on normal ranges returns a normal range. In particular no check on the way fails:
no rule of ranges is broken, no endpoint that is no bound differs from the limit of int32 on its side,
no intermediate result leaves its word, no word is shifted by its width or more.

The operations build their results along different routes, and some of them skip the tightening of
`normalize`; but for all of them the question is the same, whether the endpoints are in order and
whether the exponent covers them.
-/

namespace Rangefinder.Range

/-- Every operation on ranges succeeds where the property holds of its operands, and the property
holds of its result. Rounding is that of floor and ceiling alike. Raising a lower bound and lowering
an upper one must not cross the opposite endpoint, and only a range open above is extended to the
negative numbers. -/
structure KeptByOperations (holds : Range → Prop) : Prop where
  add : ∀ r s, holds r → holds s → Yields (r.add s) holds
  sub : ∀ r s, holds r → holds s → Yields (r.sub s) holds
  mul : ∀ r s, holds r → holds s → Yields (r.mul s) holds
  div : ∀ r s integral, holds r → holds s → Yields (r.div s integral) holds
  mod : ∀ r s, holds r → holds s → Yields (r.mod s) holds
  and : ∀ r s, holds r → holds s → Yields (r.and s) holds
  or : ∀ r s, holds r → holds s → Yields (r.or s) holds
  xor : ∀ r s, holds r → holds s → Yields (r.xor s) holds
  not : ∀ r, holds r → Yields r.not holds
  shiftLeft : ∀ r s, holds r → holds s → Yields (r.shiftLeft s) holds
  shiftRight : ∀ r s, holds r → holds s → Yields (r.shiftRight s) holds
  shiftRightUnsigned : ∀ r s, holds r → holds s → Yields (r.shiftRightUnsigned s) holds
  shiftLeftBy : ∀ r count, holds r → Yields (r.shiftLeftBy count) holds
  shiftRightBy : ∀ r count, holds r → Yields (r.shiftRightBy count) holds
  shiftRightUnsignedBy : ∀ r count, holds r → Yields (r.shiftRightUnsignedBy count) holds
  abs : ∀ r, holds r → Yields r.abs holds
  minimum : ∀ r s, holds r → holds s → Yields (r.minimum s) holds
  maximum : ∀ r s, holds r → holds s → Yields (r.maximum s) holds
  rounded : ∀ r, holds r → Yields r.rounded holds
  sqrt : ∀ r, holds r → Yields r.sqrt holds
  union : ∀ r s, holds r → holds s → Yields (r.union s) holds
  intersect : ∀ r s, holds r → holds s → Yields (r.intersect s) fun t => ∀ u ∈ t, holds u
  update : ∀ r s, holds r → holds s → Yields (r.update s) fun result => holds result.1
  withNaN : ∀ r, holds r → holds r.withNaN
  clipToInt32 : ∀ r, holds r → Yields r.clipToInt32 holds
  wrapToInt32 : ∀ r, holds r → Yields r.wrapToInt32 holds
  wrapToShiftCount : ∀ r, holds r → Yields r.wrapToShiftCount holds
  wrapToBoolean : ∀ r, holds r → Yields r.wrapToBoolean holds
  atLeast : ∀ r x, holds r → x ≤ r.hi → Yields (r.atLeast x) holds
  atMost : ∀ r x, holds r → r.lo ≤ x → Yields (r.atMost x) holds
  extendToNegative : ∀ r, holds r → r.upper.isSome = false → Yields r.extendToNegative holds

/-- Normal ranges are closed under all operations, and no operation on them meets a fault. -/
theorem normal_keptByOperations : KeptByOperations Normal where
  add _ _ := add_yields
  sub _ _ := sub_yields
  mul _ _ := mul_yields
  div _ _ integral n _ := div_yields n integral
  mod _ _ := mod_yields
  and _ _ := and_yields
  or _ _ := or_yields
  xor _ _ := xor_yields
  not _ := not_yields
  shiftLeft _ _ := shiftLeft_yields
  shiftRight _ _ := shiftRight_yields
  shiftRightUnsigned _ _ := shiftRightUnsigned_yields
  shiftLeftBy _ count n := shiftLeftBy_yields n count
  shiftRightBy _ count n := shiftRightBy_yields n count
  shiftRightUnsignedBy _ count n := shiftRightUnsignedBy_yields n count
  abs _ := abs_yields
  minimum _ _ := minimum_yields
  maximum _ _ := maximum_yields
  rounded _ := rounded_yields
  sqrt _ := sqrt_yields
  union _ _ := union_yields
  intersect _ _ := intersect_yields
  update _ _ := update_yields
  withNaN _ := withNaN_normal
  clipToInt32 _ n := (clipToInt32_yields n).mono fun _ clipped => clipped.1.toNormal
  wrapToInt32 _ n := (wrapToInt32_yields n).mono fun _ int32 => int32.toNormal
  wrapToShiftCount _ n := (wrapToShiftCount_yields n).mono fun _ count => count.1.toNormal
  wrapToBoolean _ n := (wrapToBoolean_yields n).mono fun _ int32 => int32.toNormal
  atLeast _ _ n := atLeast_yields n
  atMost _ _ n := atMost_yields n
  extendToNegative _ n := extendToNegative_yields n

/-- With an operand that is open above, the results that are open above as well are made of the greatest
int32. -/
theorem fromZeroOn_keptByOperations :
    fromZeroOn.Normal ∧ sevenToThree.Normal ∧ Yields (fromZeroOn.union sevenToThree) Normal ∧
      Yields (fromZeroOn.intersect sevenToThree) (fun t => ∀ u ∈ t, u.Normal) ∧
      Yields fromZeroOn.abs Normal ∧ Yields (fromZeroOn.minimum sevenToThree) Normal ∧
      Yields (fromZeroOn.maximum sevenToThree) Normal ∧ Yields (fromZeroOn.mul sevenToThree) Normal ∧
      Yields (fromZeroOn.shiftRightUnsigned sevenToThree) Normal ∧ Yields (fromZeroOn.atMost 3) Normal ∧
      Yields fromZeroOn.extendToNegative Normal ∧
      fromZeroOn.union sevenToThree = raw (-7) true int32Max false true infinityExponent ∧
      fromZeroOn.abs = raw 0 true int32Max false true infinityExponent := by
  have n : fromZeroOn.Normal := by decide
  have m : sevenToThree.Normal := by decide
  have kept := normal_keptByOperations
  exact ⟨n, m, kept.union _ _ n m, kept.intersect _ _ n m, kept.abs _ n, kept.minimum _ _ n m,
    kept.maximum _ _ n m, kept.mul _ _ n m, kept.shiftRightUnsigned _ _ n m,
    kept.atMost _ 3 n (by decide), kept.extendToNegative _ n rfl, rfl, rfl⟩

end Rangefinder.Range
