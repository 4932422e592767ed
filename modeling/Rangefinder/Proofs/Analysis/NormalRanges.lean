import Rangefinder.Proofs.Analysis.Inputs
import Rangefinder.Proofs.Range.Closure
import Rangefinder.Proofs.Range.Constants
import Rangefinder.Proofs.Range.Widening

/-!
# The ranges of values are normal

As long as the ranges found so far are normal, the range of a value in terms of them exists and is
normal: every operand of a structured procedure exists, every operation on normal ranges returns a
normal range, and the refinements of betas are normal. So bringing ranges up to date never meets a
fault.
-/

namespace Rangefinder

namespace Range

variable {r s : Range}

/-- An index that has passed a bounds check has a normal range. -/
theorem ofBoundsCheck_yields (n : r.Normal) (minimum maximum : Int) :
    Yields (ofBoundsCheck r s minimum maximum) Normal := by
  simp only [ofBoundsCheck]
  split
  · exact .ok n
  · next ordered =>
    refine (int32_yields (not_lt.mp ordered)).bind fun passing m => ?_
    refine (intersect_yields n m).bind fun met normal => .ok ?_
    cases met with
    | none => exact n
    | some t => exact normal t rfl

end Range

open Range

/-- Elements are normal. -/
theorem ElementType.range_yields (element : ElementType) (type : ValueType) :
    Yields (element.range type) Normal := by
  cases element with
  | float32 => exact .ok type.range_normal
  | float64 => exact .ok type.range_normal
  | _ => exact int32_yields (by decide)

/-- Literals are normal. -/
theorem Literal.range_yields (literal : Literal) : Yields literal.range Normal := by
  cases literal with
  | int n => exact int32_yields le_rfl
  | double x => exact ofNumber_yields x
  | bool b =>
    rw [range]
    split
    · exact int32_yields le_rfl
    · exact int32_yields le_rfl

/-- Binary results are normal. -/
theorem BinaryOp.range_yields (op : BinaryOp) {l r : Range} (n : l.Normal) (m : r.Normal)
    (type : ValueType) (shift : Option Int) : Yields (op.range l r type shift) Normal := by
  cases op with
  | add => exact add_yields n m
  | sub => exact sub_yields n m
  | mul => exact mul_yields n m
  | div => exact div_yields n _
  | mod => exact mod_yields n m
  | bitAnd => exact and_yields n m
  | bitOr => exact or_yields n m
  | bitXor => exact xor_yields n m
  | shiftLeft =>
    cases shift with
    | some c => exact shiftLeftBy_yields n c
    | none => exact shiftLeft_yields n m
  | shiftRight =>
    cases shift with
    | some c => exact shiftRightBy_yields n c
    | none => exact shiftRight_yields n m
  | shiftRightUnsigned =>
    cases shift with
    | some c => exact shiftRightUnsignedBy_yields n c
    | none => exact shiftRightUnsigned_yields n m
  | minimum => exact minimum_yields n m
  | maximum => exact maximum_yields n m

/-- Unary results are normal. -/
theorem UnaryOp.range_yields (op : UnaryOp) {r : Range} (n : r.Normal) :
    Yields (op.range r) Normal := by
  cases op with
  | bitNot => exact not_yields n
  | abs => exact abs_yields n
  | floor => exact rounded_yields n
  | ceil => exact rounded_yields n
  | sqrt => exact sqrt_yields n
  | toInt32 => exact (wrapToInt32_yields n).mono fun _ int32 => int32.toNormal
  | toDouble => exact .ok n

/-- A range confined to the type of a value is normal, and for a phi it is one that a phi may have. -/
theorem Value.confine_yields (value : Value) {r : Range} (n : r.Normal) :
    Yields (value.confine r) fun t => t.Normal ∧
      (value.opcode.isPhi = true → Pass.PhiRange value.type t) := by
  rw [confine]
  split
  · next int32 =>
    split
    · next overflow =>
      refine .ok ⟨n, fun phi => ?_⟩
      cases code : value.opcode <;> simp [code, Opcode.isPhi, Opcode.mayOverflow] at phi overflow
    · refine (clipToInt32_yields n).mono ?_
      rintro t ⟨clipped, -⟩
      exact ⟨clipped.toNormal, fun _ => ⟨clipped.toNormal, fun _ => clipped⟩⟩
  · next boolean =>
    refine (wrapToBoolean_yields n).mono fun t wrapped => ⟨wrapped.toNormal, fun _ => ?_⟩
    exact ⟨wrapped.toNormal, fun _ => wrapped⟩
  · next other _ => exact .ok ⟨n, fun _ => ⟨n, fun own => absurd own other⟩⟩

/-- What a beta refines its input by. -/
def Opcode.refinement? : Opcode → Option Range
  | .beta _ refinement => some refinement
  | _ => none

namespace Procedure

variable {f f' : Procedure} {g : FlowGraph} {v : ValueId}

/-- The refinement of every beta is normal, as the ranges are that operations on ranges return. -/
def NormalRefinements (f : Procedure) : Prop :=
  ∀ v input refinement, f.opcode? v = some (.beta input refinement) → refinement.Normal

instance : Decidable f.NormalRefinements :=
  decidable_of_iff
    (∀ v < f.values.size, ∀ o ∈ f.opcode? v, ∀ r ∈ o.refinement?, r.Normal)
    ⟨fun h v input r code => h v (lt_size_of_opcode? code) _ code r rfl, fun h v _ o code r own => by
      cases o <;> simp only [Opcode.refinement?, Option.mem_def, reduceCtorEq, Option.some.injEq] at own
      exact h v _ r (own ▸ code)⟩

/-- The ranges found so far are normal, and those of phis are such as phis may have. -/
structure NormalRanges (f : Procedure) : Prop where
  normal : ∀ v r, f.range? v = some r → r.Normal
  phis : ∀ v type r, f.isPhi v = true → f.type? v = some type → f.range? v = some r →
    Pass.PhiRange type r

/-- Procedures with the same code and the same ranges have them as they should be together. -/
theorem NormalRanges.of_sameCode (h : f.NormalRanges) (same : SameCode f f')
    (ranges : ∀ v, f'.range? v = f.range? v) : f'.NormalRanges := by
  refine ⟨fun v r found => ?_, fun v type r phi typed found => ?_⟩
  · exact h.normal v r (ranges v ▸ found)
  · exact h.phis v type r (same.layout.isPhi v ▸ phi) (same.type? v ▸ typed) (ranges v ▸ found)

/-- Notes keep refinements normal. -/
theorem NormalRefinements.of_sameCode (refined : f.NormalRefinements) (same : SameCode f f') :
    f'.NormalRefinements := fun v input refinement beta =>
  refined v input refinement (same.opcode? v ▸ beta)

/-- Cleared ranges are normal. -/
theorem clearRanges_normalRanges : f.clearRanges.NormalRanges := by
  constructor
  · intro v r found
    rw [range?_clearRanges] at found
    cases found
  · intro v type r _ _ found
    rw [range?_clearRanges] at found
    cases found

namespace NormalRanges

/-- A normal range may be noted for any value, if it is one that a phi may have for a phi. -/
theorem setRange (h : f.NormalRanges) {range : Option Range}
    (new : ∀ r ∈ range, r.Normal ∧
      ∀ type, f.isPhi v = true → f.type? v = some type → Pass.PhiRange type r) :
    (f.setRange v range).NormalRanges := by
  have same := sameCode_setRange (f := f) v range
  constructor
  · intro w r found
    rw [range?_setRange] at found
    split at found
    · obtain ⟨_, -, own⟩ := Option.bind_eq_some_iff.mp found
      exact (new r own).1
    · exact h.normal w r found
  · intro w type r phi typed found
    rw [same.layout.isPhi] at phi
    rw [same.type?] at typed
    rw [range?_setRange] at found
    split at found
    · next own =>
      subst own
      obtain ⟨_, -, own⟩ := Option.bind_eq_some_iff.mp found
      exact (new r own).2 type phi typed
    · exact h.phis w type r phi typed found

/-- A confined range may be noted for its value. -/
theorem setConfined (h : f.NormalRanges) {value : Value} {r : Range} (found : f.values[v]? = some value)
    (confined : r.Normal ∧ (value.opcode.isPhi = true → Pass.PhiRange value.type r)) :
    (f.setRange v (some r)).NormalRanges := by
  refine h.setRange fun s same => ?_
  obtain rfl := Option.some.inj same
  refine ⟨confined.1, fun type phi typed => ?_⟩
  rw [isPhi_eq (opcode?_of_value found)] at phi
  rw [type?_of_value found] at typed
  exact Option.some.inj typed ▸ confined.2 phi

end NormalRanges

/-- The look-up succeeds. -/
theorem constInt?_yields (present : v < f.values.size) :
    Yields (f.constInt? v) fun _ => True := by
  have known : Yields (f.opcode v) fun _ => True := (value_yields present).bind fun _ _ => .ok trivial
  refine known.bind fun opcode _ => ?_
  split
  · exact .ok trivial
  · exact .ok trivial

section Ranges

variable (normal : ∀ v r, f.range? v = some r → r.Normal) {value : Value}

include normal

/-- Binary instructions have normal ranges. -/
theorem rangeOfBinary_yields (type : ValueType) (op : BinaryOp) {lhs rhs : ValueId}
    (flags : ArithFlags) (left : lhs < f.values.size) (right : rhs < f.values.size) :
    Yields (f.rangeOfBinary type op lhs rhs flags) Normal := by
  refine (rangeRead_yields normal left).bind fun l n => ?_
  refine (rangeRead_yields normal right).bind fun r m => ?_
  refine (constInt?_yields right).bind fun shift _ => ?_
  refine (op.range_yields n m type shift).bind fun result normal => ?_
  split
  · have extended : Yields (if op = .shiftRightUnsigned ∧ result.upper.isNone
        then result.extendToNegative else pure result) Normal := by
      split
      · next shifted =>
        refine extendToNegative_yields normal ?_
        rw [Option.isNone_iff_eq_none.mp shifted.2]
        rfl
      · exact .ok normal
    refine extended.bind fun s normal => ?_
    split
    · exact (wrapToInt32_yields normal).mono fun _ int32 => int32.toNormal
    · exact .ok normal
  · exact .ok normal

/-- The opcode of a value whose operands exist gives it a normal range, if it gives it one. -/
theorem opcodeRange_yields (operands : ∀ x ∈ value.opcode.operands, x < f.values.size)
    (refined : ∀ input refinement, value.opcode = .beta input refinement → refinement.Normal) :
    Yields (f.opcodeRange g value) fun t => ∀ r ∈ t, r.Normal := by
  have one : ∀ {x : Except Fault Range}, Yields x Normal →
      Yields (some <$> x) fun t => ∀ r ∈ t, r.Normal := fun yields =>
    Yields.map (yields.mono fun t normal r own => Option.some.inj own ▸ normal)
  rw [opcodeRange]
  cases code : value.opcode with
  | const literal => exact one literal.range_yields
  | param => exact one (.ok value.type.range_normal)
  | call => exact one (.ok value.type.range_normal)
  | loadElement => exact one (.ok value.type.range_normal)
  | phi inputs =>
    rw [code] at operands
    exact inputRange_yields normal fun i hi => operands i.1 (List.mem_map_of_mem hi)
  | beta input refinement =>
    rw [code] at operands
    refine (rangeRead_yields normal (operands input (by simp [Opcode.operands]))).bind fun r n => ?_
    refine (intersect_yields n (refined input refinement code)).bind fun met normal => ?_
    refine .ok fun s same => ?_
    obtain rfl := Option.some.inj same
    cases met with
    | none => exact n
    | some t => exact normal t rfl
  | binary op lhs rhs flags =>
    rw [code] at operands
    exact one (rangeOfBinary_yields normal value.type op flags (operands lhs (by simp [Opcode.operands]))
      (operands rhs (by simp [Opcode.operands])))
  | unary op operand =>
    rw [code] at operands
    refine (rangeRead_yields normal (operands operand (by simp [Opcode.operands]))).bind fun r n => ?_
    refine (op.range_yields n).bind fun s normal => .ok fun t same => ?_
    exact Option.some.inj same ▸ normal
  | compare => exact one (int32_yields (by decide))
  | arrayLength => exact one (int32_yields (by decide))
  | typedArrayLength => exact one (int32_yields (by decide))
  | loadTyped array index element => exact one (element.range_yields value.type)
  | boundsCheck index length minimum maximum movable =>
    rw [code] at operands
    refine (rangeRead_yields normal (operands index (by simp [Opcode.operands]))).bind fun i n => ?_
    refine (rangeRead_yields normal (operands length (by simp [Opcode.operands]))).bind fun l _ => ?_
    exact one (ofBoundsCheck_yields n minimum maximum)
  | storeElement => exact .ok (by simp)
  | lowerCheck => exact .ok (by simp)
  | assertRange => exact .ok (by simp)

/-- The range of a value from the current ranges of its operands exists and is normal, and for a phi it is
one that a phi may have. -/
theorem rangeOf_yields (found : f.values[v]? = some value)
    (operands : ∀ x ∈ value.opcode.operands, x < f.values.size)
    (refined : ∀ input refinement, value.opcode = .beta input refinement → refinement.Normal) :
    Yields (f.rangeOf g v) fun range => ∀ r ∈ range, r.Normal ∧
      (value.opcode.isPhi = true → Pass.PhiRange value.type r) := by
  rw [rangeOf, value_eq_ok.mpr found]
  show Yields (if value.type.hasRange = true then _ else _) _
  split
  · refine (opcodeRange_yields normal operands refined).bind fun range n => ?_
    cases range with
    | none => exact .ok (by simp)
    | some r =>
      refine Yields.map ((value.confine_yields (n r rfl)).mono fun t confined u own => ?_)
      exact Option.some.inj own ▸ confined
  · exact .ok (by simp)

end Ranges

/-- Bringing the range of a value up to date succeeds, keeps the ranges normal, and touches the range
of no other value. -/
theorem refresh_yields (h : f.NormalRanges) (s : f.Structured) (refined : f.NormalRefinements)
    {b : BlockId} (home : f.home? v = some b) (present : b < f.blocks.size) :
    Yields (f.refresh g v) fun f' =>
      f'.NormalRanges ∧ ∀ w, w ≠ v → f'.range? w = f.range? w := by
  have others : ∀ (f' : Procedure) range, (∀ w, f'.range? w = f.range? w) →
      ∀ w, w ≠ v → (f'.setRange v range).range? w = f.range? w := by
    intro f' range same w other
    rw [range?_setRange, if_neg other, same]
  refine (value_yields (lt_size_of_home? home)).bind fun value found => ?_
  have code := opcode?_of_value found
  have operands := s.operands v _ code
  have computed := rangeOf_yields (g := g) h.normal found operands fun input refinement beta =>
    refined v input refinement (beta ▸ code)
  split
  · next input refinement beta =>
    rw [beta] at operands
    refine (rangeRead_yields h.normal (operands input (by simp [Opcode.operands]))).bind fun r n => ?_
    refine (intersect_yields n (refined v input refinement (beta ▸ code))).bind fun met normal => ?_
    cases met with
    | some t =>
      refine (value.confine_yields (normal t rfl)).bind fun confined n => .ok ⟨?_, ?_⟩
      · exact h.setConfined found n
      · exact others f _ fun _ => rfl
    | none =>
      refine (value.confine_yields n).bind fun confined n => ?_
      split
      · exact .ok ⟨h.setConfined found n, others f _ fun _ => rfl⟩
      · next b' stands =>
        obtain rfl := Option.some.inj (home.symm.trans ((home?_of_value found).trans stands))
        have block : f.block b = .ok f.blocks[b] :=
          block_eq_ok.mpr (Array.getElem?_eq_getElem present)
        have marked : (f.markUnreachable b).NormalRanges := ⟨h.normal, h.phis⟩
        rw [block]
        exact .ok ⟨marked.setConfined found n, others (f.markUnreachable b) _ fun _ => rfl⟩
  · refine computed.bind fun range n => .ok ⟨h.setRange fun r own => ⟨(n r own).1, ?_⟩, ?_⟩
    · intro type phi typed
      rw [isPhi_eq code] at phi
      rw [type?_of_value found] at typed
      exact Option.some.inj typed ▸ (n r own).2 phi
    · exact others f _ fun _ => rfl

end Procedure

end Rangefinder
