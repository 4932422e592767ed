import Rangefinder.Proofs.Analysis.LoopBounds
import Rangefinder.Proofs.Machine.Contents

/-!
# What readings say

The readings of values, tests and bounds are statements about integers. This module says which ones:
a reading gives the integer of the value that is read, the inequality of a test holds exactly when the
test turns out the way it was read, and the sums that bound a loop and its phis have the values that
their construction suggests. All this is true of every assignment of integers that solves the defining
equations of the values involved, and in particular of the states of a run.
-/

namespace Rangefinder

/-- The integer that a reading stands for. -/
def Offset.eval (val : ValueId → Int) (o : Offset) : Int := (o.term.map val).getD 0 + o.constant

/-- The inequality is true of the integers. -/
def LinearInequality.Holds (val : ValueId → Int) (i : LinearInequality) : Prop :=
  if i.lessEqual then i.lhs.eval val ≤ (i.rhs.map val).getD 0
  else (i.rhs.map val).getD 0 ≤ i.lhs.eval val

/-- Negation negates the test. -/
theorem CompareOp.onInts_negate {op : CompareOp} {a b : Int} :
    op.negate.onInts a b = !op.onInts a b := by
  cases op <;> simp only [negate, onInts] <;> grind

namespace Procedure

variable {f : Procedure} {val : ValueId → Int}

/-- The combination of two readings is read as the result of the operation on them. -/
theorem combineOffsets_eval {op : BinaryOp} {l r o : Offset} (sum : op = .add ∨ op = .sub)
    (h : combineOffsets op l r = some o) :
    op.onIntegers? (l.eval val) (r.eval val) = some (o.eval val) := by
  rw [combineOffsets] at h
  split at h
  · cases h
  · next one =>
    rcases sum with rfl | rfl
    · obtain ⟨c, checked, rfl⟩ := Option.map_eq_some_iff.mp h
      obtain ⟨-, rfl⟩ := checkInt32_eq_some.mp checked
      rw [BinaryOp.onIntegers?, Option.some.injEq]
      cases left : l.term with
      | none =>
        simp only [Offset.eval, left, Option.none_or, Option.map_none, Option.getD_none]
        omega
      | some t =>
        have right : r.term = none := by simpa [left] using one
        simp only [Offset.eval, left, right, Option.some_or, Option.map_some, Option.map_none,
          Option.getD_some, Option.getD_none]
        omega
    · rw [if_neg (by decide)] at h
      split at h
      · next left =>
        obtain ⟨c, checked, rfl⟩ := Option.map_eq_some_iff.mp h
        obtain ⟨-, rfl⟩ := checkInt32_eq_some.mp checked
        have right : r.term = none := by simpa [left] using one
        rw [BinaryOp.onIntegers?, Option.some.injEq]
        simp only [Offset.eval, right, Option.map_none, Option.getD_none]
        omega
      · cases h

/-- The inequality between two readings is what the comparison says. -/
theorem inequalityOf_holds_iff {op : CompareOp} {l r : Offset} {i : LinearInequality}
    (h : inequalityOf op l r = some i) : i.Holds val ↔ op.onInts (l.eval val) (r.eval val) = true := by
  obtain ⟨c, checked, h⟩ := Option.bind_eq_some_iff.mp h
  obtain ⟨-, rfl⟩ := checkInt32_eq_some.mp checked
  have shifted : ∀ {n : Int} {k : Int → LinearInequality},
      (checkInt32 n >>= fun c => some (k c)) = some i → i = k n := by
    intro n k h
    obtain ⟨c, checked, h⟩ := Option.bind_eq_some_iff.mp h
    obtain ⟨-, rfl⟩ := checkInt32_eq_some.mp checked
    exact (Option.some.inj h).symm
  cases op with
  | le | ge =>
    obtain rfl := Option.some.inj h
    rw [CompareOp.onInts, decide_eq_true_eq]
    simp only [LinearInequality.Holds, Offset.eval, if_true, Bool.false_eq_true, if_false]
    omega
  | lt | gt =>
    obtain rfl := shifted h
    rw [CompareOp.onInts, decide_eq_true_eq]
    simp only [LinearInequality.Holds, Offset.eval, if_true, Bool.false_eq_true, if_false]
    omega
  | eq | ne => cases h

end Procedure

namespace SimpleLoop

variable {l : SimpleLoop} {f : Procedure} {val : ValueId → Int} {step : Int}

/-- Bringing the varying side to the left does not change what an inequality says. -/
theorem Orients.holds_iff {i j : LinearInequality} (h : l.Orients f i j) :
    j.Holds val ↔ i.Holds val := by
  rcases h with ⟨rfl, -⟩ | ⟨r, rhs, -, -, rfl⟩
  · rfl
  · cases side : i.lessEqual <;>
      simp [LinearInequality.Holds, Offset.eval, rhs, side]

/-- The term is added. -/
theorem addOptional_eval {sum result : LinearSum} {term : Option ValueId} {scale : Int}
    (respects : LinearSum.RespectsConstants f val)
    (h : (addOptional f sum term scale).run = .ok (some result)) :
    result.eval val = sum.eval val + scale * (term.map val).getD 0 := by
  cases term with
  | none =>
    obtain rfl := attempt_pure.mp h
    simp
  | some t => exact LinearSum.eval_addTerm respects h

/-- While the loop is not left, the number of rounds has not been reached by the phi that counts
them. -/
theorem roundsUntil_eval {i : LinearInequality} {phi initial : ValueId} {k : Nat} {sum : LinearSum}
    (respects : LinearSum.RespectsConstants f val) (term : i.lhs.term = some phi)
    (value : val phi = val initial + step * k) (stays : ¬i.Holds val)
    (h : (roundsUntil f i initial step).run = .ok (some sum)) :
    k + 1 ≤ sum.eval val := by
  have zero : LinearSum.zero.eval val = 0 := rfl
  rw [roundsUntil] at h
  split at h
  · next grows =>
    simp only [attempt_bind, attempt_some?] at h
    obtain ⟨a, addA, b, addB, c, checked, addC⟩ := h
    obtain ⟨-, rfl⟩ := checkInt32_eq_some.mp checked
    simp only [LinearInequality.Holds, grows.2, Bool.false_eq_true, if_false, Offset.eval, term,
      Option.map_some, Option.getD_some] at stays
    rw [LinearSum.eval_addConstant addC, addOptional_eval respects addB,
      addOptional_eval respects addA, zero, Option.map_some, Option.getD_some]
    rw [value, grows.1] at stays
    omega
  · split at h
    · next shrinks =>
      simp only [attempt_bind, attempt_some?] at h
      obtain ⟨a, addA, b, addB, addC⟩ := h
      simp only [LinearInequality.Holds, shrinks.2, if_true, Offset.eval, term, Option.map_some,
        Option.getD_some] at stays
      rw [LinearSum.eval_addConstant addC, addOptional_eval respects addB,
        addOptional_eval respects addA, zero, Option.map_some, Option.getD_some]
      rw [value, shrinks.1] at stays
      omega
    · exact absurd h attempt_failure

/-- The sums that bound a phi have the values of its first and its last round. -/
theorem BoundSums.eval {bound first last : LinearSum} {initial : ValueId}
    (h : BoundSums f bound initial step first last) (respects : LinearSum.RespectsConstants f val) :
    first.eval val = val initial ∧ last.eval val = val initial + step * (bound.eval val - 1) := by
  obtain ⟨scaled, shifted, scaling, shifting, adding⟩ := h.ends
  have start : first.eval val = val initial := by
    have zero : LinearSum.zero.eval val = 0 := rfl
    rw [LinearSum.eval_addTerm respects h.starts, zero]
    omega
  refine ⟨start, ?_⟩
  rw [LinearSum.eval_addConstant adding, LinearSum.eval_addSum shifting,
    LinearSum.eval_multiply scaling, start, Int.mul_sub, Int.mul_comm]
  omega

end SimpleLoop

namespace Machine

variable {f : Procedure} {g : FlowGraph} {args : List Number} {s : State} {v : ValueId} {o : Offset}

/-- An available value that holds an integer holds the one of its reading, and so does what is read. -/
theorem Reached.offset_holds {n : Int} (reached : Reached f args s) (consistent : f.Consistent g)
    (noPhis : f.phisAt f.entry = []) (avail : Available f g s v) (read : f.IsOffset v o)
    (holds : s.memory.HoldsInt v n) :
    n = o.eval (f.valueIn s.memory) ∧
      ∀ t, o.term = some t → Available f g s t ∧ ∃ p, s.memory.HoldsInt t p := by
  have wf := consistent.wellFormed
  have d := consistent.describes
  have operand : ∀ {v x : ValueId} {o : Opcode}, Available f g s v → f.opcode? v = some o →
      o.isPhi = false → x ∈ o.operands → Available f g s x := fun avail code kind hx =>
    avail.operand (reached.stands wf d) wf d consistent.listed code kind hx
  induction read generalizing n with
  | @self v =>
    refine ⟨?_, fun t ht => Option.some.inj ht ▸ ⟨avail, n, holds⟩⟩
    simp [Offset.eval, reached.valueIn_eq consistent noPhis avail holds]
  | @const v c code =>
    refine ⟨?_, nofun⟩
    rw [← reached.valueIn_eq consistent noPhis avail holds, f.respectsConstants_valueIn _ v c code]
    simp [Offset.eval]
  | beta code _ ih =>
    have same := (reached.computed consistent noPhis avail).beta code
    exact ih (operand avail code rfl (by simp [Opcode.operands])) (holds.congr same.symm)
  | @combine v lhs rhs op flags left right o code typed sum checked _ _ combined ofLeft ofRight =>
    obtain ⟨m₀, result, operands, computed, own⟩ :=
      reached.computed consistent noPhis avail _ _ code typed rfl
    obtain ⟨a, readA, computed⟩ := bind_eq_ok.mp computed
    obtain ⟨b, readB, computed⟩ := bind_eq_ok.mp computed
    obtain ⟨r, summed, done⟩ := bind_eq_ok.mp computed
    obtain rfl := pure_eq_ok.mp done
    obtain ⟨i, j, e, ofA, ofB, exact, ofR⟩ := binary_sum sum checked summed
    have here : n = e := by
      obtain ⟨x, held, value⟩ := holds
      obtain rfl := Slot.number.inj (Option.some.inj (own.symm.trans held))
      exact Int.cast_inj.mp (Option.some.inj (value.symm.trans ofR))
    have atLeft : s.memory.HoldsInt lhs i :=
      ⟨a, (operands lhs (by simp [Opcode.operands])).trans (Memory.number_eq_ok.mp readA), ofA⟩
    have atRight : s.memory.HoldsInt rhs j :=
      ⟨b, (operands rhs (by simp [Opcode.operands])).trans (Memory.number_eq_ok.mp readB), ofB⟩
    obtain ⟨leftValue, leftTerm⟩ := ofLeft (operand avail code rfl (by simp [Opcode.operands])) atLeft
    obtain ⟨rightValue, rightTerm⟩ :=
      ofRight (operand avail code rfl (by simp [Opcode.operands])) atRight
    refine ⟨?_, fun t ht => (Procedure.combineOffsets_term combined ht).elim (leftTerm t) (rightTerm t)⟩
    rw [leftValue, rightValue, Procedure.combineOffsets_eval sum combined] at exact
    rw [here, Option.some.inj exact]

/-- In a state of a run an available whole value has the integer of its reading. -/
theorem Reached.offset_eval (reached : Reached f args s) (h : f.OnInt32 g) (avail : Available f g s v)
    (whole : f.isWhole v = true) (read : f.IsOffset v o) :
    f.valueIn s.memory v = o.eval (f.valueIn s.memory) :=
  (reached.offset_holds h.consistent h.noPhis avail read
    ⟨_, (reached.slot_eq h avail whole).1, rfl⟩).1

/-- In a state of a run both sides of an available test hold integers, and its inequality holds exactly
when the test has turned out the way in which it was read. -/
theorem Reached.test_holds_iff {cond : ValueId} {truth : Bool} {i : LinearInequality} {x : Number}
    (reached : Reached f args s) (h : f.KeepsIntegers g) (avail : Available f g s cond)
    (tests : SimpleLoop.Tests f cond truth i) (slot : s.memory.slots[cond]? = some (.number x)) :
    (i.Holds (f.valueIn s.memory) ↔ x.isTruthy = truth) ∧
      ∀ t, i.lhs.term = some t ∨ i.rhs = some t →
        Available f g s t ∧ ∃ p, s.memory.HoldsInt t p := by
  have wf := h.consistent.wellFormed
  have d := h.consistent.describes
  obtain ⟨op, lhs, rhs, left, right, code, leftType, rightType, readLeft, readRight, read⟩ := tests
  have operand : ∀ y ∈ [lhs, rhs], Available f g s y := fun y hy =>
    avail.operand (reached.stands wf d) wf d h.consistent.listed code rfl hy
  obtain ⟨value, found, -⟩ := Option.map_eq_some_iff.mp code
  obtain ⟨m₀, result, operands, computed, own⟩ := reached.computed h.consistent h.noPhis avail _ _ code
    (Procedure.type?_of_value found) rfl
  obtain ⟨a, readA, computed⟩ := bind_eq_ok.mp computed
  obtain ⟨b, readB, done⟩ := bind_eq_ok.mp computed
  obtain rfl := pure_eq_ok.mp done
  obtain rfl := Slot.number.inj (Option.some.inj (own.symm.trans slot))
  have held : ∀ {y c n}, y ∈ [lhs, rhs] → m₀.number y = .ok c → s.memory.HoldsInt y n →
      c.toRat? = some (n : Rat) := by
    rintro y c n hy readY ⟨x, found, value⟩
    rw [operands y hy, Memory.number_eq_ok.mp readY] at found
    exact Slot.number.inj (Option.some.inj found) ▸ value
  obtain ⟨p, holdsLeft⟩ := h.holds args s lhs reached (operand lhs (by simp)) leftType
  obtain ⟨q, holdsRight⟩ := h.holds args s rhs reached (operand rhs (by simp)) rightType
  obtain ⟨leftValue, leftTerm⟩ := reached.offset_holds h.consistent h.noPhis (operand lhs (by simp))
    readLeft holdsLeft
  obtain ⟨rightValue, rightTerm⟩ := reached.offset_holds h.consistent h.noPhis
    (operand rhs (by simp)) readRight holdsRight
  have terms := SimpleLoop.inequalityOf_terms read
  refine ⟨?_, fun t ht => ?_⟩
  · rw [Procedure.inequalityOf_holds_iff read, ← leftValue, ← rightValue, CompareOp.holds_of_toRat?
      (held (by simp) readA holdsLeft) (held (by simp) readB holdsRight), Number.ofBool_eq,
      Number.isTruthy_ofInt]
    cases truth with
    | true =>
      rw [if_pos rfl]
      cases op.onInts p q <;> simp
    | false =>
      rw [if_neg (by decide), CompareOp.onInts_negate]
      cases op.onInts p q <;> simp
  · rw [terms.1, terms.2] at ht
    exact ht.elim (leftTerm t) (rightTerm t)

end Machine

end Rangefinder
