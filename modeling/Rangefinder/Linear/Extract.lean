import Rangefinder.Linear.Sum

/-!
# Linear readings of values and tests

An int32 value built by additions and subtractions of constants is read as another value plus a
constant, and an int32 comparison as an inequality between such readings.
-/

namespace Rangefinder

/-- A value plus a constant, or a constant alone. -/
structure Offset where
  term : Option ValueId
  constant : Int
deriving DecidableEq

/-- An inequality `lhs ≤ rhs`, or `lhs ≥ rhs`; no value on the right stands for zero. -/
structure LinearInequality where
  lhs : Offset
  rhs : Option ValueId
  lessEqual : Bool
deriving DecidableEq

namespace Procedure

/-- Follows betas to the value that they refine, for at most the given number of values. -/
def throughBetas (f : Procedure) : Nat → ValueId → Except Fault ValueId
  | 0, _ => .error .unsettled
  | steps + 1, v => do
    match ← f.opcode v with
    | .beta input _ => f.throughBetas steps input
    | _ => return v

/-- The value that a chain of betas refines. -/
def refined (f : Procedure) (v : ValueId) : Except Fault ValueId :=
  f.throughBetas (f.values.size + 1) v

/-- Combines the readings of the operands of a sum or difference; nothing when the result is not
a value plus a constant or its constant leaves int32. -/
def combineOffsets (op : BinaryOp) (l r : Offset) : Option Offset :=
  if l.term.isSome ∧ r.term.isSome then none
  else if op = .add then
    (checkInt32 (l.constant + r.constant)).map fun c => ⟨l.term.or r.term, c⟩
  else if l.term.isSome then
    (checkInt32 (l.constant - r.constant)).map fun c => ⟨l.term, c⟩
  else none

/-- Reads a value as another value plus a constant, through at most the given number of nested
operations. -/
def readOffset (f : Procedure) : Nat → ValueId → Except Fault Offset
  | 0, _ => .error .unsettled
  | depth + 1, v => do
    let v ← f.refined v
    let value ← f.value v
    if value.type ≠ .int32 then return ⟨some v, 0⟩
    else
      match value.opcode with
      | .const (.int c) => return ⟨none, c⟩
      | .binary op lhs rhs flags =>
        if (op = .add ∨ op = .sub) ∧ flags.wrapping = false then
          let l ← f.readOffset depth lhs
          let r ← f.readOffset depth rhs
          return (combineOffsets op l r).getD ⟨some v, 0⟩
        else return ⟨some v, 0⟩
      | _ => return ⟨some v, 0⟩

/-- Reads a value as another value plus a constant. -/
def offset (f : Procedure) (v : ValueId) : Except Fault Offset :=
  f.readOffset (f.values.size + 1) v

/-- Reads what a comparison of two readings says as an inequality; strict inequalities between
integers become weak ones. -/
def inequalityOf (op : CompareOp) (l r : Offset) : Option LinearInequality := do
  let c ← checkInt32 (l.constant - r.constant)
  match op with
  | .le => return ⟨⟨l.term, c⟩, r.term, true⟩
  | .lt => return ⟨⟨l.term, ← checkInt32 (c + 1)⟩, r.term, true⟩
  | .ge => return ⟨⟨l.term, c⟩, r.term, false⟩
  | .gt => return ⟨⟨l.term, ← checkInt32 (c - 1)⟩, r.term, false⟩
  | .eq | .ne => none

/-- Reads the int32 comparison `cond`, known to have the given truth value, as an inequality. -/
def inequality (f : Procedure) (cond : ValueId) (truth : Bool) :
    Except Fault (Option LinearInequality) := do
  match ← f.opcode cond with
  | .compare op lhs rhs =>
    if (← f.typeOf lhs) ≠ .int32 then return none
    else if (← f.typeOf rhs) ≠ .int32 then return none
    else
      let l ← f.offset lhs
      let r ← f.offset rhs
      return inequalityOf (if truth then op else op.negate) l r
  | _ => return none

end Procedure

end Rangefinder
