import Rangefinder.Analysis.FixedPoint
import Rangefinder.Analysis.Hoisting

/-!
# The analysis

The analysis computes the fixed point of ranges, bounds the loops, brings the ranges up to date
once more, and finally records on int32 arithmetic which edge cases cannot happen.
-/

namespace Rangefinder

/-- The flags of an int32 operation with edge cases dropped that its range and those of its
operands rule out; nothing for operations without flags of interest. -/
def ArithFlags.sharpen (flags : ArithFlags) (op : BinaryOp) (range l r : Range) :
    Option ArithFlags :=
  match op with
  | .add | .sub => some { flags with fallible := flags.fallible && !range.isClosed }
  | .mul =>
    let negativeZero := l.mayMulToNegativeZero r
    some { flags with
      negativeZero := negativeZero
      fallible := flags.fallible && !(range.isClosed && !negativeZero) }
  | .div => some { flags with
      negativeZero := l.canBeZero && r.canBeNegative, divideByZero := r.canBeZero }
  | .mod => some { flags with negativeZero := l.canBeNegative, divideByZero := r.canBeZero }
  | _ => none

namespace Session

/-- Records on a value which edge cases its range rules out. -/
def sharpenFlags (s : Session) (v : ValueId) : Except Fault Session := do
  let f := s.procedure
  let value ← f.value v
  match value.opcode, value.range with
  | .binary op lhs rhs flags, some range =>
    if value.block.isSome ∧ value.type = .int32 ∧ flags.wrapping = false then
      let l ← f.rangeRead lhs
      let r ← f.rangeRead rhs
      match flags.sharpen op range l r with
      | none => return s
      | some sharp =>
        let f := f.modifyValue v fun value => { value with opcode := .binary op lhs rhs sharp }
        let removed := if flags.fallible && !sharp.fallible then 1 else 0
        let stats :=
          { s.stats with overflowChecksRemoved := s.stats.overflowChecksRemoved + removed }
        return { s with procedure := f, stats := stats }
    else return s
  | _, _ => return s

/-- Computes the ranges of a procedure and what follows from them. -/
def analyze (s : Session) : Except Fault StageResult := do
  match ← s.fixedPoint with
  | (s, some e) => return (s, some e)
  | (s, none) =>
    match ← forEach boundLoop s.loops s with
    | (s, some e) => return (s, some e)
    | (s, none) =>
      let (s, _) ← s.pass none
      let marked := (s.procedure.blocks.toList.filter Block.unreachable).length
      let s := { s with stats := { s.stats with unreachableBlocks := marked } }
      return (← (List.range s.procedure.values.size).foldlM sharpenFlags s, none)

end Session

end Rangefinder
