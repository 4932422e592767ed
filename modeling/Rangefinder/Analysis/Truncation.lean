import Rangefinder.Analysis.Session
import Rangefinder.Analysis.Transfer
import Rangefinder.Settle

/-!
# Truncation to int32

Two changes move arithmetic to int32. A double sum, difference or product of int32 values that
is an int32 itself is computed in int32, where all uses accept that. Arithmetic whose uses all
look at their operand modulo 2^32 is reduced modulo 2^32 itself. Afterwards bitwise operations
that have become identities are removed.
-/

namespace Rangefinder

/-- The operation adds, subtracts or multiplies. -/
def BinaryOp.isRing (op : BinaryOp) : Bool := op == .add || op == .sub || op == .mul

namespace Procedure

/-- A use is as good with an int32 as with the equal double. -/
def takesInt32 (f : Procedure) : Use → Except Fault Bool
  | .terminator _ => .ok true
  | .operand user index => do
    let value ← f.value user
    match value.opcode with
    | .binary op _ _ _ => return op.isBitwise || value.type == .int32
    | .unary op _ => return op == .toInt32 || op == .toDouble || op == .bitNot
    | .compare _ _ _ | .boundsCheck _ _ _ _ _ | .lowerCheck _ _ | .assertRange _ _ => return true
    | .phi _ => return value.type == .int32
    | .loadElement _ _ | .loadTyped _ _ _ | .storeElement _ _ _ => return index == 1
    | _ => return false

/-- A use reduces its operand to int32 itself. -/
def reducesOperand (f : Procedure) : Use → Except Fault Bool
  | .terminator _ => .ok false
  | .operand user _ => do
    match ← f.opcode user with
    | .unary op _ => return op == .toInt32 || op == .bitNot
    | .binary op _ _ _ => return op.isBitwise
    | _ => return false

/-- A use looks at an integral operand only modulo 2^32. -/
def ignoresHighBits (f : Procedure) : Use → Except Fault Bool
  | .terminator _ => .ok false
  | .operand user index => do
    if ← f.reducesOperand (.operand user index) then return true
    else
      let value ← f.value user
      match value.opcode with
      | .binary op _ _ flags => return op.isRing && flags.wrapping && value.type == .int32
      | _ => return false

/-- All uses have a property. -/
def allUses (property : Use → Except Fault Bool) : List Use → Except Fault Bool
  | [] => .ok true
  | use :: rest => do if ← property use then allUses property rest else return false

/-- An int32 operand for an instruction: the operand itself, or a conversion of it placed right
before the instruction. -/
def int32Operand (f : Procedure) (g : FlowGraph) (user input : ValueId) :
    Except Fault (Procedure × ValueId) := do
  if (← f.typeOf input) = .int32 then return (f, input)
  else
    match (← f.value user).block with
    | none => return (f, input)
    | some b =>
      match (← f.block b).instrs.idxOf? user with
      | none => return (f, input)
      | some position =>
        let (f, v) ← f.placeAt b position (.unary .toInt32 input) .int32
        return (← f.refresh g v, v)

/-- Makes a binary instruction an int32 one with the given flags and int32 operands. -/
def makeInt32 (f : Procedure) (g : FlowGraph) (v : ValueId) (op : BinaryOp) (lhs rhs : ValueId)
    (flags : ArithFlags) : Except Fault Procedure := do
  let (f, lhs) ← f.int32Operand g v lhs
  let (f, rhs) ← f.int32Operand g v rhs
  return f.modifyValue v fun value =>
    { value with type := .int32, opcode := .binary op lhs rhs flags }

/-- Replaces conversions to int32 among the users of an int32 value by the value itself. -/
def absorbConversions (v : ValueId) : List Use → Procedure → Except Fault Procedure
  | [], f => .ok f
  | .terminator _ :: rest, f => absorbConversions v rest f
  | .operand user _ :: rest, f => do
    let value ← f.value user
    match value.opcode, value.block with
    | .unary .toInt32 _, some _ =>
      let (f, _) ← f.moveUses user v
      absorbConversions v rest (← f.detach user)
    | _, _ => absorbConversions v rest f

/-- Computes a double sum, difference or product in int32, if it is one of int32 values, is an
int32 itself, and all its uses accept an int32. -/
def narrow? (f : Procedure) (g : FlowGraph) (v : ValueId) (uses : List Use) :
    Except Fault (Option Procedure) := do
  let value ← f.value v
  match value.opcode, value.range with
  | .binary op lhs rhs _, some range =>
    if value.type = .double ∧ op.isRing = true ∧ range.isInt32 = true then
      let l ← f.rangeRead lhs
      let r ← f.rangeRead rhs
      if !l.isInt32 || !r.isInt32 || (op == .mul && l.mayMulToNegativeZero r) then return none
      else if ← allUses f.takesInt32 uses then
        return some (← f.makeInt32 g v op lhs rhs .exact)
      else return none
    else return none
  | _, _ => return none

/-- The uses of an operation with the given range all allow it to be reduced modulo 2^32. A
quotient or a remainder may have a fraction or be NaN, so its uses must reduce it themselves. -/
def mayWrap (f : Procedure) (type : ValueType) (op : BinaryOp) (range : Range) (uses : List Use) :
    Except Fault Bool :=
  if uses.isEmpty then .ok false
  else if op.isRing then
    if range.mayRound then .ok false else allUses f.ignoresHighBits uses
  else if op = .div ∨ op = .mod then
    if type = .int32 then allUses f.reducesOperand uses else .ok false
  else .ok false

/-- Reduces arithmetic modulo 2^32, if all its uses allow that. -/
def wrap? (f : Procedure) (g : FlowGraph) (v : ValueId) (uses : List Use) :
    Except Fault (Option Procedure) := do
  let value ← f.value v
  match value.opcode, value.range with
  | .binary op lhs rhs flags, some range =>
    if value.type.isNumber = true ∧ flags.wrapping = false then
      if ← f.mayWrap value.type op range uses then
        let f ← f.makeInt32 g v op lhs rhs .wraps
        let wrapped ← range.wrapToInt32
        return some (← absorbConversions v uses (f.setRange v (some wrapped)))
      else return none
    else return none
  | _, _ => return none

/-- The instructions of the reachable blocks, users before what they use as far as the control
flow allows. -/
def usersFirst (f : Procedure) (g : FlowGraph) : List ValueId :=
  g.order.reverse.flatMap fun b => (((f.blocks[b]?).map Block.instrs).getD []).reverse

/-- The operand that a bitwise operation on it amounts to, for operations that change nothing:
disjunction or exclusive disjunction with 0, conjunction with -1, shifts by a multiple of 32, and
conjunction or disjunction of a value with itself. -/
def bitIdentity (op : BinaryOp) (lhs rhs : ValueId) (left right : Option Int) : Option ValueId :=
  match op with
  | .bitOr | .bitXor =>
    if right = some 0 then some lhs
    else if left = some 0 then some rhs
    else if op = .bitOr ∧ lhs = rhs then some lhs
    else none
  | .bitAnd =>
    if right = some (-1) then some lhs
    else if left = some (-1) then some rhs
    else if lhs = rhs then some lhs
    else none
  | .shiftLeft | .shiftRight => if right.any fun c => c % 32 == 0 then some lhs else none
  | _ => none

end Procedure

namespace Session

/-- Moves one value to int32, if it is narrowed or reduced. -/
def toInt32? (s : Session) (v : ValueId) (uses : List Use) : Except Fault (Option Session) := do
  match ← s.procedure.narrow? s.graph v uses with
  | some f =>
    return some
      { s with procedure := f, stats := { s.stats with narrowed := s.stats.narrowed + 1 } }
  | none =>
    match ← s.procedure.wrap? s.graph v uses with
    | some f =>
      return some
        { s with procedure := f, stats := { s.stats with truncated := s.stats.truncated + 1 } }
    | none => return none

/-- Moves the given values to int32 in turn, with the uses in the procedure at hand; also tells
whether one was moved. Each move adds conversions and drops users, so the uses are found anew
after it. -/
def narrowAll :
    List ValueId → List (ValueId × Use) → Session × Bool → Except Fault (Session × Bool)
  | [], _, state => .ok state
  | v :: rest, uses, (s, changed) => do
    if (← s.procedure.value v).block.isNone then narrowAll rest uses (s, changed)
    else
      match ← s.toInt32? v (Procedure.usesOf uses v) with
      | some s => narrowAll rest (← s.procedure.uses) (s, true)
      | none => narrowAll rest uses (s, changed)

/-- One pass over a procedure that moves values to int32. -/
def narrowPass (s : Session) : Except Fault (Session × Bool) := do
  narrowAll (s.procedure.usersFirst s.graph) (← s.procedure.uses) (s, false)

/-- Removes the given bitwise operations as far as they change nothing. -/
def foldBitops : List ValueId → Session → Except Fault Session
  | [], s => .ok s
  | v :: rest, s => do
    let f := s.procedure
    let value ← f.value v
    match value.opcode with
    | .binary op lhs rhs _ =>
      if value.type = .int32 ∧ value.block.isSome then
        match Procedure.bitIdentity op lhs rhs (← f.constInt? lhs) (← f.constInt? rhs) with
        | none => foldBitops rest s
        | some x =>
          if (← f.typeOf x) = .int32 then
            let (f, _) ← f.moveUses v x
            let f ← f.detach v
            let stats := { s.stats with foldedBitops := s.stats.foldedBitops + 1 }
            foldBitops rest { s with procedure := f, stats := stats }
          else foldBitops rest s
      else foldBitops rest s
    | _ => foldBitops rest s

/-- Moves arithmetic to int32 until nothing changes, and removes bitwise identities. Each
instruction is narrowed at most once and reduced at most once, which bounds the number of
passes. -/
def truncate (s : Session) : Except Fault Session := do
  let s ← settle narrowPass (2 * s.procedure.values.size + 1) s
  foldBitops (s.procedure.usersFirst s.graph) s

end Session

end Rangefinder
