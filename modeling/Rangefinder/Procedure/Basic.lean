import Rangefinder.Range.Basic

/-!
# Procedures in static single assignment form

A procedure is a list of blocks and a list of values. Each value says how it is computed, what
kind of thing it is and in which block it stands; each block lists its phis, its instructions and
its terminator. Blocks and values refer to each other by position, and nothing in the types
forces those references to be meaningful: `Rangefinder.Procedure.Verify` is the check for that.
-/

namespace Rangefinder

/-- The position of a block in its procedure. -/
abbrev BlockId := Nat

/-- The position of a value in its procedure. -/
abbrev ValueId := Nat

/-- The representation of a value. -/
inductive ValueType where
  | int32
  | double
  | boolean
  /-- Any value, boxed. -/
  | boxed
  /-- Arrays. -/
  | object
  /-- No value: checks and stores. -/
  | effect
deriving DecidableEq, Inhabited

namespace ValueType

/-- Values of the type take part in numeric comparisons. -/
def isNumber : ValueType → Bool
  | int32 | double => true
  | _ => false

/-- Values of the type have a range. -/
def hasRange : ValueType → Bool
  | int32 | double | boolean => true
  | _ => false

/-- What is known of a value from its type alone. -/
def range : ValueType → Range
  | int32 => Range.anyInt32
  | boolean => Range.anyBoolean
  | _ => Range.unknown

end ValueType

/-- A constant. -/
inductive Literal where
  | int (n : Int)
  | double (x : Number)
  | bool (b : Bool)
deriving DecidableEq

/-- The number of a constant. -/
def Literal.toNumber : Literal → Number
  | int n => .ofInt n
  | double x => x
  | bool b => .ofBool b

/-- An operation on two numbers. -/
inductive BinaryOp where
  | add
  | sub
  | mul
  | div
  | mod
  | bitAnd
  | bitOr
  | bitXor
  | shiftLeft
  | shiftRight
  | shiftRightUnsigned
  | minimum
  | maximum
deriving DecidableEq

namespace BinaryOp

/-- The operation works on 32-bit words. -/
def isBitwise : BinaryOp → Bool
  | bitAnd | bitOr | bitXor | shiftLeft | shiftRight | shiftRightUnsigned => true
  | _ => false

/-- The operation is one of the arithmetic ones that may leave int32. -/
def isArithmetic : BinaryOp → Bool
  | add | sub | mul | div | mod => true
  | _ => false

end BinaryOp

/-- An operation on one number. -/
inductive UnaryOp where
  | bitNot
  | abs
  | floor
  | ceil
  | sqrt
  /-- Reduction modulo 2^32 to an int32. -/
  | toInt32
  /-- Change of representation only. -/
  | toDouble
deriving DecidableEq

/-- A comparison of two numbers. -/
inductive CompareOp where
  | lt
  | le
  | gt
  | ge
  | eq
  | ne
deriving DecidableEq

namespace CompareOp

/-- The comparison that holds exactly when this one does not, NaN left aside. -/
def negate : CompareOp → CompareOp
  | lt => ge
  | le => gt
  | gt => le
  | ge => lt
  | eq => ne
  | ne => eq

/-- The comparison with its sides swapped. -/
def reverse : CompareOp → CompareOp
  | lt => gt
  | le => ge
  | gt => lt
  | ge => le
  | eq => eq
  | ne => ne

/-- The comparison of two numbers. -/
def holds : CompareOp → Number → Number → Bool
  | lt, a, b => a.lt b
  | le, a, b => a.le b
  | gt, a, b => b.lt a
  | ge, a, b => b.le a
  | eq, a, b => a.equal b
  | ne, a, b => !a.equal b

end CompareOp

/-- The element type of a typed array. -/
inductive ElementType where
  | int8
  | uint8
  | uint8Clamped
  | int16
  | uint16
  | int32
  | uint32
  | float32
  | float64
deriving DecidableEq

/-- What is known about the outcome of an arithmetic instruction. -/
structure ArithFlags where
  /-- The result may leave int32 and is checked. -/
  fallible : Bool
  /-- The result is reduced modulo 2^32. -/
  wrapping : Bool
  /-- The result may be negative zero. -/
  negativeZero : Bool
  /-- The divisor may be zero. -/
  divideByZero : Bool
deriving DecidableEq

namespace ArithFlags

/-- Nothing is known: every edge case is checked. -/
def checked : ArithFlags := ⟨true, false, true, true⟩

/-- The result is reduced modulo 2^32. -/
def wraps : ArithFlags := ⟨false, true, false, true⟩

/-- No edge case arises. -/
def exact : ArithFlags := ⟨false, false, false, false⟩

end ArithFlags

/-- How a block ends. -/
inductive Terminator where
  | goto (target : BlockId)
  | branch (cond : ValueId) (onTrue onFalse : BlockId)
  | exit (result : Option ValueId)
  | unreachable
deriving DecidableEq

namespace Terminator

/-- The blocks that control may go to. -/
def successors : Terminator → List BlockId
  | goto target => [target]
  | branch _ onTrue onFalse => [onTrue, onFalse]
  | _ => []

/-- The value that the terminator reads. -/
def operand : Terminator → Option ValueId
  | branch cond _ _ => some cond
  | exit result => result
  | _ => none

/-- Applies a renaming to the value that the terminator reads. -/
def mapOperand (g : ValueId → ValueId) : Terminator → Terminator
  | branch cond onTrue onFalse => branch (g cond) onTrue onFalse
  | exit result => exit (result.map g)
  | t => t

/-- Replaces the value that the terminator reads by the result of an action on it. -/
def mapOperandM {m : Type → Type} [Monad m] (act : ValueId → m ValueId) : Terminator → m Terminator
  | branch cond onTrue onFalse => return branch (← act cond) onTrue onFalse
  | exit (some result) => return exit (some (← act result))
  | t => return t

end Terminator

/-- A block: its phis and instructions in order, and how it ends. -/
structure Block where
  id : BlockId
  phis : List ValueId
  instrs : List ValueId
  terminator : Terminator
  /-- The analysis has proved that control never enters the block. -/
  unreachable : Bool
deriving DecidableEq

/-- All values that stand in a block, the phis first. -/
def Block.members (b : Block) : List ValueId := b.phis ++ b.instrs

/-- How a value is computed. -/
inductive Opcode where
  | const (literal : Literal)
  | param (index : Nat)
  /-- One input for each block that control may come from. -/
  | phi (inputs : List (ValueId × BlockId))
  /-- The input itself, known to lie in the refinement where the instruction stands. -/
  | beta (input : ValueId) (refinement : Range)
  | binary (op : BinaryOp) (lhs rhs : ValueId) (flags : ArithFlags)
  | unary (op : UnaryOp) (operand : ValueId)
  | compare (op : CompareOp) (lhs rhs : ValueId)
  | arrayLength (array : ValueId)
  | typedArrayLength (array : ValueId)
  | loadElement (array index : ValueId)
  | loadTyped (array index : ValueId) (element : ElementType)
  | storeElement (array index stored : ValueId)
  /-- Passes when `index + minimum` is not negative and `index + maximum` is below the length;
  its value is the index. -/
  | boundsCheck (index length : ValueId) (minimum maximum : Int) (movable : Bool)
  /-- Passes when the index is at least `minimum`. -/
  | lowerCheck (index : ValueId) (minimum : Int)
  | call (callee : String) (args : List ValueId)
  /-- Passes when the input lies in the range; otherwise the analysis was wrong. -/
  | assertRange (input : ValueId) (range : Range)
deriving DecidableEq

namespace Opcode

/-- The values an opcode reads, in order. -/
def operands : Opcode → List ValueId
  | const _ | param _ => []
  | phi inputs => inputs.map Prod.fst
  | beta input _ | assertRange input _ => [input]
  | binary _ lhs rhs _ | compare _ lhs rhs => [lhs, rhs]
  | unary _ operand => [operand]
  | arrayLength array | typedArrayLength array => [array]
  | loadElement array index | loadTyped array index _ => [array, index]
  | storeElement array index stored => [array, index, stored]
  | boundsCheck index length _ _ _ => [index, length]
  | lowerCheck index _ => [index]
  | call _ args => args

/-- Applies a renaming to the values an opcode reads. -/
def mapOperands (g : ValueId → ValueId) : Opcode → Opcode
  | const literal => const literal
  | param index => param index
  | phi inputs => phi (inputs.map fun input => (g input.1, input.2))
  | beta input refinement => beta (g input) refinement
  | binary op lhs rhs flags => binary op (g lhs) (g rhs) flags
  | unary op operand => unary op (g operand)
  | compare op lhs rhs => compare op (g lhs) (g rhs)
  | arrayLength array => arrayLength (g array)
  | typedArrayLength array => typedArrayLength (g array)
  | loadElement array index => loadElement (g array) (g index)
  | loadTyped array index element => loadTyped (g array) (g index) element
  | storeElement array index stored => storeElement (g array) (g index) (g stored)
  | boundsCheck index length minimum maximum movable =>
    boundsCheck (g index) (g length) minimum maximum movable
  | lowerCheck index minimum => lowerCheck (g index) minimum
  | call callee args => call callee (args.map g)
  | assertRange input range => assertRange (g input) range

/-- Replaces the values an opcode reads, one after the other, by the results of an action on them. -/
def mapOperandsM {m : Type → Type} [Monad m] (act : ValueId → m ValueId) : Opcode → m Opcode
  | const literal => return const literal
  | param index => return param index
  | phi inputs => return phi (← inputs.mapM fun input => return (← act input.1, input.2))
  | beta input refinement => return beta (← act input) refinement
  | binary op lhs rhs flags => return binary op (← act lhs) (← act rhs) flags
  | unary op operand => return unary op (← act operand)
  | compare op lhs rhs => return compare op (← act lhs) (← act rhs)
  | arrayLength array => return arrayLength (← act array)
  | typedArrayLength array => return typedArrayLength (← act array)
  | loadElement array index => return loadElement (← act array) (← act index)
  | loadTyped array index element => return loadTyped (← act array) (← act index) element
  | storeElement array index stored =>
    return storeElement (← act array) (← act index) (← act stored)
  | boundsCheck index length minimum maximum movable =>
    return boundsCheck (← act index) (← act length) minimum maximum movable
  | lowerCheck index minimum => return lowerCheck (← act index) minimum
  | call callee args => return call callee (← args.mapM act)
  | assertRange input range => return assertRange (← act input) range

/-- Renaming touches exactly the values that the opcode lists. -/
theorem operands_mapOperands (g : ValueId → ValueId) (o : Opcode) :
    (o.mapOperands g).operands = o.operands.map g := by
  cases o <;> simp [mapOperands, operands]

/-- The opcode is a phi. -/
def isPhi : Opcode → Bool
  | phi _ => true
  | _ => false

/-- The opcode is a beta. -/
def isBeta : Opcode → Bool
  | beta _ _ => true
  | _ => false

end Opcode

/-- A value of a procedure. -/
structure Value where
  id : ValueId
  opcode : Opcode
  type : ValueType
  /-- The block the value stands in; none for a value that is not placed. -/
  block : Option BlockId
  /-- What the analysis has found out about the value. -/
  range : Option Range
deriving DecidableEq

/-- A procedure. -/
structure Procedure where
  name : String
  entry : BlockId
  blocks : Array Block
  values : Array Value
  /-- The analysis has given up on the procedure. -/
  unsupported : Bool
  /-- Why it has. -/
  reasons : List String
deriving DecidableEq

namespace Procedure

/-- The value with a given identifier. -/
def value (f : Procedure) (v : ValueId) : Except Fault Value :=
  match f.values[v]? with
  | some value => .ok value
  | none => .error (.missingValue v)

/-- The block with a given identifier. -/
def block (f : Procedure) (b : BlockId) : Except Fault Block :=
  match f.blocks[b]? with
  | some block => .ok block
  | none => .error (.missingBlock b)

/-- How a value is computed. -/
def opcode (f : Procedure) (v : ValueId) : Except Fault Opcode := return (← f.value v).opcode

/-- The type of a value. -/
def typeOf (f : Procedure) (v : ValueId) : Except Fault ValueType := return (← f.value v).type

/-- The integer of an integer constant. -/
def constInt? (f : Procedure) (v : ValueId) : Except Fault (Option Int) := do
  match ← f.opcode v with
  | .const (.int n) => return some n
  | _ => return none

/-- The number of a numeric constant. -/
def constNumber? (f : Procedure) (v : ValueId) : Except Fault (Option Number) := do
  match ← f.opcode v with
  | .const (.int n) => return some (.ofInt n)
  | .const (.double x) => return some x
  | _ => return none

/-- The block a value is defined in; values that are not placed count as defined in the entry. -/
def definitionBlock (f : Procedure) (v : ValueId) : Except Fault BlockId :=
  return (← f.value v).block.getD f.entry

/-- All values that stand in a block, the phis first. -/
def members (f : Procedure) (b : BlockId) : Except Fault (List ValueId) :=
  return (← f.block b).members

/-- The procedure with one value changed. -/
def modifyValue (f : Procedure) (v : ValueId) (g : Value → Value) : Procedure :=
  { f with values := f.values.modify v g }

/-- The procedure with one block changed. -/
def modifyBlock (f : Procedure) (b : BlockId) (g : Block → Block) : Procedure :=
  { f with blocks := f.blocks.modify b g }

/-- The procedure with another range for one value. -/
def setRange (f : Procedure) (v : ValueId) (range : Option Range) : Procedure :=
  f.modifyValue v fun value => { value with range := range }

/-- The procedure with one block marked as never entered. -/
def markUnreachable (f : Procedure) (b : BlockId) : Procedure :=
  f.modifyBlock b fun block => { block with unreachable := true }

end Procedure

end Rangefinder
