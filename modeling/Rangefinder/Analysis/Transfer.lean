import Rangefinder.Flow.Dominators
import Rangefinder.Range.Arithmetic
import Rangefinder.Range.Bitwise

/-!
# Ranges of values

The range of a value in terms of the ranges that its operands have at the moment. Arithmetic that
may leave int32 keeps the range that it has without overflow, so that the range tells whether an
overflow can happen; all other int32 values are confined to int32.
-/

namespace Rangefinder

/-- The range of the numbers that a typed array holds. -/
def ElementType.range (element : ElementType) (type : ValueType) : Except Fault Range :=
  match element with
  | .int8 => Range.int32 (-128) 127
  | .uint8 | .uint8Clamped => Range.int32 0 255
  | .int16 => Range.int32 (-32768) 32767
  | .uint16 => Range.int32 0 65535
  | .int32 => Range.int32 int32Min int32Max
  | .uint32 => Range.uint32 0 uint32Max
  | .float32 | .float64 => .ok type.range

/-- The range of a constant. -/
def Literal.range : Literal → Except Fault Range
  | int n => Range.int32 n n
  | double x => Range.ofNumber x
  | bool b => if b then Range.int32 1 1 else Range.int32 0 0

/-- The range of a binary operation on two ranges; a shift count that is a constant is given as
well. -/
def BinaryOp.range (op : BinaryOp) (l r : Range) (type : ValueType) (shift : Option Int) :
    Except Fault Range :=
  match op with
  | .add => l.add r
  | .sub => l.sub r
  | .mul => l.mul r
  | .div => l.div r (type == .int32)
  | .mod => l.mod r
  | .bitAnd => l.and r
  | .bitOr => l.or r
  | .bitXor => l.xor r
  | .shiftLeft => match shift with
    | some c => l.shiftLeftBy c
    | none => l.shiftLeft r
  | .shiftRight => match shift with
    | some c => l.shiftRightBy c
    | none => l.shiftRight r
  | .shiftRightUnsigned => match shift with
    | some c => l.shiftRightUnsignedBy c
    | none => l.shiftRightUnsigned r
  | .minimum => l.minimum r
  | .maximum => l.maximum r

/-- The range of a unary operation on a range. -/
def UnaryOp.range (op : UnaryOp) (r : Range) : Except Fault Range :=
  match op with
  | .bitNot => r.not
  | .abs => r.abs
  | .floor | .ceil => r.rounded
  | .sqrt => r.sqrt
  | .toInt32 => r.wrapToInt32
  | .toDouble => .ok r

/-- The range of an index that has passed a bounds check: it is at least `-minimum` and at most
the greatest length less `1 + maximum`. A check that can never pass proves nothing. -/
def Range.ofBoundsCheck (index length : Range) (minimum maximum : Int) : Except Fault Range :=
  let upper := (length.upper.map fun h => h - 1 - maximum).getD noUpperBound
  if upper < -minimum then .ok index
  else do
    let passing ← Range.between (-minimum) upper false int32Exponent
    return (← index.intersect passing).getD index

/-- Arithmetic whose int32 range may go beyond int32. -/
def Opcode.mayOverflow : Opcode → Bool
  | binary op _ _ flags => op.isArithmetic && !flags.wrapping
  | unary op _ => op == .abs
  | _ => false

/-- The range of a value confined to what its type can hold. -/
def Value.confine (value : Value) (r : Range) : Except Fault Range :=
  match value.type with
  | .int32 => if value.opcode.mayOverflow then .ok r else r.clipToInt32
  | .boolean => r.wrapToBoolean
  | _ => .ok r

namespace Procedure

/-- The range of a value where it is read: the range found so far, or that of its type, confined
to what the type can hold. -/
def rangeRead (f : Procedure) (v : ValueId) : Except Fault Range := do
  let value ← f.value v
  let r := (value.range.map Range.numeric).getD value.type.range
  match value.type with
  | .int32 => r.clipToInt32
  | .boolean => r.wrapToBoolean
  | _ => return r

/-- The block is marked as never entered. -/
def isMarked (f : Procedure) (b : BlockId) : Bool := (f.blocks[b]?).any Block.unreachable

/-- The union of the inputs of a phi that arrive from blocks that can be entered and have a range
already. -/
def inputRange (f : Procedure) (g : FlowGraph) :
    List (ValueId × BlockId) → Option Range → Except Fault (Option Range)
  | [], found => .ok found
  | (input, source) :: rest, found =>
    if !g.isReachable source || f.isMarked source then f.inputRange g rest found
    else do
      if (← f.value input).range.isNone then f.inputRange g rest found
      else
        let r ← f.rangeRead input
        match found with
        | none => f.inputRange g rest (some r)
        | some s => f.inputRange g rest (some (← s.union r))

/-- The range of a binary instruction. An unsigned shift read as int32 also has negative results,
and a result reduced modulo 2^32 may be any int32 once it leaves int32. -/
def rangeOfBinary (f : Procedure) (type : ValueType) (op : BinaryOp) (lhs rhs : ValueId)
    (flags : ArithFlags) : Except Fault Range := do
  let l ← f.rangeRead lhs
  let r ← f.rangeRead rhs
  let result ← op.range l r type (← f.constInt? rhs)
  if type = .int32 then
    let result ←
      (if op = .shiftRightUnsigned ∧ result.upper.isNone then result.extendToNegative
      else pure result)
    if flags.wrapping then result.wrapToInt32 else return result
  else return result

/-- The range that the opcode of a value gives it, before it is confined to the type of the value;
nothing for values that are no numbers, and for phis without inputs that have a range. -/
def opcodeRange (f : Procedure) (g : FlowGraph) (value : Value) : Except Fault (Option Range) :=
  match value.opcode with
  | .const literal => some <$> literal.range
  | .param _ | .call _ _ | .loadElement _ _ => .ok (some value.type.range)
  | .phi inputs => f.inputRange g inputs none
  | .beta input refinement => do
    let r ← f.rangeRead input
    return some ((← r.intersect refinement).getD r)
  | .binary op lhs rhs flags => some <$> f.rangeOfBinary value.type op lhs rhs flags
  | .unary op operand => do return some (← op.range (← f.rangeRead operand))
  | .compare _ _ _ => some <$> Range.int32 0 1
  | .arrayLength _ | .typedArrayLength _ => some <$> Range.int32 0 int32Max
  | .loadTyped _ _ element => some <$> element.range value.type
  | .boundsCheck index length minimum maximum _ => do
    let i ← f.rangeRead index
    let n ← f.rangeRead length
    some <$> Range.ofBoundsCheck i n minimum maximum
  | .storeElement _ _ _ | .lowerCheck _ _ | .assertRange _ _ => .ok none

/-- The range of a value from the current ranges of its operands. -/
def rangeOf (f : Procedure) (g : FlowGraph) (v : ValueId) : Except Fault (Option Range) := do
  let value ← f.value v
  if value.type.hasRange then
    match ← f.opcodeRange g value with
    | some r => some <$> value.confine r
    | none => return none
  else return none

/-- Brings the range of a value up to date. A beta whose refinement shares no number with its input
proves that its block is never entered. -/
def refresh (f : Procedure) (g : FlowGraph) (v : ValueId) : Except Fault Procedure := do
  let value ← f.value v
  match value.opcode with
  | .beta input refinement =>
    let r ← f.rangeRead input
    match ← r.intersect refinement with
    | some s => return f.setRange v (some (← value.confine s))
    | none =>
      let confined ← value.confine r
      match value.block with
      | none => return f.setRange v (some confined)
      | some b =>
        let _ ← f.block b
        return (f.markUnreachable b).setRange v (some confined)
  | _ => return f.setRange v (← f.rangeOf g v)

end Procedure

end Rangefinder
