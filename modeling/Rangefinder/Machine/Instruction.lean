import Rangefinder.Machine.Basic
import Rangefinder.Number.Arithmetic

/-!
# Instructions of the machine

What each opcode computes. Numbers are doubles throughout; an int32 result is checked, reduced
modulo 2^32, or trusted to fit, as the flags of the instruction say.
-/

namespace Rangefinder

/-- The element of a typed array that holds a number after storing it in the array's format. -/
def ElementType.load : ElementType → Number → Number
  | int8, x => .ofInt (Int.bmod x.toInt32 256)
  | uint8, x => .ofInt (x.toInt32 % 256)
  | uint8Clamped, x =>
    if x.isNaN then .ofInt 0 else (x.clamp (.ofInt 0) (.ofInt 255)).roundEven
  | int16, x => .ofInt (Int.bmod x.toInt32 65536)
  | uint16, x => .ofInt (x.toInt32 % 65536)
  | int32, x => .ofInt x.toInt32
  | uint32, x => .ofInt (wrapUint32 x.toInt32)
  | float32, x => x.toSingle
  | float64, x => x

/-- The number is outside int32. -/
def Number.leavesInt32 (x : Number) : Bool := x.lt (.ofInt int32Min) || (Number.ofInt int32Max).lt x

/-- The result of a unary operation. -/
def UnaryOp.apply : UnaryOp → Number → Number
  | bitNot, a => .ofInt (Word.not a.toInt32)
  | abs, a => a.abs
  | floor, a => a.floor
  | ceil, a => a.ceil
  | sqrt, a => a.sqrt
  | toInt32, a => .ofInt a.toInt32
  | toDouble, a => a

/-- The result of an arithmetic operation on doubles. -/
def BinaryOp.onDoubles (op : BinaryOp) (a b : Number) : Number :=
  match op with
  | .add => a.add b
  | .sub => a.sub b
  | .mul => a.mul b
  | .div => a.div b
  | .mod => a.rem b
  | .minimum => a.minimum b
  | _ => a.maximum b

/-- The result of an arithmetic operation reduced modulo 2^32. -/
def BinaryOp.onWords (op : BinaryOp) (a b : Number) : Number :=
  let x := a.toInt32
  let y := b.toInt32
  .ofInt <| match op with
    | .add => wrapInt32 (x + y)
    | .sub => wrapInt32 (x - y)
    | .mul => wrapInt32 (x * y)
    | .div => (a.div b).toInt32
    | .mod => (a.rem b).toInt32
    | .minimum => min x y
    | _ => max x y

namespace Machine

/-- Leaves the procedure at a negative zero, which the flags must have announced. -/
def onNegativeZero (v : ValueId) (flags : ArithFlags) : Halt :=
  if flags.negativeZero then .bailout v .negativeZero else .failed (.unexpectedNegativeZero v)

/-- Leaves the procedure at a zero divisor, which the flags must have announced. -/
def onZeroDivisor (v : ValueId) (flags : ArithFlags) : Halt :=
  if flags.divideByZero then .bailout v .divisionByZero else .failed (.unexpectedZeroDivisor v)

/-- The result of a bitwise operation. An unsigned shift is an int32 only where its result is
one, or where the instruction reads it as one. -/
def bitwise (v : ValueId) (op : BinaryOp) (a b : Number) (flags : ArithFlags)
    (type : ValueType) : Except Halt Number :=
  let x := a.toInt32
  let y := b.toInt32
  let shift := Word.shiftCount y
  match op with
  | .bitAnd => .ok (.ofInt (Word.and x y))
  | .bitOr => .ok (.ofInt (Word.or x y))
  | .bitXor => .ok (.ofInt (Word.xor x y))
  | .shiftLeft => .ok (.ofInt (Word.shiftLeft x shift))
  | .shiftRight => .ok (.ofInt (Word.shiftRight x shift))
  | _ =>
    let u : Int := Word.shiftRightUnsigned x shift
    if type ≠ .int32 then .ok (.ofInt u)
    else if int32Max < u ∧ flags.fallible = true then .error (.bailout v .unsignedResult)
    else .ok (.ofInt (wrapInt32 u))

/-- The exact result of an int32 operation on integral numbers, before it is checked against
int32. -/
def exactInt32 (v : ValueId) (op : BinaryOp) (a b : Number) (flags : ArithFlags) :
    Except Halt Number :=
  let isZero (x : Number) : Bool := x.equal (.ofInt 0)
  let isNegative (x : Number) : Bool := x.lt (.ofInt 0)
  match op with
  | .add => .ok (a.add b)
  | .sub => .ok (a.sub b)
  | .mul =>
    let p := a.toInt64 * b.toInt64
    if ¬ IsInt64 p then .error (.faulted .wideOverflow)
    else if p = 0 ∧ (isNegative a || isNegative b) then .error (onNegativeZero v flags)
    else .ok (Number.ofRat p)
  | .div =>
    if isZero b then .error (onZeroDivisor v flags)
    else if isZero a && isNegative b then .error (onNegativeZero v flags)
    else if !isZero (a.rem b) then .error (.bailout v .inexactDivision)
    else .ok (a.div b)
  | .mod =>
    if isZero b then .error (onZeroDivisor v flags)
    else
      let r := a.rem b
      if isZero r && isNegative a then .error (onNegativeZero v flags) else .ok r
  | .minimum => .ok (a.minimum b)
  | _ => .ok (a.maximum b)

/-- The result of an int32 operation that is neither bitwise nor reduced modulo 2^32. -/
def checkedInt32 (v : ValueId) (op : BinaryOp) (a b : Number) (flags : ArithFlags) :
    Except Halt Number :=
  if a.isIntegral && b.isIntegral then do
    let r ← exactInt32 v op a b flags
    if r.leavesInt32 then
      if flags.fallible || op == .div || op == .mod then .error (.bailout v .int32Overflow)
      else .error (.failed (.uncheckedOverflow v r))
    else return r
  else .error (.failed (.nonIntegral v a b))

/-- The result of a binary operation. -/
def binary (v : ValueId) (op : BinaryOp) (a b : Number) (flags : ArithFlags)
    (type : ValueType) : Except Halt Number :=
  if op.isBitwise then bitwise v op a b flags type
  else if type ≠ .int32 then .ok (op.onDoubles a b)
  else if flags.wrapping then .ok (op.onWords a b)
  else checkedInt32 v op a b flags

/-- The result of a unary operation. -/
def unary (v : ValueId) (op : UnaryOp) (a : Number) (type : ValueType) : Except Halt Number :=
  let r := op.apply a
  if type = .int32 ∧ (!r.isIntegral || r.leavesInt32) then .error (.bailout v .int32Overflow)
  else .ok r

/-- The length of the array that an argument stands for. -/
def argumentLength (x : Number) : Nat :=
  if x.isNaN then 0 else ((x.clamp (.ofInt 0) (.ofInt 10000000)).toRat).floor.toNat

/-- The content of a parameter's slot for an argument, and the memory with the array that the
argument may stand for. -/
def parameter (m : Memory) (x : Number) : ValueType → Memory × Slot
  | .object =>
    ({ m with store := m.store.push ⟨argumentLength x, ∅⟩ }, .array m.store.size)
  | .int32 => (m, .number (.ofInt x.toInt32))
  | .boolean => (m, .number (.ofBool x.isTruthy))
  | _ => (m, .number x)

/-- The place and the content of the array and the position in it that an instruction refers to;
leaves the procedure when there is no such position. -/
def element (m : Memory) (v array index : ValueId) : Except Halt (Nat × ArrayObject × Nat) := do
  let (place, content) ← m.arrayAt array
  let i ← m.number index
  if !i.isIntegral || i.lt (.ofInt 0) || !i.lt (.ofInt content.length) then
    .error (.bailout v .elementOutOfBounds)
  else
    let position := i.toRat.floor.toNat
    if position < content.length then return (place, content, position)
    else .error (.faulted (.missingElement position))

/-- Computes a value: the memory afterwards and the content of the value's slot. -/
def compute (args : List Number) (m : Memory) (v : ValueId) (type : ValueType) :
    Opcode → Except Halt (Memory × Slot)
  | .const literal => return (m, .number literal.toNumber)
  | .param index => return parameter m (args[index]?.getD (.ofInt 0)) type
  | .phi _ => .error (.failed (.phiAsInstr v))
  | .beta input _ => return (m, ← m.read v input)
  | .binary op lhs rhs flags => do
    let a ← m.number lhs
    let b ← m.number rhs
    return (m, .number (← binary v op a b flags type))
  | .unary op operand => do return (m, .number (← unary v op (← m.number operand) type))
  | .compare op lhs rhs => do
    let a ← m.number lhs
    let b ← m.number rhs
    return (m, .number (.ofBool (op.holds a b)))
  | .arrayLength array | .typedArrayLength array => do
    let (_, content) ← m.arrayAt array
    return (m, .number (.ofInt content.length))
  | .loadElement array index => do
    let (_, content, i) ← element m v array index
    return (m, .number (content.get i))
  | .loadTyped array index type => do
    let (_, content, i) ← element m v array index
    return (m, .number (type.load (content.get i)))
  | .storeElement array index stored => do
    let x ← m.number stored
    let (place, content, i) ← element m v array index
    return ({ m with store := m.store.setIfInBounds place (content.put i x) }, .empty)
  | .boundsCheck index length minimum maximum _ => do
    let i ← m.number index
    let n ← m.number length
    if (Number.ofInt 0).le (i.add (.ofInt minimum)) && (i.add (.ofInt maximum)).lt n then
      return (m, .number i)
    else .error (.bailout v .boundsCheck)
  | .lowerCheck index minimum => do
    if (Number.ofInt minimum).le (← m.number index) then return (m, .empty)
    else .error (.bailout v .lowerBoundsCheck)
  | .call _ args => do
    match args with
    | first :: _ => return (m, ← m.read v first)
    | [] => return (m, .number (.ofInt 0))
  | .assertRange input range => do
    let x ← m.number input
    if range.contains x then return (m, .empty)
    else .error (.failed (.outsideRange input x range))

end Machine

end Rangefinder
