import Rangefinder.Number.Decimal
import Rangefinder.Procedure.Basic

/-!
# Text of opcodes

The names of operations and the one-line description of an opcode in listings.
-/

namespace Rangefinder

/-- The name of a binary operation. -/
def BinaryOp.name : BinaryOp → String
  | add => "Add"
  | sub => "Sub"
  | mul => "Mul"
  | div => "Div"
  | mod => "Mod"
  | bitAnd => "BitAnd"
  | bitOr => "BitOr"
  | bitXor => "BitXor"
  | shiftLeft => "Lsh"
  | shiftRight => "Rsh"
  | shiftRightUnsigned => "Ursh"
  | minimum => "Min"
  | maximum => "Max"

/-- The name of a unary operation. -/
def UnaryOp.name : UnaryOp → String
  | bitNot => "BitNot"
  | abs => "Abs"
  | floor => "Floor"
  | ceil => "Ceil"
  | sqrt => "Sqrt"
  | toInt32 => "ToInt32"
  | toDouble => "ToDouble"

/-- The name of a comparison. -/
def CompareOp.name : CompareOp → String
  | lt => "Lt"
  | le => "Le"
  | gt => "Gt"
  | ge => "Ge"
  | eq => "Eq"
  | ne => "Ne"

/-- The name of an element type. -/
def ElementType.name : ElementType → String
  | int8 => "Int8"
  | uint8 => "Uint8"
  | uint8Clamped => "Uint8Clamped"
  | int16 => "Int16"
  | uint16 => "Uint16"
  | int32 => "Int32"
  | uint32 => "Uint32"
  | float32 => "Float32"
  | float64 => "Float64"

/-- Text of a constant. -/
def Literal.toText : Literal → String
  | int n => toString n
  | double x => x.toText
  | bool b => if b then "true" else "false"

/-- One-line description of an opcode. -/
def Opcode.toText : Opcode → String
  | const literal => "const " ++ literal.toText
  | param index => s!"param {index}"
  | phi _ => "phi"
  | beta input _ => s!"beta v{input}"
  | binary op lhs rhs _ => op.name ++ s!" v{lhs} v{rhs}"
  | unary op operand => op.name ++ s!" v{operand}"
  | compare op lhs rhs => "compare " ++ op.name ++ s!" v{lhs} v{rhs}"
  | arrayLength array => s!"length v{array}"
  | typedArrayLength array => s!"typedlength v{array}"
  | loadElement array index => s!"load v{array}[v{index}]"
  | loadTyped array index element => "load." ++ element.name ++ s!" v{array}[v{index}]"
  | storeElement array index stored => s!"store v{array}[v{index}] = v{stored}"
  | boundsCheck index length _ _ _ => s!"boundscheck v{index} < v{length}"
  | lowerCheck index minimum => s!"boundschecklower v{index} >= {minimum}"
  | call callee _ => "call " ++ callee
  | assertRange input _ => s!"assertrange v{input}"

end Rangefinder
