import Rangefinder.Diagnostic
import Rangefinder.Number.Decimal
import Rangefinder.Procedure.Basic
import Rangefinder.Range.Text
import Std.Data.HashMap

/-!
# The machine

The machine runs procedures on numbers. Every value has a slot; arrays live in a store and a slot
holds their place there. An array starts with each element equal to its index, so only the
elements that were written are kept.

A run ends in one of four ways: it returns, it leaves the procedure at a check that failed, it
fails because the procedure or what the analysis promised about it is wrong, or the machine itself
faults.
-/

namespace Rangefinder

/-- Why a run leaves the procedure at a check. -/
inductive Bailout where
  | int32Overflow
  | elementOutOfBounds
  | boundsCheck
  | lowerBoundsCheck
  | unsignedResult
  | inexactDivision
  | negativeZero
  | divisionByZero
deriving DecidableEq

/-- The reason in words. -/
def Bailout.reason : Bailout → String
  | int32Overflow => "int32 overflow"
  | elementOutOfBounds => "element out of bounds"
  | boundsCheck => "bounds check failed"
  | lowerBoundsCheck => "lower bounds check failed"
  | unsignedResult => "ursh result exceeds int32"
  | inexactDivision => "inexact int32 division"
  | negativeZero => "negative zero"
  | divisionByZero => "division by zero"

/-- Why a run fails. -/
inductive RunError where
  | missingBlock (block : BlockId)
  | strangerInPhis (value : ValueId)
  | missingInput (phi : ValueId) (block : BlockId)
  | unset (user value : ValueId)
  | notNumber (value : ValueId)
  | notArray (value : ValueId)
  | phiAsInstr (value : ValueId)
  | unreachable (block : BlockId)
  | nonIntegral (value : ValueId) (a b : Number)
  | uncheckedOverflow (value : ValueId) (result : Number)
  | unexpectedNegativeZero (value : ValueId)
  | unexpectedZeroDivisor (value : ValueId)
  /-- The input of a range assertion lies outside the range. -/
  | outsideRange (input : ValueId) (x : Number) (range : Range)
deriving DecidableEq

namespace RunError

/-- What went wrong, in words. -/
def message : RunError → String
  | missingBlock block => s!"jump to missing block {block}"
  | strangerInPhis _ => "non-phi in phi list"
  | missingInput phi block => s!"phi v{phi} has no input for block {block}"
  | unset _ value => s!"v{value} read before it was computed"
  | notNumber value => s!"v{value} is not a number"
  | notArray value => s!"v{value} is not an array"
  | phiAsInstr value => s!"phi v{value} listed as an instruction"
  | unreachable block => s!"reached the unreachable terminator of block {block}"
  | nonIntegral value a b =>
    s!"int32 op v{value} on non-integral operands " ++ a.toText ++ " and " ++ b.toText
  | uncheckedOverflow value result =>
    s!"unchecked int32 op v{value} overflowed to " ++ result.toText
  | unexpectedNegativeZero value =>
    s!"v{value} produced -0 but was marked as never negative zero"
  | unexpectedZeroDivisor value =>
    s!"v{value} divided by zero but was marked as never dividing by zero"
  | outsideRange input x range =>
    s!"v{input} = " ++ x.toText ++ " is outside " ++ range.toText

/-- The value at which the run failed. -/
def value : RunError → Option ValueId
  | missingBlock _ | unreachable _ => none
  | strangerInPhis v | missingInput v _ | unset v _ | notNumber v | notArray v | phiAsInstr v
  | nonIntegral v _ _ | uncheckedOverflow v _ | unexpectedNegativeZero v
  | unexpectedZeroDivisor v | outsideRange v _ _ => some v

/-- The report of a failed run. -/
def diagnostic (e : RunError) : Diagnostic :=
  let base := match e with
    | outsideRange _ _ _ => Diagnostic.new "RangeAssertionError" .assertion .eval e.message
    | _ => Diagnostic.new "InternalError" .internal .eval e.message
  { base with value := e.value }

end RunError

/-- How a run ends. -/
inductive Halt where
  | returned (result : Option Number)
  | bailout (value : ValueId) (reason : Bailout)
  | failed (error : RunError)
  | faulted (fault : Fault)
deriving DecidableEq

/-- The content of a value's slot. -/
inductive Slot where
  /-- The value has not been computed. -/
  | unset
  /-- The value was computed and is no number. -/
  | empty
  | number (x : Number)
  /-- The place of an array in the store. -/
  | array (place : Nat)
deriving DecidableEq, Inhabited

/-- An array: its length and the elements that differ from their index. -/
structure ArrayObject where
  length : Nat
  written : Std.HashMap Nat Number

namespace ArrayObject

/-- The element at an index. -/
def get (a : ArrayObject) (i : Nat) : Number := a.written.getD i (.ofInt i)

/-- The array with another element at an index. -/
def put (a : ArrayObject) (i : Nat) (x : Number) : ArrayObject :=
  { a with written := a.written.insert i x }

end ArrayObject

/-- The memory of a run. -/
structure Memory where
  slots : Array Slot
  store : Array ArrayObject

namespace Memory

/-- The memory at the start of a run of a procedure. -/
def initial (f : Procedure) : Memory := ⟨Array.replicate f.values.size .unset, #[]⟩

/-- The content of a slot that was computed, on behalf of a user. -/
def read (m : Memory) (user v : ValueId) : Except Halt Slot :=
  match m.slots[v]? with
  | none | some .unset => .error (.failed (.unset user v))
  | some slot => .ok slot

/-- The number in a slot. -/
def number (m : Memory) (v : ValueId) : Except Halt Number := do
  match ← m.read v v with
  | .number x => return x
  | _ => .error (.failed (.notNumber v))

/-- The place of the array in a slot, and the array. -/
def arrayAt (m : Memory) (v : ValueId) : Except Halt (Nat × ArrayObject) := do
  match ← m.read v v with
  | .array place =>
    match m.store[place]? with
    | some content => return (place, content)
    | none => .error (.faulted (.missingArray place))
  | _ => .error (.failed (.notArray v))

/-- The memory with another content in a slot. -/
def write (m : Memory) (v : ValueId) (slot : Slot) : Memory :=
  { m with slots := m.slots.setIfInBounds v slot }

end Memory

end Rangefinder
