import Rangefinder.Analysis.Session
import Rangefinder.Analysis.Transfer

/-!
# Range assertions

Every number whose range says more than its type is followed by an assertion of the range, so that
a run of the procedure checks what the analysis has found.
-/

namespace Rangefinder

/-- The range of the value says something that its type does not. -/
def Value.isInformative (value : Value) (range : Range) : Bool :=
  !range.isUnknown && !(value.type == .int32 && range.isAnyInt32)

namespace Procedure

/-- The number of betas at the beginning of a list of instructions. -/
def leadingBetas (f : Procedure) : List ValueId → Except Fault Nat
  | [] => .ok 0
  | v :: rest => do
    if (← f.opcode v).isBeta then return (← f.leadingBetas rest) + 1 else return 0

/-- The position of an assertion about a value of a block: after the betas that follow the phis, or
after the value itself. -/
def assertionPosition (f : Procedure) (b : BlockId) (v : ValueId) (value : Value) :
    Except Fault (Option Nat) := do
  let instrs := (← f.block b).instrs
  if value.opcode.isPhi then return some (← f.leadingBetas instrs)
  else return (instrs.idxOf? v).map (· + 1)

end Procedure

namespace Session

/-- Follows a value of a block with an assertion of its range, if the range is informative. -/
def assertValue (b : BlockId) (s : Session) (v : ValueId) : Except Fault Session := do
  let f := s.procedure
  let value ← f.value v
  match value.range with
  | none => return s
  | some range =>
    if value.opcode.isBeta || !value.type.hasRange || !value.isInformative range then return s
    else
      match ← f.assertionPosition b v value with
      | none => return s
      | some position =>
        let (f, _) ← f.placeAt b position (.assertRange v range.numeric) .effect
        let stats := { s.stats with assertions := s.stats.assertions + 1 }
        return { s with procedure := f, stats := stats }

/-- Places the assertions of one block, unless control never enters it. -/
def assertBlock (s : Session) (b : BlockId) : Except Fault Session := do
  if s.procedure.isMarked b then return s
  else (← s.procedure.members b).foldlM (assertValue b) s

/-- Places assertions in all reachable blocks. -/
def addAssertions (s : Session) : Except Fault Session := s.graph.order.foldlM assertBlock s

end Session

end Rangefinder
