import Rangefinder.Diagnostic
import Rangefinder.Flow.Dominators

/-!
# Well-formed procedures

A procedure is well-formed when its identifiers name blocks and values, every listed value stands
in the block that lists it, phis have one input for each predecessor, and in reachable code every
use is dominated by the definition it reads. `Procedure.verify` checks this and reports the first
violation; `Procedure.verifyBetaFree` also rejects betas.
-/

namespace Rangefinder

/-- A way in which a procedure is not well-formed. -/
inductive Violation where
  /-- The value's identifier is wrong. -/
  | badValue (value : ValueId)
  /-- The block's identifier is wrong. -/
  | badBlock (block : BlockId)
  /-- A value reads an operand that does not exist. -/
  | badOperand (value operand : ValueId)
  /-- A block branches on something that is no number and no truth value. -/
  | badTerminator (block : BlockId)
  /-- A value is listed in a block where it does not stand. -/
  | misplaced (block : BlockId) (value : ValueId)
  /-- A value is read where it need not have been computed. -/
  | useBeforeDefinition (block : BlockId) (value : ValueId)
  /-- A phi has another number of inputs than its block has predecessors. -/
  | phiArity (phi expected actual : Nat)
  /-- A phi has an input for a block that is no predecessor, or two for one block. -/
  | phiSource (phi : ValueId) (block : BlockId)
  /-- A beta is left. -/
  | strayBeta (value : ValueId)
deriving DecidableEq

namespace Violation

/-- What is wrong, in words. -/
def message : Violation → String
  | badValue value => s!"Invalid ValueId: {value}"
  | badBlock block => s!"Invalid BlockId: {block}"
  | badOperand value operand => s!"Value {value} uses unplaced or invalid operand {operand}"
  | badTerminator block => s!"Invalid Terminator in Block: {block}"
  | misplaced block value => s!"Value {value} is listed in Block {block} but placed elsewhere"
  | useBeforeDefinition block value => s!"Use before def in Block {block}: Value {value}"
  | phiArity phi expected actual =>
    s!"Phi {phi} has wrong arg count. Expected {expected}, got {actual}"
  | phiSource phi block => s!"Phi {phi} references invalid predecessor block {block}"
  | strayBeta value => s!"Beta {value} survived beta removal"

/-- The value that a violation concerns. -/
def value : Violation → Option ValueId
  | badValue value | strayBeta value => some value
  | badOperand value _ | misplaced _ value | useBeforeDefinition _ value => some value
  | phiArity phi _ _ | phiSource phi _ => some phi
  | badBlock _ | badTerminator _ => none

/-- The report of a violation found in a procedure at some point of the work on it. -/
def diagnostic (violation : Violation) (procedure point : String) : Diagnostic :=
  { (Diagnostic.new "VerifyError" .malformed .verify
      ("invalid MIR at " ++ point ++ ": " ++ violation.message)).note
        ("function: " ++ procedure) with
    value := violation.value }

end Violation

namespace Procedure

/-- The identifier names a block. -/
def checkBlockId (f : Procedure) (b : BlockId) : Except Violation Unit :=
  if b < f.blocks.size then .ok () else .error (.badBlock b)

/-- The identifier names a value. -/
def checkValueId (f : Procedure) (v : ValueId) : Except Violation Unit :=
  if v < f.values.size then .ok () else .error (.badValue v)

/-- The inputs of a phi come from blocks, each from another one. -/
def checkSources (f : Procedure) (phi : ValueId) :
    List (ValueId × BlockId) → List BlockId → Except Violation Unit
  | [], _ => .ok ()
  | (_, b) :: rest, seen => do
    f.checkBlockId b
    if b ∈ seen then .error (.phiSource phi b) else f.checkSources phi rest (b :: seen)

/-- The value carries its own identifier and its operands exist. -/
def checkValue (f : Procedure) (v : ValueId) (value : Value) : Except Violation Unit := do
  if value.id ≠ v then .error (.badValue v)
  match value.opcode.operands.find? fun operand => decide (f.values.size ≤ operand) with
  | some operand => .error (.badOperand v operand)
  | none => pure ()
  match value.opcode with
  | .phi inputs => f.checkSources v inputs []
  | _ => pure ()

/-- The type of a value that exists is one that a branch can test. -/
def isTestable (f : Procedure) (v : ValueId) : Bool :=
  match (f.values[v]?).map Value.type with
  | some .object | some .effect => false
  | _ => true

/-- The block carries its own identifier and its terminator refers to what exists. -/
def checkBlock (f : Procedure) (b : BlockId) (block : Block) : Except Violation Unit := do
  if block.id ≠ b then .error (.badBlock b)
  block.terminator.successors.forM f.checkBlockId
  block.terminator.operand.toList.forM f.checkValueId
  match block.terminator with
  | .branch cond _ _ => if f.isTestable cond then pure () else .error (.badTerminator b)
  | _ => pure ()

/-- The value stands in the given block. -/
def standsIn (f : Procedure) (v : ValueId) (b : BlockId) : Bool :=
  (f.values[v]?).any fun value => value.block == some b

/-- The value is a phi. -/
def isPhi (f : Procedure) (v : ValueId) : Bool :=
  (f.values[v]?).any fun value => value.opcode.isPhi

/-- The listed values exist, and they are phis or not as they should be. -/
def checkKinds (f : Procedure) (b : BlockId) (phis : Bool) : List ValueId → Except Violation Unit
  | [] => .ok ()
  | v :: rest => do
    f.checkValueId v
    if f.isPhi v = phis then f.checkKinds b phis rest else .error (.misplaced b v)

/-- The listed values stand in the block and were not listed before; the result is the list of
all values listed so far. -/
def checkMembers (f : Procedure) (b : BlockId) :
    List ValueId → List ValueId → Except Violation (List ValueId)
  | [], seen => .ok seen
  | v :: rest, seen =>
    if f.standsIn v b = true ∧ v ∉ seen then f.checkMembers b rest (v :: seen)
    else .error (.misplaced b v)

/-- Every value is listed at most once, in the block where it stands. -/
def checkPlacement (f : Procedure) :
    List (Block × BlockId) → List ValueId → Except Violation Unit
  | [], _ => .ok ()
  | (block, b) :: rest, seen => do
    f.checkKinds b true block.phis
    f.checkKinds b false block.instrs
    let seen ← f.checkMembers b block.members seen
    f.checkPlacement rest seen

/-- The value is computed whenever control reaches the end of the block. -/
def isDefinedAtEnd (f : Procedure) (g : FlowGraph) (v : ValueId) (b : BlockId) : Bool :=
  ((f.values[v]?).bind Value.block).any fun home => g.dominates home b

/-- The inputs of a phi come from the predecessors and are computed there. -/
def checkInputs (f : Procedure) (g : FlowGraph) (phi : ValueId) (preds : List BlockId) :
    List (ValueId × BlockId) → Except Violation Unit
  | [] => .ok ()
  | (input, source) :: rest =>
    if source ∉ preds then .error (.phiSource phi source)
    else if g.isReachable source = true ∧ f.isDefinedAtEnd g input source = false then
      .error (.useBeforeDefinition source input)
    else f.checkInputs g phi preds rest

/-- A phi has exactly one input for each predecessor of its block. -/
def checkPhi (f : Procedure) (g : FlowGraph) (preds : List BlockId) (phi : ValueId) :
    Except Violation Unit :=
  match (f.values[phi]?).map Value.opcode with
  | some (.phi inputs) =>
    if inputs.length ≠ preds.length then
      .error (.phiArity phi preds.length inputs.length)
    else f.checkInputs g phi preds inputs
  | _ => .ok ()

/-- The value can be read in the block after the members `before`: it is one of them, or it stands
in a block that dominates this one. -/
def checkRead (f : Procedure) (g : FlowGraph) (b : BlockId) (before : List ValueId) (v : ValueId) :
    Except Violation Unit := do
  f.checkValueId v
  match (f.values[v]?).bind Value.block with
  | none => .error (.useBeforeDefinition b v)
  | some home =>
    if (if home = b then before.contains v else g.dominates home b) then .ok ()
    else .error (.useBeforeDefinition b v)

/-- Each instruction reads only values that can be read at its place. -/
def checkInstrs (f : Procedure) (g : FlowGraph) (b : BlockId) :
    List ValueId → List ValueId → Except Violation Unit
  | [], _ => .ok ()
  | v :: rest, before => do
    let operands := ((f.values[v]?).map fun value => value.opcode.operands).getD []
    operands.forM (f.checkRead g b before)
    f.checkInstrs g b rest (before ++ [v])

/-- The uses in a reachable block are dominated by their definitions. -/
def checkUses (f : Procedure) (g : FlowGraph) (b : BlockId) : Except Violation Unit :=
  match f.blocks[b]? with
  | none => .ok ()
  | some block => do
    block.phis.forM (f.checkPhi g (g.predsOf b))
    f.checkInstrs g b block.instrs block.phis
    block.terminator.operand.toList.forM (f.checkRead g b block.members)

/-- The identifiers and the placement of values are right. -/
def checkStructure (f : Procedure) : Except Violation Unit := do
  f.checkBlockId f.entry
  f.values.toList.zipIdx.forM fun (value, v) => f.checkValue v value
  f.blocks.toList.zipIdx.forM fun (block, b) => f.checkBlock b block
  f.checkPlacement f.blocks.toList.zipIdx []

/-- Checks that a procedure is well-formed. -/
def verify (f : Procedure) : Except Fault (Except Violation Unit) :=
  match f.checkStructure with
  | .error violation => .ok (.error violation)
  | .ok () => do
    let g ← FlowGraph.build f
    return g.order.forM (f.checkUses g)

/-- The first beta among the instructions. -/
def strayBeta? (f : Procedure) : Option ValueId :=
  (f.blocks.toList.flatMap Block.instrs).find? fun v =>
    (f.values[v]?).any fun value => value.opcode.isBeta

/-- Checks that a procedure is well-formed and has no betas. -/
def verifyBetaFree (f : Procedure) : Except Fault (Except Violation Unit) := do
  match ← f.verify, f.strayBeta? with
  | .ok (), some v => return .error (.strayBeta v)
  | result, _ => return result

end Procedure

end Rangefinder
