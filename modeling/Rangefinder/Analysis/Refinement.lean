import Rangefinder.Analysis.Session

/-!
# Refinement by branches

A block that is entered only over one side of a comparison knows the outcome of the comparison.
Betas put this knowledge into the procedure: a beta stands at the top of such a block, refines a
compared value by what the outcome proves about it, and takes over its uses in the blocks that
are entered only through this one.
-/

namespace Rangefinder

namespace Procedure

/-- Moves the uses of a value that lie in code dominated by a block to a beta of that value. An
input of a phi counts as used at the end of the block that it comes from. -/
def redirectPhis (g : FlowGraph) (old beta : ValueId) (dom : BlockId) :
    List ValueId → Procedure → Except Fault Procedure
  | [], f => .ok f
  | phi :: rest, f => do
    match ← f.opcode phi with
    | .phi inputs =>
      let inputs := inputs.map fun (input, source) =>
        (if input = old ∧ g.dominates dom source = true then beta else input, source)
      redirectPhis g old beta dom rest
        (f.modifyValue phi fun value => { value with opcode := .phi inputs })
    | _ => redirectPhis g old beta dom rest f

/-- Moves the uses of a value in the given instructions to a beta of that value. -/
def redirectInstrs (old beta : ValueId) : List ValueId → Procedure → Except Fault Procedure
  | [], f => .ok f
  | v :: rest, f =>
    if v = beta then redirectInstrs old beta rest f
    else do
      let _ ← f.value v
      redirectInstrs old beta rest <| f.modifyValue v fun value =>
        { value with opcode := value.opcode.mapOperands (substitute old beta) }

/-- Moves the uses of a value in the given blocks to a beta of that value, as far as the block of
the beta dominates them. -/
def redirectBlocks (g : FlowGraph) (old beta : ValueId) (dom : BlockId) :
    List BlockId → Procedure → Except Fault Procedure
  | [], f => .ok f
  | b :: rest, f => do
    let block ← f.block b
    let f ← redirectPhis g old beta dom block.phis f
    if g.dominates dom b then
      let f ← redirectInstrs old beta block.instrs f
      redirectBlocks g old beta dom rest <| f.modifyBlock b fun block =>
        { block with terminator := block.terminator.mapOperand (substitute old beta) }
    else redirectBlocks g old beta dom rest f

end Procedure

/-- The bound of a strict comparison of an integer with a constant, moved by one so that the
comparison becomes a weak one; other bounds stay as they are. -/
def strictBound (isInteger : Bool) (bound : Number) (delta : Int) : Number :=
  match isInteger, bound with
  | true, .finite x =>
    if x.den = 1 ∧ IsInt32 x.num then
      match checkInt32 (x.num + delta) with
      | some n => .ofInt n
      | none => bound
    else bound
  | true, .negZero => .ofInt delta
  | _, _ => bound

/-- The range of the numbers that compare with a constant in the given way; none for inequality,
which leaves two pieces. -/
def CompareOp.refinement (op : CompareOp) (isInteger : Bool) (bound : Number) :
    Except Fault (Option Range) :=
  match op with
  | .le => some <$> Range.betweenNumbers .negInf bound
  | .lt => some <$> Range.betweenNumbers .negInf (strictBound isInteger bound (-1))
  | .ge => some <$> Range.betweenNumbers bound .posInf
  | .gt => some <$> Range.betweenNumbers (strictBound isInteger bound 1) .posInf
  | .eq => some <$> Range.betweenNumbers bound bound
  | .ne => .ok none

/-- The refinements that a comparison with the given outcome proves, in the order in which their
betas are placed. A comparison with a constant refines the other side; the side that is taken when
it fails also admits NaN. A strict comparison of two int32 values moves each of them off the
opposite end of int32. -/
def Procedure.refinements (f : Procedure) (op : CompareOp) (lhs rhs : ValueId) (taken : Bool) :
    Except Fault (List (ValueId × Range)) := do
  let left ← f.typeOf lhs
  let right ← f.typeOf rhs
  if !left.isNumber || !right.isNumber then return []
  else
    let op := if taken then op else op.negate
    let against (v : ValueId) (op : CompareOp) (bound : Number) :
        Except Fault (List (ValueId × Range)) := do
      let isInteger := (← f.typeOf v) == .int32
      match ← op.refinement isInteger bound with
      | none => return []
      | some r => return [(v, if !taken && !isInteger then r.withNaN else r)]
    match ← f.constNumber? lhs with
    | some c => against rhs op.reverse c
    | none =>
      match ← f.constNumber? rhs with
      | some c => against lhs op c
      | none =>
        let below ← Range.int32 int32Min (int32Max - 1)
        let above ← Range.int32 (int32Min + 1) int32Max
        if left = .int32 ∧ right = .int32 then
          match op with
          | .lt => return [(lhs, below), (rhs, above)]
          | .gt => return [(rhs, below), (lhs, above)]
          | _ => return []
        else return []

namespace Session

/-- Places a beta at the top of a block. -/
def placeBeta (b : BlockId) (s : Session) (refinement : ValueId × Range) :
    Except Fault StageResult := do
  let (input, range) := refinement
  let value ← s.procedure.value input
  if value.block.isNone then return (s, some (.detachedTest b input))
  else
    let (f, beta) ← s.procedure.placeAt b 0 (.beta input range) value.type
    let f ← Procedure.redirectBlocks s.graph input beta b (List.range f.blocks.size) f
    let stats := { s.stats with betasInserted := s.stats.betasInserted + 1 }
    return ({ s with procedure := f, stats := stats }, none)

/-- Places the betas of a block that is entered only over one side of a comparison. -/
def refineBlock (s : Session) (b : BlockId) : Except Fault StageResult := do
  let f := s.procedure
  match s.graph.decidingBranch f b with
  | none => return (s, none)
  | some test =>
    match (← f.block test).terminator with
    | .branch cond onTrue _ =>
      match ← f.opcode cond with
      | .compare op lhs rhs =>
        let refinements ← f.refinements op lhs rhs (onTrue == b)
        forEach (placeBeta b) refinements s
      | _ => return (s, none)
    | _ => return (s, none)

/-- Places betas in all blocks that know the outcome of a comparison. -/
def addBetas (s : Session) : Except Fault StageResult := forEach refineBlock s.graph.order s

/-- The betas among the given instructions. -/
def betasAmong (f : Procedure) : List ValueId → Except Fault (List ValueId)
  | [] => .ok []
  | v :: rest => do
    let opcode ← f.opcode v
    let others ← betasAmong f rest
    return if opcode.isBeta then v :: others else others

/-- Removes betas; their uses go back to what they refine. -/
def dropBetas : List ValueId → Session → Except Fault Session
  | [], s => .ok s
  | beta :: rest, s => do
    match ← s.procedure.opcode beta with
    | .beta input _ =>
      let (f, _) ← s.procedure.moveUses beta input
      let f ← f.detach beta
      let stats := { s.stats with betasRemoved := s.stats.betasRemoved + 1 }
      dropBetas rest { s with procedure := f, stats := stats }
    | _ => dropBetas rest s

/-- Removes all betas. -/
def removeBetas (s : Session) : Except Fault Session := do
  let betas ← betasAmong s.procedure (s.procedure.blocks.toList.flatMap Block.instrs)
  dropBetas betas s

end Session

end Rangefinder
