import Rangefinder.Analysis.LoopBounds

/-!
# Bounds checks moved out of loops

A bounds check whose index is a bounded phi plus a constant need not be made in every round: two
checks before the loop, of the least and the greatest index, cover all rounds.
-/

namespace Rangefinder

namespace Procedure

/-- Places a new instruction at the end of a block and computes its range. -/
def emit (f : Procedure) (g : FlowGraph) (b : BlockId) (opcode : Opcode) (type : ValueType) :
    Except Fault (Procedure × ValueId) := do
  let (f, v) ← f.appendInstr b opcode type
  return (← f.refresh g v, v)

/-- Places an integer constant at the end of a block. -/
def emitInt (f : Procedure) (g : FlowGraph) (b : BlockId) (n : Int) :
    Except Fault (Procedure × ValueId) :=
  f.emit g b (.const (.int n)) .int32

/-- Places checked int32 arithmetic at the end of a block. -/
def emitArith (f : Procedure) (g : FlowGraph) (b : BlockId) (op : BinaryOp) (lhs rhs : ValueId) :
    Except Fault (Procedure × ValueId) :=
  f.emit g b (.binary op lhs rhs .checked) .int32

/-- Places the arithmetic that adds a term to what was computed so far. -/
def emitTerm (f : Procedure) (g : FlowGraph) (b : BlockId) (t : LinearTerm) :
    Option ValueId → Except Fault (Procedure × ValueId)
  | none =>
    if t.scale = 1 then .ok (f, t.term)
    else if t.scale = -1 then do
      let (f, base) ← f.emitInt g b 0
      f.emitArith g b .sub base t.term
    else do
      let (f, factor) ← f.emitInt g b t.scale
      f.emitArith g b .mul t.term factor
  | some sum =>
    if t.scale = 1 then f.emitArith g b .add sum t.term
    else if t.scale = -1 then f.emitArith g b .sub sum t.term
    else do
      let (f, factor) ← f.emitInt g b t.scale
      let (f, product) ← f.emitArith g b .mul t.term factor
      f.emitArith g b .add sum product

/-- Places the arithmetic that computes the given terms and adds them to what was computed so
far. -/
def emitTerms (f : Procedure) (g : FlowGraph) (b : BlockId) :
    List LinearTerm → Option ValueId → Except Fault (Procedure × ValueId)
  | [], some sum => .ok (f, sum)
  | [], none => f.emitInt g b 0
  | t :: rest, sum => do
    let (f, sum) ← f.emitTerm g b t sum
    f.emitTerms g b rest (some sum)

end Procedure

namespace Session

/-- A symbolic bound holds at a check: it holds everywhere, or the test that it is tied to is
passed on the way from the header of the loop to the check. -/
def boundHoldsAt (s : Session) (l : SimpleLoop) (check : ValueId) (bound : SymbolicBound) :
    Except Fault Bool := do
  match bound.loopBound with
  | none => return true
  | some id =>
    let test := (← s.arena.loopBound id).test
    let home ← s.procedure.definitionBlock check
    if home = l.header then return false
    else
      let stop := (s.graph.dominators home).tail.find? fun b => b == test || b == l.header
      return stop == some test

/-- The two checks that replace a bounds check. -/
structure HoistedCheck where
  /-- The least index is this sum without its constant. -/
  lower : LinearSum
  /-- The least value of that. -/
  lowerLimit : Int
  /-- The greatest index is this sum without its constant. -/
  upper : LinearSum
  /-- What is added to it before it is compared with the length. -/
  upperOffset : Int
  length : ValueId

/-- The checks that may replace a bounds check in a loop: the length is fixed in the loop, and the
index is a value with symbolic bounds, plus a constant. -/
def planHoist (s : Session) (l : SimpleLoop) (check : ValueId) : Attempt HoistedCheck := do
  let f := s.procedure
  match ← f.opcode check with
  | .boundsCheck index length minimum maximum _ =>
    Attempt.require ((← f.block l.preheader).terminator == .goto l.header)
    Attempt.require (!(← l.loop.defines f length))
    let index ← f.offset index
    let term ← Attempt.some? index.term
    Attempt.require (← l.loop.defines f term)
    let range ← Attempt.some? (← f.value term).range
    let lower ← Attempt.some? range.symbolicLower
    let upper ← Attempt.some? range.symbolicUpper
    let lower ← s.arena.symbolic lower
    Attempt.require (← s.boundHoldsAt l check lower)
    let upper ← s.arena.symbolic upper
    Attempt.require (← s.boundHoldsAt l check upper)
    let lowerLimit ← Attempt.some? do
      checkInt32 ((← checkInt32 ((← checkInt32 (0 - index.constant)) - minimum)) -
        lower.sum.constant)
    let upperOffset ← Attempt.some? do
      checkInt32 ((← checkInt32 (upper.sum.constant + index.constant)) + maximum)
    return ⟨lower.sum, lowerLimit, upper.sum, upperOffset, length⟩
  | _ => failure

/-- Places the checks that replace a bounds check at the end of the block before a loop. -/
def placeChecks (f : Procedure) (g : FlowGraph) (b : BlockId) (plan : HoistedCheck) :
    Except Fault Procedure := do
  let (f, lower) ← f.emitTerms g b plan.lower.terms none
  let (f, upper) ← f.emitTerms g b plan.upper.terms none
  let (f, _) ← f.appendInstr b (.lowerCheck lower plan.lowerLimit) .effect
  let (f, _) ← f.emit g b
    (.boundsCheck upper plan.length plan.upperOffset plan.upperOffset false) .int32
  return f

/-- Places checks before a loop for each of the given checks that can be replaced; the result has
the checks that were. -/
def hoistChecks (l : SimpleLoop) :
    List ValueId → Session → Except Fault (Session × List ValueId)
  | [], s => .ok (s, [])
  | check :: rest, s => do
    match ← (s.planHoist l check).run with
    | none => hoistChecks l rest s
    | some plan =>
      let f ← placeChecks s.procedure s.graph l.preheader plan
      let (s, hoisted) ← hoistChecks l rest { s with procedure := f }
      return (s, check :: hoisted)

/-- Removes checks that were replaced; what stands behind them reads the index directly. -/
def dropChecks : List ValueId → Session → Except Fault Session
  | [], s => .ok s
  | check :: rest, s => do
    match ← s.procedure.opcode check with
    | .boundsCheck index _ _ _ _ =>
      let (f, _) ← s.procedure.moveUses check index
      let f ← f.detach check
      let stats := { s.stats with hoistedChecks := s.stats.hoistedChecks + 1 }
      dropChecks rest { s with procedure := f, stats := stats }
    | _ => dropChecks rest s

/-- The bounds checks among the given instructions that may be moved. -/
def movableChecks (f : Procedure) : List ValueId → Except Fault (List ValueId)
  | [] => .ok []
  | v :: rest => do
    let others ← movableChecks f rest
    match ← f.opcode v with
    | .boundsCheck _ _ _ _ true => return v :: others
    | _ => return others

/-- Moves the bounds checks of a loop before it, where that is possible. -/
def hoist (s : Session) (l : SimpleLoop) : Except Fault Session := do
  let blocks := s.graph.order.filter l.loop.contains
  let instrs := blocks.flatMap fun b => ((s.procedure.blocks[b]?).map Block.instrs).getD []
  let checks ← movableChecks s.procedure instrs
  let (s, hoisted) ← hoistChecks l checks s
  dropChecks hoisted s

/-- Finds a bound on the rounds of a loop, and uses it for the phis of the header and for the
bounds checks in the loop. -/
def boundLoop (s : Session) (l : Loop) : Except Fault StageResult := do
  if s.procedure.isMarked l.header then return (s, none)
  else
    match SimpleLoop.ofLoop? l with
    | none => return (s, none)
    | some l =>
      match ← l.bound s.procedure s.graph with
      | none => return (s, none)
      | some (test, sum) =>
        match s.arena.addLoopBound? ⟨l.header, test, sum⟩ with
        | none => return (s, some (.arenaFull s.arena.capacity))
        | some (arena, id) =>
          let stats := { s.stats with loopBounds := s.stats.loopBounds + 1 }
          let phis := (← s.procedure.block l.header).phis
          match ← forEach (boundPhi l id sum) phis { s with arena := arena, stats := stats } with
          | (s, some e) => return (s, some e)
          | (s, none) =>
            if s.config.hoistChecks then return (← s.hoist l, none) else return (s, none)

end Session

end Rangefinder
