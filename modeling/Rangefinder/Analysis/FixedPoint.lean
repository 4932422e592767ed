import Rangefinder.Analysis.Session
import Rangefinder.Analysis.Transfer

/-!
# The fixed point of ranges

Ranges are computed by passes over the blocks in reverse postorder. A phi with an input from a
block that lies later in this order takes part in a loop: its range is only ever enlarged, and
after a number of passes every part of it that still grows is given up at once. The passes end
when no such phi changes.
-/

namespace Rangefinder

namespace Range

/-- The lower endpoint of a range, unless it lies below that of an earlier pass. -/
def stableLower (old new : Range) : Int :=
  match new.lower with
  | some l => if old.lo ≤ l then l else noLowerBound
  | none => noLowerBound

/-- The upper endpoint of a range, unless it lies above that of an earlier pass. -/
def stableUpper (old new : Range) : Int :=
  match new.upper with
  | some h => if h ≤ old.hi then h else noUpperBound
  | none => noUpperBound

/-- The exponent of a range, or that of the infinities if it has grown since an earlier pass. -/
def stableExponent (old new : Range) : Nat :=
  if old.exponent < new.exponent then max new.exponent infinityExponent else new.exponent

/-- Gives up every part of a range that has grown since an earlier pass: a bound that moved is
dropped, and a greater exponent becomes that of the infinities. -/
def widen (old new : Range) : Except Fault Range :=
  between (stableLower old new) (stableUpper old new) new.fractional (stableExponent old new)

end Range

namespace Procedure

/-- Control never enters the block: its dominator, or every predecessor, is never entered. -/
def isDead (f : Procedure) (g : FlowGraph) (b : BlockId) : Bool :=
  if b = f.entry then false
  else
    let preds := (g.predsOf b).filter g.isReachable
    (g.idom b).any f.isMarked || (!preds.isEmpty && preds.all f.isMarked)

/-- The value is a phi with an input from a block that lies no earlier in the order. -/
def isLoopCarried (f : Procedure) (g : FlowGraph) (v : ValueId) : Except Fault Bool := do
  let value ← f.value v
  if value.opcode.isPhi then
    match value.block.bind fun b => (g.place b).map fun own => (b, own) with
    | some (b, own) => return (g.predsOf b).any fun p => (g.place p).any fun i => decide (own ≤ i)
    | none => return false
  else return false

/-- No block is marked as never entered. -/
def clearMarks (f : Procedure) : Procedure :=
  { f with blocks := f.blocks.map fun block => { block with unreachable := false } }

/-- No value has a range. -/
def clearRanges (f : Procedure) : Procedure :=
  { f with values := f.values.map fun value => { value with range := none } }

end Procedure

/-- The state of a pass: the procedure, the number of phis that were widened, and whether a loop
phi changed. -/
structure Pass where
  procedure : Procedure
  widened : Nat
  changed : Bool

namespace Pass

/-- The range of a loop phi confined to int32 if that is its type. -/
def confine (type : ValueType) (r : Range) : Except Fault Range :=
  if type = .int32 then r.clipToInt32 else .ok r

/-- The larger range of a loop phi: the old one and its inputs together, confined to the type of
the phi, and widened where that is asked for; also tells whether it was widened. -/
def grow (type : ValueType) (widening : Bool) (old inputs : Range) :
    Except Fault (Range × Bool) := do
  let merged ← confine type (← old.union inputs)
  if widening = true ∧ merged.sameNumbers old = false then
    return (← confine type (← Range.widen old merged), true)
  else return (merged, false)

/-- Enlarges the range of a loop phi by those of its inputs. -/
def mergePhi (g : FlowGraph) (widening : Bool) (p : Pass) (v : ValueId) : Except Fault Pass := do
  let value ← p.procedure.value v
  match value.opcode with
  | .phi phis =>
    match ← p.procedure.inputRange g phis none with
    | none => return p
    | some inputs =>
      match value.range with
      | none =>
        let r ← value.confine inputs
        return { p with procedure := p.procedure.setRange v (some r), changed := true }
      | some old =>
        let (merged, widened) ← grow value.type widening old inputs
        let (r, moved) ← old.update merged
        let count := if widened then p.widened + 1 else p.widened
        if moved then
          return ⟨p.procedure.setRange v (some r), count, true⟩
        else return { p with widened := count }
  | _ => return p

/-- Brings the range of one value up to date. With `merge` unset, loop phis keep their ranges;
otherwise they are enlarged, and widened when `merge` says so. -/
def visit (g : FlowGraph) (merge : Option Bool) (p : Pass) (v : ValueId) : Except Fault Pass := do
  if ← p.procedure.isLoopCarried g v then
    match merge with
    | some widening => p.mergePhi g widening v
    | none => return p
  else return { p with procedure := ← p.procedure.refresh g v }

/-- Visits the values of one block, after marking the block if control never enters it. -/
def visitBlock (g : FlowGraph) (merge : Option Bool) (p : Pass) (b : BlockId) :
    Except Fault Pass := do
  let f := if p.procedure.isDead g b then p.procedure.markUnreachable b else p.procedure
  (← f.members b).foldlM (visit g merge) { p with procedure := f }

/-- One pass over a procedure. -/
def run (g : FlowGraph) (merge : Option Bool) (f : Procedure) : Except Fault Pass :=
  g.order.foldlM (visitBlock g merge) ⟨f.clearMarks, 0, false⟩

end Pass

namespace Session

/-- One pass over the procedure of a session; also tells whether a loop phi changed. -/
def pass (s : Session) (merge : Option Bool) : Except Fault (Session × Bool) := do
  let p ← Pass.run s.graph merge s.procedure
  let stats := { s.stats with widenedPhis := s.stats.widenedPhis + p.widened }
  return ({ s with procedure := p.procedure, stats := stats }, p.changed)

/-- Repeats passes until no loop phi changes; gives up when no pass is left. The passes are
numbered from `number` on, and widen the loop phis after the number set for that. -/
def converge : Nat → Nat → Session → Except Fault StageResult
  | 0, _, s => .ok (s, some (.notConverged s.config.maxIterations))
  | left + 1, number, s => do
    let (s, changed) ← s.pass (some (decide (s.config.widenAfter < number)))
    if changed then converge left (number + 1) s
    else
      let stats := { s.stats with fixpointPasses := s.stats.fixpointPasses + number }
      return ({ s with stats := stats }, none)

/-- Computes the fixed point of ranges, starting without any. -/
def fixedPoint (s : Session) : Except Fault StageResult :=
  converge s.config.maxIterations 1 { s with procedure := s.procedure.clearRanges }

end Session

end Rangefinder
