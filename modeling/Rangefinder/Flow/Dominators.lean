import Rangefinder.Flow.Graph
import Rangefinder.Settle

/-!
# Dominators

Block `a` dominates block `b` when every path from the entry to `b` passes through `a`. The
immediate dominator of a block is found by iteration over the reverse postorder: the closest
common dominator of the predecessors known so far replaces the one assumed before, until nothing
changes.
-/

namespace Rangefinder

/-- Control-flow facts of a procedure. -/
structure FlowGraph where
  /-- The predecessors of each block. -/
  preds : Array (List BlockId)
  /-- The reachable blocks in reverse postorder. -/
  order : List BlockId
  /-- The place of each block in that order, none for an unreachable block. -/
  places : Array (Option Nat)
  /-- The immediate dominator of each block, none for the entry and unreachable blocks. -/
  idoms : Array (Option BlockId)

namespace FlowGraph

/-- The first place lies after the second; an unreachable block lies before all places. -/
def isAfter : Option Nat → Option Nat → Bool
  | some i, some j => decide (j < i)
  | some _, none => true
  | none, _ => false

/-- The closest common dominator of two blocks: whichever lies later in the order moves to its
immediate dominator, until the two meet. -/
def meet (places : Array (Option Nat)) (idoms : Array (Option BlockId)) (entry : BlockId) :
    Nat → BlockId → BlockId → Except Fault BlockId
  | 0, _, _ => .error .unsettled
  | steps + 1, a, b =>
    let place (b : BlockId) : Option Nat := (places[b]?).join
    let up (b : BlockId) : BlockId := ((idoms[b]?).join).getD entry
    if a = b then .ok a
    else if isAfter (place a) (place b) then meet places idoms entry steps (up a) b
    else meet places idoms entry steps a (up b)

/-- The closest common dominator of those given predecessors whose dominators are known. -/
def meetAll (places : Array (Option Nat)) (idoms : Array (Option BlockId)) (entry : BlockId) :
    List BlockId → Option BlockId → Except Fault (Option BlockId)
  | [], found => .ok found
  | p :: rest, found =>
    match idoms[p]? with
    | none => .error (.missingBlock p)
    | some none => meetAll places idoms entry rest found
    | some (some _) => do
      let next ← match found with
        | none => pure p
        | some q => meet places idoms entry (idoms.size * idoms.size + 1) p q
      meetAll places idoms entry rest (some next)

/-- One pass over the given blocks; also tells whether an immediate dominator changed. -/
def improve (preds : Array (List BlockId)) (places : Array (Option Nat)) (entry : BlockId) :
    List BlockId → Array (Option BlockId) × Bool → Except Fault (Array (Option BlockId) × Bool)
  | [], state => .ok state
  | b :: rest, (idoms, changed) => do
    let found ← meetAll places idoms entry (preds[b]?.getD []) none
    if found.isSome ∧ (idoms[b]?).join ≠ found then
      improve preds places entry rest (idoms.setIfInBounds b found, true)
    else improve preds places entry rest (idoms, changed)

/-- The immediate dominator of each block. While the iteration runs, the entry counts as its own
dominator. -/
def immediateDominators (preds : Array (List BlockId)) (order : List BlockId)
    (places : Array (Option Nat)) (entry : BlockId) : Except Fault (Array (Option BlockId)) := do
  let start := (Array.replicate preds.size none).setIfInBounds entry (some entry)
  let step (idoms : Array (Option BlockId)) := improve preds places entry order.tail (idoms, false)
  let idoms ← settle step (preds.size * preds.size + 2) start
  return idoms.setIfInBounds entry none

/-- The control-flow facts of a procedure. -/
def build (f : Procedure) : Except Fault FlowGraph := do
  let blocks := List.range f.blocks.size
  let preds := (blocks.map f.predecessors).toArray
  let order ← f.reversePostorder
  let places := (blocks.map fun b => order.idxOf? b).toArray
  let idoms ← immediateDominators preds order places f.entry
  return ⟨preds, order, places, idoms⟩

/-- The predecessors of a block. -/
def predsOf (g : FlowGraph) (b : BlockId) : List BlockId := g.preds[b]?.getD []

/-- The place of a block in the reverse postorder. -/
def place (g : FlowGraph) (b : BlockId) : Option Nat := (g.places[b]?).join

/-- The block can be reached from the entry. -/
def isReachable (g : FlowGraph) (b : BlockId) : Bool := (g.place b).isSome

/-- The immediate dominator of a block. -/
def idom (g : FlowGraph) (b : BlockId) : Option BlockId := (g.idoms[b]?).join

/-- A block, its immediate dominator, the one of that, and so on, for a number of blocks. -/
def ancestors (g : FlowGraph) : Nat → BlockId → List BlockId
  | 0, _ => []
  | k + 1, b =>
    match g.idom b with
    | some d => b :: g.ancestors k d
    | none => [b]

/-- The dominators of a reachable block, the closest first. -/
def dominators (g : FlowGraph) (b : BlockId) : List BlockId := g.ancestors g.idoms.size b

/-- Every path from the entry to `b` passes through `a`. -/
def dominates (g : FlowGraph) (a b : BlockId) : Bool :=
  g.isReachable a && g.isReachable b && (g.dominators b).contains a

/-- Domination of another block. -/
def strictlyDominates (g : FlowGraph) (a b : BlockId) : Bool := a != b && g.dominates a b

/-- The block whose branch decides the entry into `b`: it is the only predecessor of `b` and its
immediate dominator, and it ends in a branch with two different targets. -/
def decidingBranch (g : FlowGraph) (f : Procedure) (b : BlockId) : Option BlockId :=
  match g.predsOf b, g.idom b with
  | [p], some d =>
    if p = d then
      match (f.blocks[d]?).map Block.terminator with
      | some (.branch _ onTrue onFalse) => if onTrue ≠ onFalse then some d else none
      | _ => none
    else none
  | _, _ => none

end FlowGraph

end Rangefinder
