import Rangefinder.Flow.Dominators

/-!
# Natural loops

An edge to a block that dominates its source closes a loop. The loop's body is the header
together with all blocks from which such a source can be reached without passing the header.
-/

namespace Rangefinder

/-- A natural loop. -/
structure Loop where
  /-- The block through which control enters the loop. -/
  header : BlockId
  /-- The blocks of the loop that jump back to the header. -/
  backedges : List BlockId
  /-- The predecessors of the header outside the loop. -/
  preheaders : List BlockId
  /-- The blocks outside the loop that it may leave to. -/
  exits : List BlockId
  /-- The blocks of the loop in increasing order, the header included. -/
  body : List BlockId

namespace Loop

/-- The only block that jumps back, if there is only one. -/
def backedge (l : Loop) : Option BlockId :=
  match l.backedges with
  | [b] => some b
  | _ => none

/-- The only block that enters the loop, if there is only one. -/
def preheader (l : Loop) : Option BlockId :=
  match l.preheaders with
  | [b] => some b
  | _ => none

/-- The block belongs to the loop. -/
def contains (l : Loop) (b : BlockId) : Bool := l.body.contains b

/-- The value is defined inside the loop. -/
def defines (l : Loop) (f : Procedure) (v : ValueId) : Except Fault Bool :=
  return l.contains (← f.definitionBlock v)

end Loop

namespace FlowGraph

/-- The reachable blocks that lead to a block of the stack without passing a block that is in the
body already. Each step takes one block off the stack, and a block is stacked only once. -/
def closeBackwards (g : FlowGraph) : Nat → List BlockId → List BlockId → List BlockId
  | 0, _, body => body
  | _ + 1, [], body => body
  | steps + 1, b :: stack, body =>
    let fresh := (g.predsOf b).filter fun p => g.isReachable p && !body.contains p
    g.closeBackwards steps (fresh ++ stack) (fresh ++ body)

/-- The blocks of a loop with the given header and sources of edges back to it. -/
def loopBody (g : FlowGraph) (header : BlockId) (backedges : List BlockId) : List BlockId :=
  let sources := backedges.filter (· != header)
  let found := g.closeBackwards g.preds.size sources (sources ++ [header])
  (List.range g.preds.size).filter found.contains

/-- The natural loop with the given header, if an edge leads back to it. -/
def loopAt (g : FlowGraph) (f : Procedure) (header : BlockId) : Option Loop :=
  let backedges := (g.predsOf header).filter fun source => g.dominates header source
  if backedges.isEmpty then none
  else
    let body := g.loopBody header backedges
    some
      { header := header
        backedges := backedges
        preheaders := (g.predsOf header).filter fun p => !body.contains p && g.isReachable p
        exits := ((body.flatMap f.successors).filter fun b => !body.contains b).eraseDups
        body := body }

/-- The natural loops of a procedure, one for each header, enclosing loops first. -/
def loops (g : FlowGraph) (f : Procedure) : List Loop := g.order.filterMap (g.loopAt f)

end FlowGraph

end Rangefinder
