import Rangefinder.Procedure.Basic

/-!
# Control flow of a procedure

The predecessors of a block, and the order in which a depth-first walk from the entry leaves the
blocks. Successors that name no block are ignored.
-/

namespace Rangefinder

namespace Procedure

/-- The blocks that control may go to from a block. -/
def successors (f : Procedure) (b : BlockId) : List BlockId :=
  match f.blocks[b]? with
  | some block => block.terminator.successors
  | none => []

/-- The blocks that name `b` as a successor, each once and in the order of the blocks. -/
def predecessors (f : Procedure) (b : BlockId) : List BlockId :=
  ((f.blocks.toList.filter fun block => block.terminator.successors.contains b).map
    Block.id).eraseDups

/-- A depth-first walk. The stack holds the blocks entered but not left, each with the successors
still to be tried; `seen` holds the blocks entered, and `left` those left, the last one first.
The walk makes at most as many steps as it is given. -/
def walk (f : Procedure) :
    Nat → List (BlockId × List BlockId) → List BlockId → List BlockId → List BlockId
  | 0, _, _, left => left
  | _ + 1, [], _, left => left
  | steps + 1, (b, []) :: stack, seen, left => f.walk steps stack seen (b :: left)
  | steps + 1, (b, s :: rest) :: stack, seen, left =>
    if s < f.blocks.size ∧ s ∉ seen then
      f.walk steps ((s, f.successors s) :: (b, rest) :: stack) (s :: seen) left
    else f.walk steps ((b, rest) :: stack) seen left

/-- The number of steps that suffice for a depth-first walk: each block is left once and each of
its successors is tried once. -/
def walkSteps (f : Procedure) : Nat :=
  f.blocks.toList.foldl (fun steps block => steps + block.terminator.successors.length + 1) 0

/-- The blocks that can be reached from the entry, in the reverse of the order in which a
depth-first walk leaves them: the entry comes first, and a block comes before its successors
unless they lead back to it. -/
def reversePostorder (f : Procedure) : Except Fault (List BlockId) :=
  if f.blocks.isEmpty then .ok []
  else if f.entry < f.blocks.size then
    .ok (f.walk f.walkSteps [(f.entry, f.successors f.entry)] [f.entry] [])
  else .error (.missingBlock f.entry)

end Procedure

end Rangefinder
