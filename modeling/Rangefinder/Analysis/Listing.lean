import Rangefinder.Analysis.Session
import Rangefinder.Procedure.Text

/-!
# Listing of ranges

The values of a procedure block by block, with their ranges and symbolic bounds.
-/

namespace Rangefinder.Session

/-- The line of one value. -/
def valueLine (s : Session) (v : ValueId) : Except Fault String := do
  let value ← s.procedure.value v
  let base := s!"  v{v} " ++ value.opcode.toText
  match value.range with
  | some r => return base ++ " : " ++ (← s.arena.rangeText r) ++ "\n"
  | none => return base ++ "\n"

/-- The lines of one block. -/
def blockLines (s : Session) (block : Block) : Except Fault String := do
  let mark := if block.unreachable then " (unreachable)" else ""
  let lines ← (← s.procedure.members block.id).mapM s.valueLine
  return s!"block {block.id}" ++ mark ++ ":\n" ++ String.join lines

/-- The listing of a procedure. -/
def listing (s : Session) : Except Fault String :=
  return String.join (← s.procedure.blocks.toList.mapM s.blockLines)

end Rangefinder.Session
