import Rangefinder.Analysis.Config
import Rangefinder.Diagnostic
import Rangefinder.Flow.Loops
import Rangefinder.Linear.Arena
import Rangefinder.Procedure.Edit

/-!
# Sessions

A session is the work on one procedure. The control flow does not change during the work, so the
flow graph and the loops are computed once at the start; the arena of symbolic bounds lives as
long as the session.
-/

namespace Rangefinder

/-- Why a stage of the analysis gives up. -/
inductive AnalysisError where
  /-- The arena has no room for another bound. -/
  | arenaFull (capacity : Nat)
  /-- The ranges were still changing after the greatest number of passes. -/
  | notConverged (passes : Nat)
  /-- The branch into a block tests a value that stands in no block. -/
  | detachedTest (block : BlockId) (value : ValueId)
deriving DecidableEq

/-- The report of a stage that gave up. -/
def AnalysisError.diagnostic : AnalysisError → Diagnostic
  | arenaFull capacity =>
    (Diagnostic.new "RangeAnalysis" .arenaFull .analyze
      s!"bound arena exhausted ({capacity} entries)").note "raise IONRANGE_ARENA_CAPACITY"
  | notConverged passes =>
    (Diagnostic.new "InternalError" .notConverged .analyze
      s!"range analysis did not converge after {passes} passes").note
        "raise IONRANGE_MAX_ITERATIONS or lower IONRANGE_WIDEN_AFTER"
  | detachedTest block value =>
    (Diagnostic.new "InternalError" .internal .beta
      s!"branch in block {block} tests a detached value").atValue value

/-- The work on one procedure. -/
structure Session where
  procedure : Procedure
  graph : FlowGraph
  loops : List Loop
  config : Config
  arena : Arena
  stats : Stats

/-- What a stage leaves behind: the session, and why the stage gave up if it did. -/
abbrev StageResult := Session × Option AnalysisError

namespace Session

/-- Starts the work on a procedure. -/
def start (f : Procedure) (config : Config) : Except Fault Session := do
  let g ← FlowGraph.build f
  return ⟨f, g, g.loops f, config, Arena.empty config.arenaCapacity, Stats.none⟩

/-- Does something for each element in turn until it gives up. -/
def forEach {α : Type} (act : Session → α → Except Fault StageResult) :
    List α → Session → Except Fault StageResult
  | [], s => .ok (s, none)
  | a :: rest, s => do
    match ← act s a with
    | (s, none) => forEach act rest s
    | (s, some e) => return (s, some e)

end Session

end Rangefinder
