import Rangefinder.Analysis.Analyze
import Rangefinder.Analysis.Assertions
import Rangefinder.Analysis.Refinement
import Rangefinder.Analysis.Truncation
import Rangefinder.Procedure.Verify

/-!
# The pipeline

The pipeline takes a procedure through all stages: verification, betas, analysis, assertions if
they are asked for, removal of the betas, truncation, and a last verification. A procedure on
which a stage gives up is marked for the path without optimization.
-/

namespace Rangefinder

/-- The way a pipeline proceeds: it goes on with a session, or it ends with a report on a
procedure. -/
abbrev Progress := Except (Procedure × Diagnostic) Session

namespace Pipeline

/-- Verifies a procedure at some point of the pipeline. -/
def verifyAt (f : Procedure) (point : String) : Except Fault (Option Diagnostic) := do
  match ← f.verify with
  | .ok () => return none
  | .error violation =>
    return some ((violation.diagnostic f.name point).through "range.verify" none)

/-- Verifies the procedure of a session at some point, if every stage is to be verified. -/
def checkpoint (s : Session) (point : String) : Except Fault Progress := do
  if s.config.verifyEachStage then
    match ← verifyAt s.procedure point with
    | none => return .ok s
    | some d => return .error (s.procedure, d)
  else return .ok s

/-- Goes on after a stage unless it gave up, and verifies the result if that is asked for. -/
def afterStage (pass point : String) (result : StageResult) : Except Fault Progress :=
  match result with
  | (s, some e) => .ok (.error (s.procedure, e.diagnostic.through pass none))
  | (s, none) => checkpoint s point

/-- Goes on with a stage unless the pipeline has ended. -/
def next (progress : Progress) (stage : Session → Except Fault Progress) : Except Fault Progress :=
  match progress with
  | .ok s => stage s
  | .error e => .ok (.error e)

/-- The stages between the first and the last verification. -/
def stages (s : Session) : Except Fault Progress := do
  let p ← afterStage "range.beta" "After Beta Insertion" (← s.addBetas)
  let p ← next p fun s => do afterStage "range.analyze" "After Analysis" (← s.analyze)
  let p ← next p fun s =>
    if s.config.checkRanges then do checkpoint (← s.addAssertions) "After Range Assertions"
    else .ok (.ok s)
  let p ← next p fun s => do checkpoint (← s.removeBetas) "After Beta Removal"
  next p fun s =>
    if s.config.truncate then do checkpoint (← s.truncate) "After Truncation"
    else .ok (.ok s)

/-- Takes a procedure through all stages; the result has the procedure as it is then, and the
statistics or the report of the stage that gave up. -/
def attempt (config : Config) (f : Procedure) :
    Except Fault (Procedure × Except Diagnostic Stats) := do
  match ← verifyAt f "Start" with
  | some d => return (f, .error d)
  | none =>
    match ← stages (← Session.start f config) with
    | .error (f, d) => return (f, .error d)
    | .ok s =>
      match ← s.procedure.verifyBetaFree with
      | .ok () => return (s.procedure, .ok s.stats)
      | .error violation =>
        let d := violation.diagnostic s.procedure.name "End"
        return (s.procedure, .error (d.through "range.verify" none))

/-- Why a procedure was given up. -/
def rejection (d : Diagnostic) : String :=
  "range analysis [" ++ d.code.name ++ "]: " ++ d.message

/-- Runs the pipeline on a procedure. A procedure that is rejected is marked as given up. -/
def run (config : Config) (f : Procedure) :
    Except Fault (Procedure × Except Diagnostic Stats) := do
  match ← attempt config f with
  | (f, .ok stats) => return (f, .ok stats)
  | (f, .error d) => return (f.giveUp (rejection d), .error d)

end Pipeline

/-- Procedures by name, in the order of the names. -/
abbrev Program := List (String × Procedure)

namespace Program

/-- The program with one more procedure; it replaces one of the same name. -/
def insert (name : String) (f : Procedure) : Program → Program
  | [] => [(name, f)]
  | (other, g) :: rest =>
    if name = other then (name, f) :: rest
    else if name < other then (name, f) :: (other, g) :: rest
    else (other, g) :: insert name f rest

/-- The program of the given procedures; of two with one name the later one counts. -/
def ofList (procedures : List (String × Procedure)) : Program :=
  procedures.foldl (fun program (name, f) => insert name f program) []

/-- Runs the pipeline on every procedure that has not been given up, in the order of the names; the
result has the program after that, the statistics of all procedures together and the reports of
those that were rejected. -/
def run (config : Config) : Program → Except Fault (Program × Stats × List Diagnostic)
  | [] => .ok ([], Stats.none, [])
  | (name, f) :: rest =>
    if f.unsupported then do
      let (program, stats, errors) ← run config rest
      return ((name, f) :: program, stats, errors)
    else do
      let (f, result) ← Pipeline.run config f
      let (program, stats, errors) ← run config rest
      match result with
      | .ok own => return ((name, f) :: program, own.add stats, errors)
      | .error d => return ((name, f) :: program, stats, d.through name none :: errors)

end Program

end Rangefinder
