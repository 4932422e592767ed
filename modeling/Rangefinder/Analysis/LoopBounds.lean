import Rangefinder.Analysis.Session
import Rangefinder.Analysis.Transfer
import Rangefinder.Linear.Extract

/-!
# Bounds of loops

A loop that is entered and repeated over one edge each, and that is left by comparing a value
which grows or shrinks by one in each round, repeats at most as often as a linear sum says. With
such a bound, every phi of the header that moves by a constant step is bounded by linear sums as
well, from its first value to its last.
-/

namespace Rangefinder

/-- A loop that is entered over one edge and repeated over one edge. -/
structure SimpleLoop where
  loop : Loop
  /-- The block that enters the loop. -/
  preheader : BlockId
  /-- The block that jumps back to the header. -/
  backedge : BlockId

/-- A computation that may find that it has nothing to say. -/
abbrev Attempt := OptionT (Except Fault)

/-- Goes on only if the condition holds. -/
def Attempt.require (condition : Bool) : Attempt Unit := OptionT.mk (.ok (guard condition))

/-- Goes on only with a value. -/
def Attempt.some? {α : Type} (a : Option α) : Attempt α := OptionT.mk (.ok a)

namespace SimpleLoop

/-- The loop, if it is entered and repeated over one edge each. -/
def ofLoop? (l : Loop) : Option SimpleLoop :=
  match l.backedge, l.preheader with
  | some b, some p => some ⟨l, p, b⟩
  | _, _ => none

/-- The header of the loop. -/
def header (l : SimpleLoop) : BlockId := l.loop.header

/-- The first input of a phi of the header, from outside the loop, and the one of later rounds. -/
def inputsOf (l : SimpleLoop) (f : Procedure) (phi : ValueId) : Attempt (ValueId × ValueId) := do
  match ← f.opcode phi with
  | .phi inputs =>
    Attempt.require (inputs.length == 2)
    let initial ← Attempt.some? (inputs.find? fun input => input.2 == l.preheader)
    let next ← Attempt.some? (inputs.find? fun input => input.2 == l.backedge)
    return (initial.1, next.1)
  | _ => failure

/-- Brings the side of an inequality that varies in the loop to the left. Nothing when both sides
do. -/
def orient (l : SimpleLoop) (f : Procedure) (i : LinearInequality) : Attempt LinearInequality := do
  match i.rhs with
  | none => return i
  | some r =>
    if ← l.loop.defines f r then
      match i.lhs.term with
      | some t => Attempt.require (!(← l.loop.defines f t))
      | none => pure ()
      let c ← Attempt.some? (checkInt32 (0 - i.lhs.constant))
      return ⟨⟨some r, c⟩, i.lhs.term, !i.lessEqual⟩
    else return i

/-- The step of a phi of the header whose next value is computed without wrap-around in every
round, as the phi plus a constant. -/
def steadyStep (l : SimpleLoop) (f : Procedure) (g : FlowGraph) (phi next : ValueId) :
    Attempt Int := do
  let write ← f.refined next
  let value ← f.value write
  match value.opcode with
  | .binary op _ _ flags =>
    Attempt.require ((op == .add || op == .sub) && !flags.wrapping)
    let b ← Attempt.some? value.block
    Attempt.require (l.loop.contains b && g.dominates b l.backedge)
    let next ← f.offset write
    Attempt.require (next.term == some phi)
    return next.constant
  | _ => failure

/-- Adds a value, when there is one, to a sum. -/
def addOptional (f : Procedure) (sum : LinearSum) (term : Option ValueId) (scale : Int) :
    Attempt LinearSum :=
  match term with
  | none => return sum
  | some t => OptionT.mk (sum.addTerm f t scale)

/-- The greatest number of rounds of a loop that is left once the inequality holds for its phi,
which starts at `initial` and moves by `step`. -/
def roundsUntil (f : Procedure) (i : LinearInequality) (initial : ValueId) (step : Int) :
    Attempt LinearSum :=
  if step = 1 ∧ i.lessEqual = false then do
    let sum ← addOptional f .zero i.rhs 1
    let sum ← addOptional f sum (some initial) (-1)
    let c ← Attempt.some? (checkInt32 (0 - i.lhs.constant))
    Attempt.some? (sum.addConstant c)
  else if step = -1 ∧ i.lessEqual = true then do
    let sum ← addOptional f .zero (some initial) 1
    let sum ← addOptional f sum i.rhs (-1)
    Attempt.some? (sum.addConstant i.lhs.constant)
  else failure

/-- A bound on the number of rounds of a loop that is left when `cond` has the given truth
value. -/
def rounds (l : SimpleLoop) (f : Procedure) (g : FlowGraph) (cond : ValueId) (truth : Bool) :
    Attempt LinearSum := do
  let i ← OptionT.mk (f.inequality cond truth)
  let i ← l.orient f i
  let phi ← Attempt.some? i.lhs.term
  Attempt.require ((← f.value phi).block == some l.header)
  let (initial, next) ← l.inputsOf f phi
  Attempt.require (!(← l.loop.defines f initial))
  let step ← l.steadyStep f g phi next
  roundsUntil f i initial step

/-- The branch that decides the entry into a block of the loop, and a bound on the rounds of the
loop, when the branch leaves the loop otherwise. -/
def boundAt (l : SimpleLoop) (f : Procedure) (g : FlowGraph) (b : BlockId) :
    Attempt (BlockId × LinearSum) := do
  let test ← Attempt.some? (g.decidingBranch f b)
  match (← f.block test).terminator with
  | .branch cond onTrue onFalse =>
    let leavesOnTrue := onTrue != b
    Attempt.require (!l.loop.contains (if leavesOnTrue then onTrue else onFalse))
    return (test, ← l.rounds f g cond leavesOnTrue)
  | _ => failure

/-- The first bound found at the given blocks. -/
def firstBound (l : SimpleLoop) (f : Procedure) (g : FlowGraph) :
    List BlockId → Except Fault (Option (BlockId × LinearSum))
  | [] => .ok none
  | b :: rest => do
    match ← (l.boundAt f g b).run with
    | some found => return some found
    | none => l.firstBound f g rest

/-- A bound on the rounds of a loop, from the tests that every round passes: those on the way from
the end of a round up to the header. -/
def bound (l : SimpleLoop) (f : Procedure) (g : FlowGraph) :
    Except Fault (Option (BlockId × LinearSum)) :=
  l.firstBound f g ((g.dominators l.backedge).takeWhile (· != l.header))

/-- The range of a linear sum. -/
def rangeOfSum (f : Procedure) (sum : LinearSum) : Except Fault Range := do
  let start ← Range.int32 sum.constant sum.constant
  sum.terms.foldlM (fun acc t => do
    let scaled ← (← f.rangeRead t.term).mul (← Range.int32 t.scale t.scale)
    acc.add scaled) start

/-- What the bound of a loop says about a phi of its header. -/
structure PhiBounds where
  /-- The refined range of the phi. -/
  range : Range
  lower : SymbolicBound
  upper : SymbolicBound

/-- The range of a phi that grows from values in `first`, given what it may reach. -/
def refineGrowing (range first : Range) (reach : Option Range) : Except Fault Range := do
  let range ← match first.lower with
    | some l => if l ≤ range.hi then range.atLeast l else pure range
    | none => pure range
  match first.upper, reach.bind Range.upper with
  | some h, some k => if range.lo ≤ max h k then range.atMost (max h k) else return range
  | _, _ => return range

/-- The range of a phi that shrinks from values in `first`, given what it may reach. -/
def refineShrinking (range first : Range) (reach : Option Range) : Except Fault Range := do
  let range ← match first.upper with
    | some h => if range.lo ≤ h then range.atMost h else pure range
    | none => pure range
  match first.lower, reach.bind Range.lower with
  | some l, some k => if min l k ≤ range.hi then range.atLeast (min l k) else return range
  | _, _ => return range

/-- What the bound of a loop says about a phi of its header that moves by a constant step: it lies
between its first value and the value it has in the last round, one step short of what it reaches
when the loop is left. -/
def phiBounds (l : SimpleLoop) (f : Procedure) (boundId : Nat) (bound : LinearSum) (phi : ValueId) :
    Attempt PhiBounds := do
  let value ← f.value phi
  Attempt.require (value.type == .int32)
  let (initial, next) ← l.inputsOf f phi
  Attempt.require (!(← l.loop.defines f initial))
  let next ← f.offset next
  Attempt.require (next.term == some phi && next.constant != 0)
  let step := next.constant
  let first ← OptionT.mk (LinearSum.zero.addTerm f initial 1)
  let back ← Attempt.some? (checkInt32 (0 - step))
  let last ← Attempt.some? do
    let scaled ← bound.multiply step
    let shifted ← scaled.addSum 1 first
    shifted.addConstant back
  let reach ← match last.addConstant step with
    | some sum => some <$> rangeOfSum f sum
    | none => pure none
  let firstRange ← f.rangeRead initial
  let range := value.range.getD ValueType.int32.range
  let fixed : SymbolicBound := ⟨none, first⟩
  let moving : SymbolicBound := ⟨some boundId, last⟩
  if 0 < step then return ⟨← refineGrowing range firstRange reach, fixed, moving⟩
  else return ⟨← refineShrinking range firstRange reach, moving, fixed⟩

end SimpleLoop

namespace Session

/-- Adds a symbolic bound to the arena. -/
def addSymbolic (s : Session) (b : SymbolicBound) : Session × Except AnalysisError Nat :=
  match s.arena.addSymbolic? b with
  | some (arena, id) => ({ s with arena := arena }, .ok id)
  | none => (s, .error (.arenaFull s.arena.capacity))

/-- Gives a phi of a loop's header its bounds, if it has any. -/
def boundPhi (l : SimpleLoop) (boundId : Nat) (bound : LinearSum) (s : Session) (phi : ValueId) :
    Except Fault StageResult := do
  match ← (l.phiBounds s.procedure boundId bound phi).run with
  | none => return (s, none)
  | some bounds =>
    match s.addSymbolic bounds.lower with
    | (s, .error e) => return (s, some e)
    | (s, .ok lower) =>
      match s.addSymbolic bounds.upper with
      | (s, .error e) => return (s, some e)
      | (s, .ok upper) =>
        let range :=
          { bounds.range with symbolicLower := some lower, symbolicUpper := some upper }
        let stats := { s.stats with refinedPhis := s.stats.refinedPhis + 1 }
        return ({ s with procedure := s.procedure.setRange phi (some range), stats := stats }, none)

end Session

end Rangefinder
