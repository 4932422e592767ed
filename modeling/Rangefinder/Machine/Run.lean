import Rangefinder.Machine.Instruction

/-!
# Runs

The machine moves in steps: it either executes the next instruction of the current block, or it
executes the terminator and enters the next block, where the phis take their new values all at
once. A run is the sequence of its steps, as many as the budget allows.
-/

namespace Rangefinder

/-- A state of a run. -/
structure State where
  /-- The current block. -/
  block : BlockId
  /-- The instructions of the block that are still to be executed. -/
  pending : List ValueId
  memory : Memory

namespace Machine

/-- The new contents of phis when control comes from a block; all inputs are read before any of
the phis changes. -/
def incoming (f : Procedure) (m : Memory) (source : BlockId) :
    List ValueId → Except Halt (List (ValueId × Slot))
  | [] => .ok []
  | phi :: rest =>
    match (f.values[phi]?).map Value.opcode with
    | none => .error (.faulted (.missingValue phi))
    | some (.phi inputs) =>
      match inputs.find? fun input => input.2 == source with
      | none => .error (.failed (.missingInput phi source))
      | some (input, _) => do
        let slot ← m.read phi input
        return (phi, slot) :: (← incoming f m source rest)
    | some _ => .error (.failed (.strangerInPhis phi))

/-- Enters a block from another one. -/
def enter (f : Procedure) (m : Memory) (source target : BlockId) : Except Halt State :=
  match f.blocks[target]? with
  | none => .error (.failed (.missingBlock target))
  | some block => do
    let slots ← incoming f m source block.phis
    return ⟨target, block.instrs, slots.foldl (fun m (phi, slot) => m.write phi slot) m⟩

/-- Executes the terminator of a block. -/
def leave (f : Procedure) (m : Memory) (source : BlockId) : Terminator → Except Halt State
  | .goto target => enter f m source target
  | .branch cond onTrue onFalse => do
    let c ← m.number cond
    enter f m source (if c.isTruthy then onTrue else onFalse)
  | .exit none => .error (.returned none)
  | .exit (some v) => do
    match ← m.read v v with
    | .number x => .error (.returned (some x))
    | _ => .error (.returned none)
  | .unreachable => .error (.failed (.unreachable source))

/-- One step of a run: the state after it, or the end of the run. -/
def step (f : Procedure) (args : List Number) (s : State) : Except Halt State :=
  match s.pending with
  | v :: rest =>
    match f.values[v]? with
    | none => .error (.faulted (.missingValue v))
    | some value => do
      let (m, slot) ← compute args s.memory v value.type value.opcode
      return ⟨s.block, rest, m.write v slot⟩
  | [] =>
    match f.blocks[s.block]? with
    | none => .error (.failed (.missingBlock s.block))
    | some block => leave f s.memory s.block block.terminator

/-- The state in which a run starts; the phis of the entry have no values yet. -/
def start (f : Procedure) : Except Halt State :=
  match f.blocks[f.entry]? with
  | none => .error (.failed (.missingBlock f.entry))
  | some block => .ok ⟨f.entry, block.instrs, Memory.initial f⟩

/-- Continues a run for at most `budget` steps; nothing when it has not ended by then. -/
def resume (f : Procedure) (args : List Number) : Nat → State → Option Halt
  | 0, _ => none
  | budget + 1, s =>
    match step f args s with
    | .ok s => resume f args budget s
    | .error halt => some halt

/-- A run that has ended ends the same way with a greater budget. -/
theorem resume_of_le {f : Procedure} {args : List Number} {budget more : Nat} {s : State}
    {halt : Halt} (h : resume f args budget s = some halt) (le : budget ≤ more) :
    resume f args more s = some halt := by
  induction budget generalizing s more with
  | zero => simp [resume] at h
  | succ budget ih =>
    cases more with
    | zero => omega
    | succ more =>
      cases hs : step f args s with
      | ok next =>
        simp only [resume, hs] at h ⊢
        exact ih h (by omega)
      | error e => simpa only [resume, hs] using h

/-- Runs a procedure for at most `budget` steps; nothing when it has not ended by then. -/
def run (f : Procedure) (args : List Number) (budget : Nat) : Option Halt :=
  match start f with
  | .ok s => resume f args budget s
  | .error halt => some halt

/-- The number of steps that a run is given by default. -/
def defaultBudget : Nat := 1000000

end Machine

end Rangefinder
