import Rangefinder.Procedure.Basic

/-!
# Editing procedures

Adding blocks and values, placing and detaching instructions, and the uses of a value: where they
are and how to move them all to another value.
-/

namespace Rangefinder

/-- One use of a value: an operand of a placed value, or a block's terminator. -/
inductive Use where
  | operand (user : ValueId) (index : Nat)
  | terminator (block : BlockId)
deriving DecidableEq

namespace Procedure

/-- Appends an empty block without a way out. -/
def newBlock (f : Procedure) : Procedure × BlockId :=
  let id := f.blocks.size
  ({ f with blocks := f.blocks.push ⟨id, [], [], .unreachable, false⟩ }, id)

/-- Appends a value that stands in the given block but is not listed there yet. -/
def appendValue (f : Procedure) (opcode : Opcode) (type : ValueType) (block : Option BlockId) :
    Procedure × ValueId :=
  let id := f.values.size
  ({ f with values := f.values.push ⟨id, opcode, type, block, none⟩ }, id)

/-- Appends a value that stands in no block. -/
def newValue (f : Procedure) (opcode : Opcode) (type : ValueType) : Procedure × ValueId :=
  f.appendValue opcode type none

/-- Places a new instruction at a position of a block. -/
def placeAt (f : Procedure) (b : BlockId) (position : Nat) (opcode : Opcode)
    (type : ValueType) : Except Fault (Procedure × ValueId) := do
  let block ← f.block b
  if block.instrs.length < position then .error (.missingPosition position)
  else
    let (f, v) := f.appendValue opcode type (some b)
    return (f.modifyBlock b fun block =>
      { block with instrs := block.instrs.insertIdx position v }, v)

/-- Places a new instruction at the end of a block. -/
def appendInstr (f : Procedure) (b : BlockId) (opcode : Opcode) (type : ValueType) :
    Except Fault (Procedure × ValueId) := do
  f.placeAt b (← f.block b).instrs.length opcode type

/-- Places a new integer constant at the end of a block. -/
def appendInt (f : Procedure) (b : BlockId) (n : Int) : Except Fault (Procedure × ValueId) :=
  f.appendInstr b (.const (.int n)) .int32

/-- Places a new phi after the other phis of a block. -/
def appendPhi (f : Procedure) (b : BlockId) (inputs : List (ValueId × BlockId))
    (type : ValueType) : Except Fault (Procedure × ValueId) := do
  let _ ← f.block b
  let (f, v) := f.appendValue (.phi inputs) type (some b)
  return (f.modifyBlock b fun block => { block with phis := block.phis ++ [v] }, v)

/-- Detaches a value from its block; the value itself stays. -/
def detach (f : Procedure) (v : ValueId) : Except Fault Procedure := do
  match (← f.value v).block with
  | none => return f
  | some b =>
    let _ ← f.block b
    let detached := f.modifyValue v fun value => { value with block := none }
    return detached.modifyBlock b fun block =>
      { block with
        instrs := block.instrs.filter (· != v)
        phis := block.phis.filter (· != v) }

/-- Replaces the terminator of a block. -/
def setTerminator (f : Procedure) (b : BlockId) (t : Terminator) : Except Fault Procedure := do
  let _ ← f.block b
  return f.modifyBlock b fun block => { block with terminator := t }

/-- The values listed in the blocks, block by block. -/
def listed (f : Procedure) : List ValueId := f.blocks.toList.flatMap Block.members

/-- The uses that the listed values make of other values, each with the value used. -/
def operandUses (f : Procedure) : List ValueId → Except Fault (List (ValueId × Use))
  | [] => .ok []
  | user :: rest => do
    let opcode ← f.opcode user
    let own := opcode.operands.zipIdx.map fun (used, index) => (used, Use.operand user index)
    return own ++ (← f.operandUses rest)

/-- All uses in the blocks given, each with the value used. -/
def blockUses (f : Procedure) : List Block → Except Fault (List (ValueId × Use))
  | [] => .ok []
  | block :: rest => do
    let operands ← f.operandUses block.members
    let terminator := block.terminator.operand.toList.map fun used =>
      (used, Use.terminator block.id)
    return operands ++ terminator ++ (← f.blockUses rest)

/-- All uses in a procedure in the order of the blocks, each with the value used. -/
def uses (f : Procedure) : Except Fault (List (ValueId × Use)) := f.blockUses f.blocks.toList

/-- The uses of one value among given uses. -/
def usesOf (uses : List (ValueId × Use)) (v : ValueId) : List Use :=
  (uses.filter fun use => use.1 == v).map Prod.snd

/-- The uses of a value are those listed with it. -/
theorem mem_usesOf {uses : List (ValueId × Use)} {v : ValueId} {use : Use} :
    use ∈ usesOf uses v ↔ (v, use) ∈ uses := by
  simp [usesOf]

/-- The renaming that sends one value to another. -/
def substitute (old new : ValueId) (v : ValueId) : ValueId := if v = old then new else v

/-- What a use reads when all uses of a value are moved to another one; counts the uses that move. -/
def moveUse (old new used : ValueId) : StateM Nat ValueId := do
  if used = old then
    modify (· + 1)
    return new
  else return used

/-- Moves uses among the operands of the listed values, leaving out the new value itself; also
counts the operands that are moved. -/
def renameOperands (old new : ValueId) :
    List ValueId → Procedure × Nat → Except Fault (Procedure × Nat)
  | [], state => .ok state
  | user :: rest, (f, count) =>
    if user = new then renameOperands old new rest (f, count)
    else do
      let (opcode, count) := ((← f.opcode user).mapOperandsM (moveUse old new)).run count
      let renamed := f.modifyValue user fun value => { value with opcode := opcode }
      renameOperands old new rest (renamed, count)

/-- Moves uses block by block, in each of the blocks given first among the operands of its values and
then at its terminator. -/
def renameBlocks (old new : ValueId) :
    List BlockId → Procedure × Nat → Except Fault (Procedure × Nat)
  | [], state => .ok state
  | b :: rest, (f, count) => do
    let block ← f.block b
    let (f, count) ← renameOperands old new block.members (f, count)
    let (terminator, count) := (block.terminator.mapOperandM (moveUse old new)).run count
    let renamed := f.modifyBlock b fun block => { block with terminator := terminator }
    renameBlocks old new rest (renamed, count)

/-- Moves every use of a value to another one, except for operands of the new value itself; also
tells how many uses were moved. -/
def moveUses (f : Procedure) (old new : ValueId) : Except Fault (Procedure × Nat) :=
  renameBlocks old new (List.range f.blocks.size) (f, 0)

/-- Marks the procedure as one the analysis has given up on; a reason is kept once. -/
def giveUp (f : Procedure) (reason : String) : Procedure :=
  { f with
    unsupported := true
    reasons :=
      if reason ∈ f.reasons then f.reasons else f.reasons ++ [reason] }

end Procedure

end Rangefinder
