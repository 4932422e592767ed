import Mathlib.Data.List.Perm.Subperm
import Rangefinder.Proofs.Machine.Steps
import Rangefinder.Proofs.Number.Integers

/-!
# Runs of accepted procedures

The verifier looks at the text of a procedure; the machine meets its runs. What the verifier accepts
runs without the errors that blame the procedure: no value is read before it is computed, every phi
has an input for the edge that control came over, every jump has a target, and phis and instructions
are listed apart. Nor does the machine reach for something that is not there, be it a value, an
array or an element of one.

The reason is an invariant of the states of a run: the slot of every available value is set, and
every array in a slot is in the store. A step that ends the run from such a state ends it in an
orderly way (`step_orderly`), so every run does.
-/

namespace Rangefinder

/-- The error blames the procedure and not the data that the run met. -/
def RunError.isStructural : RunError → Bool
  | missingBlock _ | strangerInPhis _ | missingInput _ _ | unset _ _ | phiAsInstr _ => true
  | _ => false

/-- The run did not end because the procedure is malformed or because the machine reached for
something that is not there. A product beyond 64 bits is the only other fault. -/
def Halt.isOrderly : Halt → Bool
  | returned _ | bailout _ _ => true
  | failed error => !error.isStructural
  | faulted fault => fault == .wideOverflow

namespace Memory

/-- The slot of a value has been written. -/
def IsSet (m : Memory) (v : ValueId) : Prop := ∃ slot, m.slots[v]? = some slot ∧ slot ≠ .unset

/-- Every array in a slot is in the store. -/
def ArraysStored (m : Memory) : Prop :=
  ∀ (v : ValueId) (place : Nat), m.slots[v]? = some (.array place) → place < m.store.size

variable {m : Memory} {v : ValueId} {halt : Halt}

/-- A set slot is read. -/
theorem IsSet.read (h : m.IsSet v) (user : ValueId) : ∃ slot, m.read user v = .ok slot := by
  obtain ⟨slot, found, set⟩ := h
  exact ⟨slot, read_eq_ok.mpr ⟨found, set⟩⟩

/-- It cannot fail. -/
theorem IsSet.read_ne_error (h : m.IsSet v) (user : ValueId) : m.read user v ≠ .error halt := by
  obtain ⟨slot, found⟩ := h.read user
  rw [found]
  exact nofun

/-- Reading a number from a set slot can fail only because something else is there. -/
theorem IsSet.number_error (set : m.IsSet v) (h : m.number v = .error halt) :
    halt.isOrderly = true := by
  rw [number, bind_eq_error] at h
  rcases h with h | ⟨slot, -, h⟩
  · exact absurd h (set.read_ne_error v)
  · split at h <;> cases h
    rfl

/-- An array in a set slot is found in the store. -/
theorem IsSet.arrayAt_error (set : m.IsSet v) (stored : m.ArraysStored)
    (h : m.arrayAt v = .error halt) : halt.isOrderly = true := by
  rw [arrayAt, bind_eq_error] at h
  rcases h with h | ⟨slot, read, h⟩
  · exact absurd h (set.read_ne_error v)
  · split at h
    · next place =>
      split at h
      · cases h
      · next missing =>
        have := stored v place (read_eq_ok.mp read).1
        exact absurd missing (by simp [this])
    · cases h
      rfl

end Memory

/-- An integral number from zero to below a length is a position. -/
theorem Number.floor_lt {x : Number} {n : Nat} (integral : x.isIntegral = true)
    (above : x.lt (.ofInt 0) = false) (below : x.lt (.ofInt n) = true) :
    x.toRat.floor.toNat < n := by
  have small : x.toRat < n := by
    cases x with
    | finite value | negZero => exact_mod_cast of_decide_eq_true below
    | nan | negInf | posInf => cases integral
  have large : 0 ≤ x.toRat := by
    cases x with
    | finite value => exact_mod_cast not_lt.mp (of_decide_eq_false above)
    | negZero => exact le_rfl
    | nan | negInf | posInf => cases integral
  have : x.toRat.floor < n := Int.floor_lt.mpr (by exact_mod_cast small)
  have : 0 ≤ x.toRat.floor := Int.floor_nonneg.mpr large
  omega

namespace Machine

variable {f : Procedure} {g : FlowGraph} {args : List Number} {m : Memory} {s t : State}
  {v : ValueId} {halt : Halt} {type : ValueType} {flags : ArithFlags} {op : BinaryOp} {a b : Number}
  {o : Opcode}

/-! ### Instructions -/

/-- An element is looked for inside its array. -/
theorem element_error {array index : ValueId} (stored : m.ArraysStored) (setArray : m.IsSet array)
    (setIndex : m.IsSet index) (h : element m v array index = .error halt) :
    halt.isOrderly = true := by
  rw [element, bind_eq_error] at h
  rcases h with h | ⟨⟨place, content⟩, -, h⟩
  · exact setArray.arrayAt_error stored h
  rw [bind_eq_error] at h
  rcases h with h | ⟨i, -, h⟩
  · exact setIndex.number_error h
  dsimp only at h
  split at h
  · cases h
    rfl
  · next inside =>
    simp only [Bool.or_eq_true, Bool.not_eq_true', not_or, Bool.not_eq_false,
      Bool.not_eq_true] at inside
    obtain ⟨⟨integral, above⟩, below⟩ := inside
    rw [if_pos (Number.floor_lt integral above below)] at h
    cases h

/-- A negative zero ends a run orderly. -/
theorem onNegativeZero_isOrderly (flags : ArithFlags) : (onNegativeZero v flags).isOrderly = true := by
  rw [onNegativeZero]
  split <;> rfl

/-- So does a zero divisor. -/
theorem onZeroDivisor_isOrderly (flags : ArithFlags) : (onZeroDivisor v flags).isOrderly = true := by
  rw [onZeroDivisor]
  split <;> rfl

/-- So do exact operations. -/
theorem exactInt32_error (h : exactInt32 v op a b flags = .error halt) :
    halt.isOrderly = true := by
  unfold exactInt32 at h
  split at h <;> dsimp only at h
  · cases h
  · cases h
  · split at h
    · cases h
      rfl
    · split at h <;> cases h
      exact onNegativeZero_isOrderly flags
  · split at h
    · cases h
      exact onZeroDivisor_isOrderly flags
    · split at h
      · cases h
        exact onNegativeZero_isOrderly flags
      · split at h <;> cases h
        rfl
  · split at h
    · cases h
      exact onZeroDivisor_isOrderly flags
    · split at h <;> cases h
      exact onNegativeZero_isOrderly flags
  · cases h
  · cases h

/-- So do checked operations. -/
theorem checkedInt32_error (h : checkedInt32 v op a b flags = .error halt) :
    halt.isOrderly = true := by
  rw [checkedInt32] at h
  split at h
  · rw [bind_eq_error] at h
    rcases h with h | ⟨r, -, h⟩
    · exact exactInt32_error h
    · split at h
      · split at h <;> cases h <;> rfl
      · cases h
  · cases h
    rfl

/-- So do bitwise operations. -/
theorem bitwise_error (h : bitwise v op a b flags type = .error halt) :
    halt.isOrderly = true := by
  unfold bitwise at h
  split at h <;> dsimp only at h
  case h_6 =>
    split at h
    · cases h
    · split at h <;> cases h
      rfl
  all_goals cases h

/-- An operation on numbers ends a run for what the numbers are. -/
theorem binary_error (h : binary v op a b flags type = .error halt) :
    halt.isOrderly = true := by
  rw [binary] at h
  split at h
  · exact bitwise_error h
  · split at h
    · cases h
    · split at h
      · cases h
      · exact checkedInt32_error h

/-- So do unary operations. -/
theorem unary_error {op : UnaryOp} (h : unary v op a type = .error halt) :
    halt.isOrderly = true := by
  unfold unary at h
  dsimp only at h
  split at h <;> cases h
  rfl

/-- An instruction whose operands are set ends a run in an orderly way, if it does. -/
theorem compute_error (stored : m.ArraysStored) (set : ∀ x ∈ o.operands, m.IsSet x)
    (kind : o.isPhi = false) (h : compute args m v type o = .error halt) :
    halt.isOrderly = true := by
  cases o with
  | const literal => cases h
  | param index => cases h
  | phi inputs => cases kind
  | beta input refinement =>
    rw [compute, bind_eq_error] at h
    rcases h with h | ⟨slot, -, h⟩
    · exact absurd h ((set input (by simp [Opcode.operands])).read_ne_error v)
    · cases h
  | binary op lhs rhs flags =>
    rw [compute, bind_eq_error] at h
    rcases h with h | ⟨a, -, h⟩
    · exact (set lhs (by simp [Opcode.operands])).number_error h
    rw [bind_eq_error] at h
    rcases h with h | ⟨b, -, h⟩
    · exact (set rhs (by simp [Opcode.operands])).number_error h
    rw [bind_eq_error] at h
    rcases h with h | ⟨r, -, h⟩
    · exact binary_error h
    · cases h
  | unary op operand =>
    rw [compute, bind_eq_error] at h
    rcases h with h | ⟨a, -, h⟩
    · exact (set operand (by simp [Opcode.operands])).number_error h
    rw [bind_eq_error] at h
    rcases h with h | ⟨r, -, h⟩
    · exact unary_error h
    · cases h
  | compare op lhs rhs =>
    rw [compute, bind_eq_error] at h
    rcases h with h | ⟨a, -, h⟩
    · exact (set lhs (by simp [Opcode.operands])).number_error h
    rw [bind_eq_error] at h
    rcases h with h | ⟨b, -, h⟩
    · exact (set rhs (by simp [Opcode.operands])).number_error h
    · cases h
  | arrayLength array | typedArrayLength array =>
    rw [compute, bind_eq_error] at h
    rcases h with h | ⟨found, -, h⟩
    · exact (set array (by simp [Opcode.operands])).arrayAt_error stored h
    · cases h
  | loadElement array index | loadTyped array index element =>
    rw [compute, bind_eq_error] at h
    rcases h with h | ⟨found, -, h⟩
    · exact element_error stored (set array (by simp [Opcode.operands]))
        (set index (by simp [Opcode.operands])) h
    · cases h
  | storeElement array index value =>
    rw [compute, bind_eq_error] at h
    rcases h with h | ⟨x, -, h⟩
    · exact (set value (by simp [Opcode.operands])).number_error h
    rw [bind_eq_error] at h
    rcases h with h | ⟨found, -, h⟩
    · exact element_error stored (set array (by simp [Opcode.operands]))
        (set index (by simp [Opcode.operands])) h
    · cases h
  | boundsCheck index length minimum maximum movable =>
    rw [compute, bind_eq_error] at h
    rcases h with h | ⟨i, -, h⟩
    · exact (set index (by simp [Opcode.operands])).number_error h
    rw [bind_eq_error] at h
    rcases h with h | ⟨n, -, h⟩
    · exact (set length (by simp [Opcode.operands])).number_error h
    · split at h <;> cases h
      rfl
  | lowerCheck index minimum =>
    rw [compute, bind_eq_error] at h
    rcases h with h | ⟨i, -, h⟩
    · exact (set index (by simp [Opcode.operands])).number_error h
    · split at h <;> cases h
      rfl
  | call callee inputs =>
    cases inputs with
    | nil => cases h
    | cons first rest =>
      rw [compute, bind_eq_error] at h
      rcases h with h | ⟨slot, -, h⟩
      · exact absurd h ((set first (by simp [Opcode.operands])).read_ne_error v)
      · cases h
  | assertRange input range =>
    rw [compute, bind_eq_error] at h
    rcases h with h | ⟨x, -, h⟩
    · exact (set input (by simp [Opcode.operands])).number_error h
    · split at h <;> cases h
      rfl

/-- The store only grows, and an array that an instruction gives is in it. -/
theorem compute_stored {m' : Memory} {slot : Slot} (stored : m.ArraysStored)
    (h : compute args m v type o = .ok (m', slot)) :
    m.store.size ≤ m'.store.size ∧ ∀ place, slot = .array place → place < m'.store.size := by
  cases o with
  | const literal =>
    obtain ⟨rfl, rfl⟩ := Prod.mk.inj (pure_eq_ok.mp h)
    exact ⟨le_rfl, nofun⟩
  | param index =>
    have h := pure_eq_ok.mp h
    cases type <;> obtain ⟨rfl, rfl⟩ := Prod.mk.inj h
    case object =>
      refine ⟨by simp, fun place same => ?_⟩
      obtain rfl := Slot.array.inj same
      simp
    all_goals exact ⟨le_rfl, nofun⟩
  | phi inputs => cases h
  | beta input refinement =>
    obtain ⟨read, run, h⟩ := bind_eq_ok.mp h
    obtain ⟨rfl, rfl⟩ := Prod.mk.inj (pure_eq_ok.mp h)
    refine ⟨le_rfl, fun place same => stored input place ?_⟩
    rw [← same]
    exact (Memory.read_eq_ok.mp run).1
  | binary op lhs rhs flags =>
    obtain ⟨a, -, h⟩ := bind_eq_ok.mp h
    obtain ⟨b, -, h⟩ := bind_eq_ok.mp h
    obtain ⟨r, -, h⟩ := bind_eq_ok.mp h
    obtain ⟨rfl, rfl⟩ := Prod.mk.inj (pure_eq_ok.mp h)
    exact ⟨le_rfl, nofun⟩
  | unary op operand | compare op lhs rhs =>
    obtain ⟨a, -, h⟩ := bind_eq_ok.mp h
    obtain ⟨r, -, h⟩ := bind_eq_ok.mp h
    obtain ⟨rfl, rfl⟩ := Prod.mk.inj (pure_eq_ok.mp h)
    exact ⟨le_rfl, nofun⟩
  | arrayLength array | typedArrayLength array | loadElement array index
  | loadTyped array index element =>
    obtain ⟨a, -, h⟩ := bind_eq_ok.mp h
    obtain ⟨rfl, rfl⟩ := Prod.mk.inj (pure_eq_ok.mp h)
    exact ⟨le_rfl, nofun⟩
  | storeElement array index value =>
    obtain ⟨x, -, h⟩ := bind_eq_ok.mp h
    obtain ⟨a, -, h⟩ := bind_eq_ok.mp h
    obtain ⟨rfl, rfl⟩ := Prod.mk.inj (pure_eq_ok.mp h)
    exact ⟨by simp, nofun⟩
  | boundsCheck index length minimum maximum movable =>
    obtain ⟨i, -, h⟩ := bind_eq_ok.mp h
    obtain ⟨n, -, h⟩ := bind_eq_ok.mp h
    split at h
    · obtain ⟨rfl, rfl⟩ := Prod.mk.inj (pure_eq_ok.mp h)
      exact ⟨le_rfl, nofun⟩
    · cases h
  | lowerCheck index minimum | assertRange input range =>
    obtain ⟨i, -, h⟩ := bind_eq_ok.mp h
    split at h
    · obtain ⟨rfl, rfl⟩ := Prod.mk.inj (pure_eq_ok.mp h)
      exact ⟨le_rfl, nofun⟩
    · cases h
  | call callee inputs =>
    cases inputs with
    | nil =>
      obtain ⟨rfl, rfl⟩ := Prod.mk.inj (pure_eq_ok.mp h)
      exact ⟨le_rfl, nofun⟩
    | cons first rest =>
      obtain ⟨read, run, h⟩ := bind_eq_ok.mp h
      obtain ⟨rfl, rfl⟩ := Prod.mk.inj (pure_eq_ok.mp h)
      refine ⟨le_rfl, fun place same => stored first place ?_⟩
      rw [← same]
      exact (Memory.read_eq_ok.mp run).1

/-! ### States -/

/-- In every state of a run the available values are set and the arrays are stored. -/
theorem maintained_isSet (wf : f.WellFormed g) :
    Maintained f g args Memory.IsSet fun s => s.memory.ArraysStored where
  frame := by
    rintro m m' v ⟨same, -⟩ ⟨slot, found, set⟩
    exact ⟨slot, same.trans found, set⟩
  start := by
    intro s started v place found
    rw [(start_spec started).2.2, Memory.initial, Array.getElem?_replicate] at found
    split at found <;> cases found
  instr := by
    intro s t v rest holds next run
    obtain ⟨value, m, slot, found, computed, rfl⟩ := step_instr next run
    obtain ⟨slots, set⟩ := compute_slots computed
    obtain ⟨grown, new⟩ := compute_stored holds.state computed
    have inside : v < m.slots.size := by
      rw [slots, holds.stands.size]
      exact (Array.getElem?_eq_some_iff.mp found).1
    refine ⟨⟨slot, ?_, set⟩, fun w place at_w => ?_⟩
    · rw [Memory.slots_write, if_pos ⟨rfl, inside⟩]
    · rw [Memory.slots_write] at at_w
      split at at_w
      · exact new place (Option.some.inj at_w)
      · exact (holds.state w place (slots ▸ at_w)).trans_le grown
  enter := by
    intro s t holds last entered
    have phis : ∀ phi ∈ f.phisAt t.block, ∃ (x : ValueId) (slot : Slot),
        s.memory.slots[x]? = some slot ∧ slot ≠ .unset ∧ t.memory.slots[phi]? = some slot := by
      intro phi mem
      obtain ⟨inputs, x, slot, -, -, found, set, written⟩ := entered.phis phi mem
      refine ⟨x, slot, found, set, written ?_⟩
      rw [holds.stands.size]
      exact Procedure.lt_size_of_home? (wf.structured.phis _ phi mem).2
    refine ⟨fun phi mem => ?_, fun v place found => ?_⟩
    · obtain ⟨x, slot, -, set, written⟩ := phis phi mem
      exact ⟨slot, written, set⟩
    · rw [entered.store]
      by_cases mem : v ∈ f.phisAt t.block
      · obtain ⟨x, slot, at_x, -, written⟩ := phis v mem
        rw [found] at written
        exact holds.state x place (at_x.trans written.symm)
      · exact holds.state v place ((entered.others v mem).symm.trans found)

/-- A phi has an input for every edge into its block: as many inputs as there are predecessors, from
different ones. -/
theorem exists_input {b source : BlockId} {phi : ValueId} {inputs : List (ValueId × BlockId)}
    (wf : f.WellFormed g) (d : g.Describes f) (hb : b ∈ g.order) (edge : b ∈ f.successors source)
    (mem : phi ∈ f.phisAt b) (code : f.opcode? phi = some (.phi inputs)) :
    ∃ x, inputs.find? (fun input => input.2 == source) = some (x, source) ∧
      (x, source) ∈ inputs := by
  have uses := wf.uses b hb
  have sources : (inputs.map Prod.snd).Nodup := (wf.structured.sources phi inputs code).1
  have subset : inputs.map Prod.snd ⊆ g.predsOf b := by
    intro q hq
    obtain ⟨input, hinput, rfl⟩ := List.mem_map.mp hq
    exact (uses.inputs phi mem inputs code input hinput).1
  have perm : (inputs.map Prod.snd).Perm (g.predsOf b) := by
    apply (List.subperm_of_subset sources subset).perm_of_length_le
    rw [List.length_map, uses.arity phi mem inputs code]
  have listed : source ∈ inputs.map Prod.snd :=
    perm.mem_iff.mpr ((d.preds b source (d.order.inBounds b hb)).mpr edge)
  obtain ⟨input, hinput, from_source⟩ := List.mem_map.mp listed
  cases found : inputs.find? fun input => input.2 == source with
  | none => exact absurd from_source (by simpa using List.find?_eq_none.mp found input hinput)
  | some entry =>
    obtain ⟨x, q⟩ := entry
    obtain rfl : q = source := by simpa using List.find?_some found
    exact ⟨x, rfl, List.mem_of_find?_eq_some found⟩

/-- The phis of a block can take their new contents from any predecessor. -/
theorem incoming_ne_error {source : BlockId} {phis : List ValueId}
    (ready : ∀ phi ∈ phis, ∃ inputs x, f.opcode? phi = some (.phi inputs) ∧
      inputs.find? (fun input => input.2 == source) = some (x, source) ∧ m.IsSet x) :
    incoming f m source phis ≠ .error halt := by
  induction phis with
  | nil => exact nofun
  | cons phi rest ih =>
    obtain ⟨inputs, x, code, found, set⟩ := ready phi List.mem_cons_self
    have later := ih fun other mem => ready other (List.mem_cons_of_mem _ mem)
    intro h
    rw [incoming, ← Procedure.opcode?, code] at h
    simp only [found] at h
    rw [bind_eq_error] at h
    rcases h with h | ⟨slot, -, h⟩
    · exact set.read_ne_error phi h
    · rw [bind_eq_error] at h
      rcases h with h | ⟨slots, -, h⟩
      · exact later h
      · cases h

/-- Control can go over every edge. -/
theorem enter_ne_error {target : BlockId} (wf : f.WellFormed g) (d : g.Describes f)
    (all : f.AllListed) (reachable : s.block ∈ g.order) (last : s.pending = [])
    (set : ∀ v, Available f g s v → s.memory.IsSet v) (edge : target ∈ f.successors s.block) :
    enter f s.memory s.block target ≠ .error halt := by
  have exists_target : target < f.blocks.size := wf.structured.targets _ _ edge
  have reached : target ∈ g.order := d.order.closed _ reachable _ edge exists_target
  have found : f.blocks[target]? = some f.blocks[target] := Array.getElem?_eq_getElem exists_target
  have phis : f.phisAt target = f.blocks[target].phis := by simp [Procedure.phisAt, found]
  intro h
  rw [enter, found] at h
  simp only [bind_eq_error] at h
  rcases h with h | ⟨slots, -, h⟩
  · refine incoming_ne_error (fun phi mem => ?_) h
    rw [← phis] at mem
    obtain ⟨inputs, code⟩ := Procedure.exists_inputs (wf.structured.phis target phi mem).1
    obtain ⟨x, input, listed⟩ := exists_input wf d reached edge mem code
    have defined := ((wf.uses target reached).inputs phi mem inputs code _ listed).2
      (d.isReachable_iff.mpr reachable)
    exact ⟨inputs, x, code, input,
      set x ⟨f.instrsAt s.block, by simp [last], defined.readable all⟩⟩
  · cases h

/-- A state of a run of an accepted procedure ends the run in an orderly way, if it does. -/
theorem step_orderly (wf : f.WellFormed g) (d : g.Describes f) (all : f.AllListed)
    (holds : Holds f g args Memory.IsSet (fun s => s.memory.ArraysStored) s)
    (h : step f args s = .error halt) : halt.isOrderly = true := by
  cases next : s.pending with
  | cons v rest =>
    obtain ⟨before, split⟩ := holds.stands.position
    have listed : v ∈ f.instrsAt s.block := by simp [split, next]
    obtain ⟨kind, home⟩ := wf.structured.instrs _ v listed
    have inside := Procedure.lt_size_of_home? home
    have found : f.values[v]? = some f.values[v] := Array.getElem?_eq_getElem inside
    have code := Procedure.opcode?_of_value found
    rw [step_of_cons next code (Procedure.type?_of_value found), bind_eq_error] at h
    rcases h with h | ⟨computed, -, h⟩
    · refine compute_error holds.state (fun x hx => ?_) (Procedure.isPhi_eq code ▸ kind) h
      exact holds.values x (available_operand holds.stands wf next code hx)
    · cases h
  | nil =>
    have inside := d.order.inBounds _ holds.stands.reachable
    have found : f.blocks[s.block]? = some f.blocks[s.block] := Array.getElem?_eq_getElem inside
    have term : f.terminator? s.block = some f.blocks[s.block].terminator := by
      simp [Procedure.terminator?, found]
    have successors : f.successors s.block = f.blocks[s.block].terminator.successors := by
      simp [Procedure.successors, found]
    have set : ∀ v ∈ f.blocks[s.block].terminator.operand, s.memory.IsSet v := fun v hv =>
      holds.values v ⟨f.instrsAt s.block, by simp [next],
        (wf.uses _ holds.stands.reachable).result _ term v hv⟩
    have passes : ∀ target ∈ f.blocks[s.block].terminator.successors,
        enter f s.memory s.block target ≠ .error halt := fun target mem =>
      enter_ne_error wf d all holds.stands.reachable next holds.values (successors ▸ mem)
    rw [step_of_nil next term] at h
    cases kind : f.blocks[s.block].terminator with
    | goto target =>
      rw [kind] at h passes
      exact absurd h (passes target (by simp [Terminator.successors]))
    | branch c onTrue onFalse =>
      rw [kind] at h passes set
      simp only [leave, bind_eq_error] at h
      rcases h with h | ⟨x, -, h⟩
      · exact (set c (by simp [Terminator.operand])).number_error h
      · refine absurd h (passes _ ?_)
        split <;> simp [Terminator.successors]
    | exit result =>
      rw [kind] at h set
      cases result with
      | none =>
        cases h
        rfl
      | some v =>
        simp only [leave, bind_eq_error] at h
        rcases h with h | ⟨slot, -, h⟩
        · exact absurd h ((set v (by simp [Terminator.operand])).read_ne_error v)
        · split at h <;> cases h <;> rfl
    | unreachable =>
      rw [kind] at h
      cases h
      rfl

/-- Whatever the arguments and however long it goes on, a run of an accepted procedure never fails
for the way the procedure is built and never reaches for something that is not there. -/
theorem run_orderly (accepted : f.verify = .ok (.ok ())) (noPhis : f.phisAt f.entry = [])
    (all : f.AllListed) (args : List Number) (budget : Nat) :
    ∀ halt ∈ run f args budget, halt.isOrderly = true := by
  obtain ⟨-, g, built, wf⟩ := Procedure.verify_eq_ok.mp accepted
  have d := FlowGraph.build_describes wf.structured.numbered wf.structured.entry built
  intro halt ended
  rcases run_eq_some ended with failed | ⟨s, reached, failed⟩
  · rw [start_eq_ok wf.structured.entry] at failed
    cases failed
  · exact step_orderly wf d all ((maintained_isSet wf).reached wf d all noPhis reached) failed

/-- Adds up the elements of an array. -/
def arraySum : Procedure where
  name := "sum"
  entry := 0
  blocks := #[⟨0, [], [0, 1, 2, 3], .goto 1, false⟩, ⟨1, [4, 5], [6], .branch 6 2 3, false⟩,
    ⟨2, [], [7, 8, 9], .goto 1, false⟩, ⟨3, [], [], .exit (some 5), false⟩]
  values := #[⟨0, .param 0, .object, some 0, none⟩, ⟨1, .arrayLength 0, .int32, some 0, none⟩,
    ⟨2, .const (.int 0), .int32, some 0, none⟩, ⟨3, .const (.int 1), .int32, some 0, none⟩,
    ⟨4, .phi [(2, 0), (9, 2)], .int32, some 1, none⟩, ⟨5, .phi [(2, 0), (8, 2)], .int32, some 1, none⟩,
    ⟨6, .compare .lt 4 1, .boolean, some 1, none⟩, ⟨7, .loadTyped 0 4 .int32, .int32, some 2, none⟩,
    ⟨8, .binary .add 5 7 .checked, .int32, some 2, none⟩,
    ⟨9, .binary .add 4 3 .checked, .int32, some 2, none⟩]
  unsupported := false
  reasons := []

/-- The sum of an array satisfies the conditions. -/
theorem arraySum_run_orderly :
    (arraySum.verify = .ok (.ok ()) ∧ arraySum.phisAt arraySum.entry = [] ∧ arraySum.AllListed) ∧
    ∀ args budget, ∀ halt ∈ run arraySum args budget, halt.isOrderly = true := by
  have accepted : arraySum.verify = .ok (.ok ()) := by decide +kernel
  have all : arraySum.AllListed := by decide +kernel
  exact ⟨⟨accepted, rfl, all⟩, run_orderly accepted rfl all⟩

end Machine

end Rangefinder
