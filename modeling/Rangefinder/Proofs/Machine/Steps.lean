import Rangefinder.Machine.Run
import Rangefinder.Proofs.Stages.Insertion

/-!
# The states of a run

`Reached` are the states that a run of a procedure passes through. A step either computes the next
instruction (`step_instr`) or enters a block (`step_enters`); these two lemmas say all that a step
can do, and no later proof opens the definition of the machine.

In a procedure in static single assignment form the slots of the values that are available at a
state belong together: none of them is overwritten before the values computed from it are out of
reach. `Maintained.reached` turns this into the rule by which all later statements about runs are
proved: a property of single values that holds whenever the value is computed, and that speaks of
the slots of the value and its operands alone, holds of every available value in every state.
-/

namespace Rangefinder

/-- The opcode leaves the arrays alone. -/
def Opcode.isQuiet : Opcode → Bool
  | param _ | storeElement _ _ _ => false
  | _ => true

namespace Memory

variable {m : Memory} {v : ValueId}

/-- Reading a slot. -/
theorem read_eq_ok {user : ValueId} {slot : Slot} :
    m.read user v = .ok slot ↔ m.slots[v]? = some slot ∧ slot ≠ .unset := by
  rw [read]
  cases found : m.slots[v]? with
  | none => simp
  | some content => cases content <;> simp <;> grind

/-- Reading a number. -/
theorem number_eq_ok {x : Number} : m.number v = .ok x ↔ m.slots[v]? = some (.number x) := by
  rw [number, bind_eq_ok]
  constructor
  · rintro ⟨slot, read, h⟩
    split at h
    · exact pure_eq_ok.mp h ▸ (read_eq_ok.mp read).1
    · cases h
  · exact fun found => ⟨.number x, read_eq_ok.mpr ⟨found, by simp⟩, rfl⟩

/-- Reading an array. -/
theorem arrayAt_eq_ok {place : Nat} {content : ArrayObject} :
    m.arrayAt v = .ok (place, content) ↔
      m.slots[v]? = some (.array place) ∧ m.store[place]? = some content := by
  rw [arrayAt, bind_eq_ok]
  constructor
  · rintro ⟨slot, read, h⟩
    split at h
    · split at h
      · next stored =>
        obtain ⟨rfl, rfl⟩ := Prod.mk.inj (pure_eq_ok.mp h)
        exact ⟨(read_eq_ok.mp read).1, stored⟩
      · cases h
    · cases h
  · rintro ⟨found, stored⟩
    exact ⟨.array place, read_eq_ok.mpr ⟨found, by simp⟩, by simp only [stored]; rfl⟩

/-- What is written. -/
theorem slots_write (m : Memory) (v w : ValueId) (slot : Slot) :
    (m.write v slot).slots[w]? = if w = v ∧ v < m.slots.size then some slot else m.slots[w]? := by
  rw [write, Array.getElem?_setIfInBounds]
  grind

/-- Writing adds no slot. -/
theorem size_write (m : Memory) (v : ValueId) (slot : Slot) :
    (m.write v slot).slots.size = m.slots.size := by
  rw [write, Array.size_setIfInBounds]

end Memory

namespace Machine

variable {f : Procedure} {g : FlowGraph} {args : List Number} {s : State} {type : ValueType} {v : ValueId}
  {o : Opcode} {m : Memory} {rest : List ValueId} {slot : Slot} {halt : Halt} {last : Nat}

/-- Computing a value changes no slot, and its result can be read. -/
theorem compute_slots {m m' : Memory} (h : compute args m v type o = .ok (m', slot)) :
    m'.slots = m.slots ∧ slot ≠ .unset := by
  cases o with
  | const literal =>
    obtain ⟨rfl, rfl⟩ := Prod.mk.inj (pure_eq_ok.mp h)
    exact ⟨rfl, by simp⟩
  | param index =>
    have h := pure_eq_ok.mp h
    cases type <;> obtain ⟨rfl, rfl⟩ := Prod.mk.inj h <;> exact ⟨rfl, by simp⟩
  | phi inputs => cases h
  | beta input refinement =>
    obtain ⟨read, run, h⟩ := bind_eq_ok.mp h
    obtain ⟨rfl, rfl⟩ := Prod.mk.inj (pure_eq_ok.mp h)
    exact ⟨rfl, (Memory.read_eq_ok.mp run).2⟩
  | binary op lhs rhs flags =>
    obtain ⟨a, -, h⟩ := bind_eq_ok.mp h
    obtain ⟨b, -, h⟩ := bind_eq_ok.mp h
    obtain ⟨r, -, h⟩ := bind_eq_ok.mp h
    obtain ⟨rfl, rfl⟩ := Prod.mk.inj (pure_eq_ok.mp h)
    exact ⟨rfl, by simp⟩
  | unary op operand =>
    obtain ⟨a, -, h⟩ := bind_eq_ok.mp h
    obtain ⟨r, -, h⟩ := bind_eq_ok.mp h
    obtain ⟨rfl, rfl⟩ := Prod.mk.inj (pure_eq_ok.mp h)
    exact ⟨rfl, by simp⟩
  | compare op lhs rhs =>
    obtain ⟨a, -, h⟩ := bind_eq_ok.mp h
    obtain ⟨b, -, h⟩ := bind_eq_ok.mp h
    obtain ⟨rfl, rfl⟩ := Prod.mk.inj (pure_eq_ok.mp h)
    exact ⟨rfl, by simp⟩
  | arrayLength array =>
    obtain ⟨a, -, h⟩ := bind_eq_ok.mp h
    obtain ⟨rfl, rfl⟩ := Prod.mk.inj (pure_eq_ok.mp h)
    exact ⟨rfl, by simp⟩
  | typedArrayLength array =>
    obtain ⟨a, -, h⟩ := bind_eq_ok.mp h
    obtain ⟨rfl, rfl⟩ := Prod.mk.inj (pure_eq_ok.mp h)
    exact ⟨rfl, by simp⟩
  | loadElement array index =>
    obtain ⟨a, -, h⟩ := bind_eq_ok.mp h
    obtain ⟨rfl, rfl⟩ := Prod.mk.inj (pure_eq_ok.mp h)
    exact ⟨rfl, by simp⟩
  | loadTyped array index element =>
    obtain ⟨a, -, h⟩ := bind_eq_ok.mp h
    obtain ⟨rfl, rfl⟩ := Prod.mk.inj (pure_eq_ok.mp h)
    exact ⟨rfl, by simp⟩
  | storeElement array index stored =>
    obtain ⟨x, -, h⟩ := bind_eq_ok.mp h
    obtain ⟨a, -, h⟩ := bind_eq_ok.mp h
    obtain ⟨rfl, rfl⟩ := Prod.mk.inj (pure_eq_ok.mp h)
    exact ⟨rfl, by simp⟩
  | boundsCheck index length minimum maximum movable =>
    obtain ⟨i, -, h⟩ := bind_eq_ok.mp h
    obtain ⟨n, -, h⟩ := bind_eq_ok.mp h
    split at h
    · obtain ⟨rfl, rfl⟩ := Prod.mk.inj (pure_eq_ok.mp h)
      exact ⟨rfl, by simp⟩
    · cases h
  | lowerCheck index minimum =>
    obtain ⟨i, -, h⟩ := bind_eq_ok.mp h
    split at h
    · obtain ⟨rfl, rfl⟩ := Prod.mk.inj (pure_eq_ok.mp h)
      exact ⟨rfl, by simp⟩
    · cases h
  | call callee inputs =>
    cases inputs with
    | nil =>
      obtain ⟨rfl, rfl⟩ := Prod.mk.inj (pure_eq_ok.mp h)
      exact ⟨rfl, by simp⟩
    | cons first rest =>
      obtain ⟨read, run, h⟩ := bind_eq_ok.mp h
      obtain ⟨rfl, rfl⟩ := Prod.mk.inj (pure_eq_ok.mp h)
      exact ⟨rfl, (Memory.read_eq_ok.mp run).2⟩
  | assertRange input range =>
    obtain ⟨x, -, h⟩ := bind_eq_ok.mp h
    split at h
    · obtain ⟨rfl, rfl⟩ := Prod.mk.inj (pure_eq_ok.mp h)
      exact ⟨rfl, by simp⟩
    · cases h

/-- A quiet opcode computes the slot of its value and nothing else. -/
theorem compute_quiet {m m' : Memory} (quiet : o.isQuiet = true)
    (h : compute args m v type o = .ok (m', slot)) : m' = m := by
  cases o with
  | param | storeElement => cases quiet
  | phi inputs => cases h
  | const literal => exact (Prod.mk.inj (pure_eq_ok.mp h)).1.symm
  | unary | beta | arrayLength | typedArrayLength | loadElement | loadTyped =>
    obtain ⟨a, -, h⟩ := bind_eq_ok.mp h
    first
    | exact (Prod.mk.inj (pure_eq_ok.mp h)).1.symm
    | obtain ⟨r, -, h⟩ := bind_eq_ok.mp h
      exact (Prod.mk.inj (pure_eq_ok.mp h)).1.symm
  | binary | compare =>
    obtain ⟨a, -, h⟩ := bind_eq_ok.mp h
    obtain ⟨b, -, h⟩ := bind_eq_ok.mp h
    first
    | exact (Prod.mk.inj (pure_eq_ok.mp h)).1.symm
    | obtain ⟨r, -, h⟩ := bind_eq_ok.mp h
      exact (Prod.mk.inj (pure_eq_ok.mp h)).1.symm
  | boundsCheck index length minimum maximum movable =>
    obtain ⟨i, -, h⟩ := bind_eq_ok.mp h
    obtain ⟨n, -, h⟩ := bind_eq_ok.mp h
    split at h
    · exact (Prod.mk.inj (pure_eq_ok.mp h)).1.symm
    · cases h
  | lowerCheck | assertRange =>
    obtain ⟨x, -, h⟩ := bind_eq_ok.mp h
    split at h
    · exact (Prod.mk.inj (pure_eq_ok.mp h)).1.symm
    · cases h
  | call callee inputs =>
    cases inputs with
    | nil => exact (Prod.mk.inj (pure_eq_ok.mp h)).1.symm
    | cons first rest =>
      obtain ⟨slot, -, h⟩ := bind_eq_ok.mp h
      exact (Prod.mk.inj (pure_eq_ok.mp h)).1.symm

/-- The states that a run of a procedure passes through. -/
inductive Reached (f : Procedure) (args : List Number) : State → Prop
  | start {s : State} (h : Machine.start f = .ok s) : Reached f args s
  | step {s t : State} (before : Reached f args s) (h : Machine.step f args s = .ok t) :
    Reached f args t

/-- The state that a run is in after the given number of steps. -/
def stateAfter (f : Procedure) (args : List Number) : Nat → Except Halt State
  | 0 => start f
  | n + 1 => stateAfter f args n >>= step f args

/-- The states that a run passes through are those after some number of steps. -/
theorem reached_iff_stateAfter :
    Reached f args s ↔ ∃ n, stateAfter f args n = .ok s := by
  constructor
  · intro reached
    induction reached with
    | start started => exact ⟨0, started⟩
    | step _ next ih =>
      obtain ⟨n, before⟩ := ih
      exact ⟨n + 1, bind_eq_ok.mpr ⟨_, before, next⟩⟩
  · rintro ⟨n, after⟩
    induction n generalizing s with
    | zero => exact .start after
    | succ n ih =>
      obtain ⟨t, before, next⟩ := bind_eq_ok.mp after
      exact (ih before).step next

/-- A run that has ended goes no further. -/
theorem stateAfter_ended (ended : (stateAfter f args last).isOk = false) (more : Nat) :
    (stateAfter f args (last + more)).isOk = false := by
  induction more with
  | zero => exact ended
  | succ more ih =>
    cases after : stateAfter f args (last + more) with
    | ok s =>
      rw [after] at ih
      cases ih
    | error halt =>
      rw [← Nat.add_assoc, stateAfter, after]
      rfl

/-- What holds in the states before a run has ended holds in all that it reaches. -/
theorem Reached.of_stateAfter {holds : State → Bool} (ended : (stateAfter f args last).isOk = false)
    (checked : ∀ n < last, (stateAfter f args n).toOption.all holds = true) (reached : Reached f args s) :
    holds s = true := by
  obtain ⟨n, after⟩ := reached_iff_stateAfter.mp reached
  have before : n < last := by
    by_contra late
    obtain ⟨more, rfl⟩ := Nat.exists_eq_add_of_le (Nat.not_lt.mp late)
    have := stateAfter_ended ended more
    rw [after] at this
    cases this
  have := checked n before
  rwa [after] at this

/-- A run that has ended ends the same way with a greater budget. -/
theorem run_of_le {budget more : Nat} (h : run f args budget = some halt) (le : budget ≤ more) :
    run f args more = some halt := by
  rw [run] at h ⊢
  split at h
  · exact resume_of_le h le
  · exact h

/-- A run that ends does so at its start or in a state that it has reached. -/
theorem run_eq_some {budget : Nat} (h : run f args budget = some halt) :
    start f = .error halt ∨ ∃ s, Reached f args s ∧ step f args s = .error halt := by
  rw [run] at h
  split at h
  · next s started =>
    right
    have reached : Reached f args s := .start started
    clear started
    induction budget generalizing s with
    | zero => cases h
    | succ budget ih =>
      rw [resume] at h
      split at h
      · next t next => exact ih t h (reached.step next)
      · next halted ended => exact ⟨s, reached, Option.some.inj h ▸ ended⟩
  · next started => exact .inl (Option.some.inj h ▸ started)

/-- A state with an instruction to come computes it. -/
theorem step_of_cons (next : s.pending = v :: rest) (code : f.opcode? v = some o)
    (typed : f.type? v = some type) :
    step f args s = (compute args s.memory v type o >>= fun result =>
      pure ⟨s.block, rest, result.1.write v result.2⟩) := by
  obtain ⟨value, found, rfl⟩ := Option.map_eq_some_iff.mp code
  obtain rfl := Option.some.inj ((Procedure.type?_of_value found).symm.trans typed)
  rw [step, next]
  simp only [found]

/-- A state at the end of its block executes the terminator. -/
theorem step_of_nil {t : Terminator} (last : s.pending = []) (term : f.terminator? s.block = some t) :
    step f args s = leave f s.memory s.block t := by
  obtain ⟨block, found, rfl⟩ := Option.map_eq_some_iff.mp term
  rw [step, last]
  simp only [found]

/-- A step that computes an instruction. -/
theorem step_instr {s t : State} (next : s.pending = v :: rest) (h : step f args s = .ok t) :
    ∃ value m slot, f.values[v]? = some value ∧
      compute args s.memory v value.type value.opcode = .ok (m, slot) ∧
      t = ⟨s.block, rest, m.write v slot⟩ := by
  rw [step, next] at h
  dsimp only at h
  split at h
  · cases h
  · next value found =>
    obtain ⟨⟨m, slot⟩, computed, h⟩ := bind_eq_ok.mp h
    exact ⟨value, m, slot, found, computed, (pure_eq_ok.mp h).symm⟩

/-- What happens when control goes from one block to another: the phis of the new block take the
contents of their inputs, and nothing else changes. -/
structure Enters (f : Procedure) (s t : State) : Prop where
  edge : t.block ∈ f.successors s.block
  pending : t.pending = f.instrsAt t.block
  store : t.memory.store = s.memory.store
  size : t.memory.slots.size = s.memory.slots.size
  phis : ∀ phi ∈ f.phisAt t.block, ∃ inputs x slot, f.opcode? phi = some (.phi inputs) ∧
    inputs.find? (fun input => input.2 == s.block) = some (x, s.block) ∧
    s.memory.slots[x]? = some slot ∧ slot ≠ .unset ∧
    (phi < s.memory.slots.size → t.memory.slots[phi]? = some slot)
  others : ∀ v ∉ f.phisAt t.block, t.memory.slots[v]? = s.memory.slots[v]?
  test : ∀ c onTrue onFalse, f.terminator? s.block = some (.branch c onTrue onFalse) →
    ∃ x, s.memory.slots[c]? = some (.number x) ∧
      t.block = if x.isTruthy then onTrue else onFalse

/-- What phis are given. -/
theorem incoming_spec {source : BlockId} {phis : List ValueId} {slots : List (ValueId × Slot)}
    (h : incoming f m source phis = .ok slots) :
    slots.map Prod.fst = phis ∧ ∀ e ∈ slots, ∃ inputs x, f.opcode? e.1 = some (.phi inputs) ∧
      inputs.find? (fun input => input.2 == source) = some (x, source) ∧
      m.slots[x]? = some e.2 ∧ e.2 ≠ .unset := by
  induction phis generalizing slots with
  | nil =>
    obtain rfl := Except.ok.inj h
    simp
  | cons phi rest ih =>
    rw [incoming, ← Procedure.opcode?] at h
    split at h
    · cases h
    · next inputs code =>
      split at h
      · cases h
      · next x q found =>
        obtain ⟨slot, read, h⟩ := bind_eq_ok.mp h
        obtain ⟨others, later, h⟩ := bind_eq_ok.mp h
        obtain rfl := pure_eq_ok.mp h
        obtain ⟨names, spec⟩ := ih later
        obtain ⟨content, set⟩ := Memory.read_eq_ok.mp read
        have from_source : q = source := by simpa using List.find?_some found
        refine ⟨by rw [List.map_cons, names], fun e he => ?_⟩
        rcases List.mem_cons.mp he with rfl | he
        · exact ⟨inputs, x, code, from_source ▸ found, content, set⟩
        · exact spec e he
    · cases h

/-- Writing slots one after another changes those and no others. -/
theorem slots_foldl_write {l : List (ValueId × Slot)} (nodup : (l.map Prod.fst).Nodup) :
    (l.foldl (fun m e => m.write e.1 e.2) m).store = m.store ∧
    (l.foldl (fun m e => m.write e.1 e.2) m).slots.size = m.slots.size ∧
    (∀ e ∈ l, e.1 < m.slots.size →
      (l.foldl (fun m e => m.write e.1 e.2) m).slots[e.1]? = some e.2) ∧
    ∀ v ∉ l.map Prod.fst, (l.foldl (fun m e => m.write e.1 e.2) m).slots[v]? = m.slots[v]? := by
  induction l generalizing m with
  | nil => simp
  | cons e rest ih =>
    rw [List.map_cons, List.nodup_cons] at nodup
    obtain ⟨store, size, written, kept⟩ := @ih (m.write e.1 e.2) nodup.2
    rw [List.foldl_cons]
    refine ⟨store, size.trans (m.size_write e.1 e.2), fun e' he' lt => ?_, fun v hv => ?_⟩
    · rcases List.mem_cons.mp he' with rfl | he'
      · rw [kept _ nodup.1, Memory.slots_write, if_pos ⟨rfl, lt⟩]
      · exact written e' he' (by rwa [Memory.size_write])
    · rw [List.map_cons, List.mem_cons, not_or] at hv
      rw [kept v hv.2, Memory.slots_write, if_neg fun same => hv.1 same.1]

/-- Entering a block has the effect that `Enters` describes. -/
theorem enter_spec {source target : BlockId} {t : State} (nodup : ∀ b, (f.phisAt b).Nodup)
    (h : enter f m source target = .ok t) :
    t.block = target ∧ t.pending = f.instrsAt target ∧ t.memory.store = m.store ∧
      t.memory.slots.size = m.slots.size ∧
      (∀ phi ∈ f.phisAt target, ∃ inputs x slot, f.opcode? phi = some (.phi inputs) ∧
        inputs.find? (fun input => input.2 == source) = some (x, source) ∧
        m.slots[x]? = some slot ∧ slot ≠ .unset ∧
        (phi < m.slots.size → t.memory.slots[phi]? = some slot)) ∧
      ∀ v ∉ f.phisAt target, t.memory.slots[v]? = m.slots[v]? := by
  rw [enter] at h
  split at h
  · cases h
  · next block found =>
    obtain ⟨slots, incoming, h⟩ := bind_eq_ok.mp h
    obtain rfl := pure_eq_ok.mp h
    have phis : f.phisAt target = block.phis := by simp [Procedure.phisAt, found]
    have instrs : f.instrsAt target = block.instrs := by simp [Procedure.instrsAt, found]
    obtain ⟨names, spec⟩ := incoming_spec incoming
    obtain ⟨store, size, written, kept⟩ := @slots_foldl_write m slots (names ▸ phis ▸ nodup target)
    refine ⟨rfl, instrs.symm, store, size, fun phi mem => ?_, fun v hv => ?_⟩
    · rw [phis, ← names] at mem
      obtain ⟨e, he, rfl⟩ := List.mem_map.mp mem
      obtain ⟨inputs, x, code, input, content, set⟩ := spec e he
      exact ⟨inputs, x, e.2, code, input, content, set, written e he⟩
    · exact kept v (names ▸ phis ▸ hv)

/-- A step at the end of a block enters another one. -/
theorem step_enters {s t : State} (nodup : ∀ b, (f.phisAt b).Nodup) (last : s.pending = [])
    (h : step f args s = .ok t) : Enters f s t := by
  rw [step, last] at h
  dsimp only at h
  split at h
  · cases h
  · next block found =>
    have term : f.terminator? s.block = some block.terminator := by
      simp [Procedure.terminator?, found]
    have successors : f.successors s.block = block.terminator.successors := by
      simp [Procedure.successors, found]
    cases kind : block.terminator with
    | goto target =>
      rw [kind, leave] at h
      obtain ⟨rfl, pending, store, size, phis, others⟩ := enter_spec nodup h
      refine ⟨by simp [successors, kind, Terminator.successors], pending, store, size, phis, others,
        fun c onTrue onFalse branch => ?_⟩
      rw [term, kind] at branch
      cases branch
    | branch cond onTrue onFalse =>
      rw [kind, leave] at h
      obtain ⟨x, number, h⟩ := bind_eq_ok.mp h
      obtain ⟨target, pending, store, size, phis, others⟩ := enter_spec nodup h
      rw [← target] at pending phis others
      refine ⟨?_, pending, store, size, phis, others, fun c onTrue' onFalse' branch => ?_⟩
      · rw [successors, kind, Terminator.successors, target]
        split <;> simp
      · rw [term, kind] at branch
        cases branch
        exact ⟨x, Memory.number_eq_ok.mp number, target⟩
    | exit result =>
      rw [kind] at h
      cases result with
      | none => cases h
      | some v =>
        rw [leave] at h
        obtain ⟨slot, -, h⟩ := bind_eq_ok.mp h
        split at h <;> cases h
    | unreachable =>
      rw [kind, leave] at h
      cases h

/-- A run starts before the first instruction of the entry, with nothing computed. -/
theorem start_spec (h : start f = .ok s) :
    s.block = f.entry ∧ s.pending = f.instrsAt f.entry ∧ s.memory = Memory.initial f := by
  rw [start] at h
  split at h
  · cases h
  · next block found =>
    obtain rfl := Except.ok.inj h
    exact ⟨rfl, by simp [Procedure.instrsAt, found], rfl⟩

/-- A run starts if there is an entry. -/
theorem start_eq_ok (entry : f.entry < f.blocks.size) :
    start f = .ok ⟨f.entry, f.instrsAt f.entry, Memory.initial f⟩ := by
  have here : f.blocks[f.entry]? = some f.blocks[f.entry] := Array.getElem?_eq_getElem entry
  rw [start, Procedure.instrsAt, here]
  rfl

/-! ### Available values -/

/-- The state stands somewhere in a reachable block, with a slot for every value. -/
structure Stands (f : Procedure) (g : FlowGraph) (s : State) : Prop where
  reachable : s.block ∈ g.order
  position : ∃ before, f.instrsAt s.block = before ++ s.pending
  size : s.memory.slots.size = f.values.size

/-- The value has been computed when a run is in the state. -/
def Available (f : Procedure) (g : FlowGraph) (s : State) (v : ValueId) : Prop :=
  ∃ before, f.instrsAt s.block = before ++ s.pending ∧
    f.Readable g s.block (f.phisAt s.block ++ before) v

variable {t : State}

/-- The entry is reachable. -/
theorem entry_mem_order (d : g.Describes f) : f.entry ∈ g.order :=
  List.mem_of_mem_head? d.order.first

/-- A step that computes an instruction moves on within the block. -/
theorem Stands.instr (h : Stands f g s) (next : s.pending = v :: rest) (run : step f args s = .ok t) :
    Stands f g t := by
  obtain ⟨value, m, slot, -, computed, rfl⟩ := step_instr next run
  obtain ⟨before, split⟩ := h.position
  refine ⟨h.reachable, ⟨before ++ [v], by simp [split, next]⟩, ?_⟩
  rw [Memory.size_write, (compute_slots computed).1, h.size]

/-- A step at the end of a block moves to the beginning of a reachable one. -/
theorem Stands.enters (h : Stands f g s) (wf : f.WellFormed g) (d : g.Describes f)
    (entered : Enters f s t) : Stands f g t := by
  refine ⟨?_, ⟨[], by rw [entered.pending, List.nil_append]⟩, entered.size.trans h.size⟩
  exact d.order.closed _ h.reachable _ entered.edge (wf.structured.targets _ _ entered.edge)

/-- Phis are listed once. -/
theorem nodup_phisAt (wf : f.WellFormed g) (b : BlockId) : (f.phisAt b).Nodup :=
  (wf.structured.nodup b).sublist (List.sublist_append_left _ _)

/-- Every state of a run stands in a reachable block. -/
theorem Reached.stands (wf : f.WellFormed g) (d : g.Describes f) (h : Reached f args s) :
    Stands f g s := by
  induction h with
  | start started =>
    obtain ⟨block, pending, memory⟩ := start_spec started
    refine ⟨block ▸ entry_mem_order d, ⟨[], by rw [pending, block, List.nil_append]⟩, ?_⟩
    simp [memory, Memory.initial]
  | @step s t before run ih =>
    cases next : s.pending with
    | nil => exact ih.enters wf d (step_enters (nodup_phisAt wf) next run)
    | cons v rest => exact ih.instr next run

/-- The instruction to be computed next is not available yet. -/
theorem not_available_next (wf : f.WellFormed g) (next : s.pending = v :: rest) :
    ¬Available f g s v := by
  rintro ⟨before, split, home, stands, here⟩
  rw [next] at split
  have listed : v ∈ f.instrsAt s.block := by simp [split]
  obtain rfl := Option.some.inj (stands.symm.trans (wf.structured.instrs _ v listed).2)
  rw [if_pos rfl] at here
  have nodup := wf.structured.nodup s.block
  rw [Procedure.membersAt, split, ← List.append_assoc] at nodup
  exact (List.nodup_append.mp nodup).2.2 v here v (by simp) rfl

/-- The operands of an available instruction are available. -/
theorem Available.operand {v x : ValueId} (h : Available f g s v) (stands : Stands f g s)
    (wf : f.WellFormed g) (d : g.Describes f) (all : f.AllListed) (code : f.opcode? v = some o)
    (kind : o.isPhi = false) (hx : x ∈ o.operands) :
    Available f g s x := by
  obtain ⟨before, split, read⟩ := h
  obtain ⟨home, homeV, -⟩ := id read
  have hv := wf.structured.mem_instrsAt_of_home all homeV code kind
  exact ⟨before, split, wf.readable_operand d hv code hx stands.reachable split read⟩

/-- The operands of the next instruction are available. -/
theorem available_operand {v x : ValueId} (stands : Stands f g s) (wf : f.WellFormed g)
    (next : s.pending = v :: rest) (code : f.opcode? v = some o) (hx : x ∈ o.operands) :
    Available f g s x := by
  obtain ⟨before, split⟩ := stands.position
  have reads := (wf.uses _ stands.reachable).reads before v rest (next ▸ split) o code x hx
  exact ⟨before, split, reads⟩

/-- Computing an instruction makes it available and nothing else. -/
theorem Available.of_instr {v w : ValueId} (h : Available f g ⟨s.block, rest, m⟩ w)
    (stands : Stands f g s) (next : s.pending = v :: rest) (ne : w ≠ v) :
    Available f g s w := by
  obtain ⟨before, split, home, homeW, here⟩ := h
  obtain ⟨passed, at_s⟩ := stands.position
  obtain rfl : before = passed ++ [v] := by
    have : before ++ rest = (passed ++ [v]) ++ rest := by rw [← split, at_s, next]; simp
    exact List.append_cancel_right this
  refine ⟨passed, at_s, home, homeW, ?_⟩
  split at here
  · next own =>
    rw [if_pos own]
    simp only [List.mem_append, List.mem_singleton] at here ⊢
    tauto
  · next other => rw [if_neg other]; exact here

/-- What is defined at the end of a block is available there. -/
theorem available_of_definedAtEnd (all : f.AllListed) (last : s.pending = [])
    (defined : f.DefinedAtEnd g v s.block) : Available f g s v :=
  ⟨f.instrsAt s.block, by simp [last], defined.readable all⟩

/-- What is available at the beginning of a block and is none of its phis was available at the end of
the block before, and stands above the block. -/
theorem Available.of_enters {w : ValueId} (h : Available f g t w) (entered : Enters f s t)
    (stands : Stands f g s) (d : g.Describes f) (all : f.AllListed)
    (last : s.pending = []) (other : w ∉ f.phisAt t.block) :
    Available f g s w ∧ f.DefinedAbove g w t.block := by
  obtain ⟨before, split, home, homeW, here⟩ := h
  obtain rfl : before = [] := by
    rw [entered.pending] at split
    simpa using split
  rw [List.append_nil] at here
  split at here
  · exact absurd here other
  · next ne =>
    obtain ⟨reachable, above⟩ := d.dominates_iff.mp here
    have above' := d.above_pred stands.reachable entered.edge reachable above ne
    exact ⟨available_of_definedAtEnd all last
      ⟨home, homeW, d.dominates_iff.mpr ⟨stands.reachable, above'⟩⟩, home, homeW, ne, here⟩

/-- What a block hands to a phi of the next one can be read at the end of the block. -/
theorem available_input {target : BlockId} {phi x : ValueId} {inputs : List (ValueId × BlockId)}
    (wf : f.WellFormed g) (d : g.Describes f) (all : f.AllListed) (stands : Stands f g s)
    (last : s.pending = []) (entered : target ∈ g.order) (mem : phi ∈ f.phisAt target)
    (code : f.opcode? phi = some (.phi inputs)) (listed : (x, s.block) ∈ inputs) :
    Available f g s x :=
  available_of_definedAtEnd all last (((wf.uses target entered).inputs phi mem inputs code _ listed).2
    (d.isReachable_iff.mpr stands.reachable))

/-- An instruction above a block reads no phi of the block. -/
theorem not_mem_phisAt_of_operand {w x : ValueId} {c : BlockId} (h : f.DefinedAbove g w c)
    (wf : f.WellFormed g) (d : g.Describes f) (all : f.AllListed) (code : f.opcode? w = some o)
    (kind : o.isPhi = false) (hx : x ∈ o.operands) :
    x ∉ f.phisAt c := by
  intro phi
  obtain ⟨home, homeW, ne, dominates⟩ := h
  obtain ⟨reachable, above⟩ := d.dominates_iff.mp dominates
  have hw := wf.structured.mem_instrsAt_of_home all homeW code kind
  have hhome := d.mem_order_of_above reachable above
  obtain ⟨homeX, standsX, dominatesX⟩ := wf.definedAtEnd_operand d hw code hx
    ⟨home, homeW, d.dominates_iff.mpr ⟨hhome, .refl⟩⟩
  obtain rfl := Option.some.inj (standsX.symm.trans (wf.structured.phis c x phi).2)
  exact ne (d.above_antisymm above (d.dominates_iff.mp dominatesX).2)

/-! ### What every state of a run has -/

/-- The slots of a value and of what it is computed from are the same in two memories. The inputs of
a phi are left out: they may change before the phi does. -/
def SameSlots (f : Procedure) (m m' : Memory) (v : ValueId) : Prop :=
  m'.slots[v]? = m.slots[v]? ∧ ∀ o, f.opcode? v = some o → o.isPhi = false →
    ∀ x ∈ o.operands, m'.slots[x]? = m.slots[x]?

/-- A state of a run in which the available values have one property and the state another. -/
structure Holds (f : Procedure) (g : FlowGraph) (args : List Number)
    (ofValue : Memory → ValueId → Prop) (ofState : State → Prop) (s : State) : Prop where
  reached : Reached f args s
  stands : Stands f g s
  values : ∀ v, Available f g s v → ofValue s.memory v
  state : ofState s

/-- The slot of an instruction that was computed holds its result. -/
theorem step_computes (stands : Stands f g s) (next : s.pending = v :: rest)
    (code : f.opcode? v = some o) (run : step f args s = .ok t) :
    ∃ type m slot, f.type? v = some type ∧ compute args s.memory v type o = .ok (m, slot) ∧
      t = ⟨s.block, rest, m.write v slot⟩ ∧ t.memory.slots[v]? = some slot := by
  obtain ⟨value, m, slot, found, computed, rfl⟩ := step_instr next run
  have same := Option.some.inj ((Procedure.opcode?_of_value found).symm.trans code)
  have inside : v < m.slots.size := by
    rw [(compute_slots computed).1, stands.size]
    exact (Array.getElem?_eq_some_iff.mp found).1
  refine ⟨value.type, m, slot, Procedure.type?_of_value found, same ▸ computed, rfl, ?_⟩
  rw [Memory.slots_write, if_pos ⟨rfl, inside⟩]

/-- Every step establishes the property of values for what it computes, and keeps the property of
states. -/
structure Maintained (f : Procedure) (g : FlowGraph) (args : List Number)
    (ofValue : Memory → ValueId → Prop) (ofState : State → Prop) : Prop where
  frame : ∀ m m' v, SameSlots f m m' v → ofValue m v → ofValue m' v
  start : ∀ s, Machine.start f = .ok s → ofState s
  instr : ∀ s t v rest, Holds f g args ofValue ofState s → s.pending = v :: rest →
    Machine.step f args s = .ok t → ofValue t.memory v ∧ ofState t
  enter : ∀ s t, Holds f g args ofValue ofState s → s.pending = [] → Enters f s t →
    (∀ phi ∈ f.phisAt t.block, ofValue t.memory phi) ∧ ofState t

/-- Computing an instruction leaves the slots of all available values as they are. -/
theorem slots_of_instr {v w : ValueId} (wf : f.WellFormed g) (next : s.pending = v :: rest)
    (run : step f args s = .ok t) (avail : Available f g s w) :
    t.memory.slots[w]? = s.memory.slots[w]? := by
  obtain ⟨value, m, slot, -, computed, rfl⟩ := step_instr next run
  have ne : w ≠ v := fun same => not_available_next wf next (same ▸ avail)
  rw [Memory.slots_write, if_neg fun h => ne h.1, (compute_slots computed).1]

/-- Properties that every step maintains hold in every state of a run. -/
theorem Maintained.reached {ofValue : Memory → ValueId → Prop} {ofState : State → Prop}
    (h : Maintained f g args ofValue ofState) (wf : f.WellFormed g) (d : g.Describes f)
    (all : f.AllListed) (noPhis : f.phisAt f.entry = []) (reached : Reached f args s) :
    Holds f g args ofValue ofState s := by
  induction reached with
  | @start s started =>
    have reached : Reached f args s := .start started
    refine ⟨reached, reached.stands wf d, fun v avail => ?_, h.start s started⟩
    -- Nothing is available at the start: the entry has no phis, and nothing stands above it.
    obtain ⟨block, pending, -⟩ := start_spec started
    obtain ⟨before, split, home, -, here⟩ := avail
    obtain rfl : before = [] := by
      rw [pending, block] at split
      simpa using split
    rw [block, noPhis] at here
    split at here
    · cases here
    · next ne =>
      have above := (d.dominates_iff.mp here).2
      exact absurd (d.above_antisymm above (d.entry_above
        (d.mem_order_of_above (entry_mem_order d) above))) ne
  | @step s t before run ih =>
    have reached := before.step run
    have stands := reached.stands wf d
    cases next : s.pending with
    | nil =>
      have entered := step_enters (nodup_phisAt wf) next run
      obtain ⟨phis, state⟩ := h.enter s t ih next entered
      refine ⟨reached, stands, fun w avail => ?_, state⟩
      by_cases phi : w ∈ f.phisAt t.block
      · exact phis w phi
      · obtain ⟨earlier, above⟩ := avail.of_enters entered ih.stands d all next phi
        refine h.frame s.memory t.memory w ⟨entered.others w phi, ?_⟩ (ih.values w earlier)
        exact fun o code kind x hx =>
          entered.others x (not_mem_phisAt_of_operand above wf d all code kind hx)
    | cons v rest =>
      obtain ⟨own, state⟩ := h.instr s t v rest ih next run
      refine ⟨reached, stands, fun w avail => ?_, state⟩
      by_cases same : w = v
      · exact same ▸ own
      · have earlier : Available f g s w := by
          obtain ⟨value, m, slot, -, -, rfl⟩ := step_instr next run
          exact avail.of_instr ih.stands next same
        refine h.frame s.memory t.memory w
          ⟨slots_of_instr wf next run earlier, fun o code kind x hx => ?_⟩ (ih.values w earlier)
        exact slots_of_instr wf next run (earlier.operand ih.stands wf d all code kind hx)

/-- The slot of the value holds what its opcode gives for the contents of the operands. -/
def Computed (f : Procedure) (args : List Number) (m : Memory) (v : ValueId) : Prop :=
  ∀ o type, f.opcode? v = some o → f.type? v = some type → o.isPhi = false →
    ∃ (m₀ : Memory) (result : Memory × Slot), (∀ x ∈ o.operands, m.slots[x]? = m₀.slots[x]?) ∧
      compute args m₀ v type o = .ok result ∧ m.slots[v]? = some result.2

/-- Computed stays computed. -/
theorem maintained_computed (wf : f.WellFormed g) :
    Maintained f g args (Computed f args) fun _ => True where
  frame m m' v same holds o type code typed kind := by
    obtain ⟨m₀, result, operands, computed, own⟩ := holds o type code typed kind
    refine ⟨m₀, result, fun x hx => ?_, computed, same.1.trans own⟩
    rw [same.2 o code kind x hx, operands x hx]
  start _ _ := trivial
  instr s t v rest holds next run := by
    refine ⟨fun o type code typed kind => ?_, trivial⟩
    obtain ⟨type', m', slot, typed', computed, -, written⟩ := step_computes holds.stands next code run
    obtain rfl := Option.some.inj (typed.symm.trans typed')
    refine ⟨s.memory, (m', slot), fun x hx => ?_, computed, written⟩
    exact slots_of_instr wf next run (available_operand holds.stands wf next code hx)
  enter s t holds last entered := by
    refine ⟨fun phi mem o type code typed kind => ?_, trivial⟩
    rw [← Procedure.isPhi_eq code, (wf.structured.phis _ phi mem).1] at kind
    cases kind

/-- In every state of a run the available instructions hold what their opcodes give. -/
theorem Reached.computed (reached : Reached f args s) (consistent : f.Consistent g)
    (noPhis : f.phisAt f.entry = []) (avail : Available f g s v) : Computed f args s.memory v :=
  ((maintained_computed consistent.wellFormed).reached consistent.wellFormed consistent.describes
    consistent.listed noPhis reached).values v avail

/-- A beta holds what it refines. -/
theorem Computed.beta {v x : ValueId} {r : Range} (h : Computed f args m v)
    (code : f.opcode? v = some (.beta x r)) : m.slots[v]? = m.slots[x]? := by
  obtain ⟨value, found, -⟩ := Option.map_eq_some_iff.mp code
  obtain ⟨m₀, result, operands, computed, own⟩ := h _ _ code (Procedure.type?_of_value found) rfl
  obtain ⟨content, read, computed⟩ := bind_eq_ok.mp computed
  obtain rfl := pure_eq_ok.mp computed
  rw [own, operands x (by simp [Opcode.operands]), (Memory.read_eq_ok.mp read).1]

end Machine

end Rangefinder
