import Rangefinder.Proofs.Procedure.WellFormed

/-!
# What an edit may leave alone

The passes edit procedures in small steps, and most steps leave most of a procedure alone. Three
relations say how much: `SameFlow` when the control flow is the same, so that the flow graph of the
one procedure is that of the other; `SameLayout` when moreover every value stands where it stood,
so that only operands, types and the like have changed; and `SameCode` when the two differ in
nothing but what the analysis notes on the side, the ranges of values and the marks on blocks.
-/

namespace Rangefinder

/-- What the control flow depends on in a block. -/
def Block.flow (block : Block) : BlockId × List BlockId := (block.id, block.terminator.successors)

/-- Where control may go and what is listed in a block. -/
def Block.layout (block : Block) : BlockId × List BlockId × List ValueId × List ValueId :=
  (block.id, block.terminator.successors, block.phis, block.instrs)

/-- The block without the mark of the analysis. -/
def Block.code (block : Block) : Block := { block with unreachable := false }

/-- Where a value stands, and whether it is a phi. -/
def Value.layout (value : Value) : ValueId × Option BlockId × Bool :=
  (value.id, value.block, value.opcode.isPhi)

/-- The value without its range. -/
def Value.code (value : Value) : Value := { value with range := none }

namespace Procedure

/-- The two procedures have the same control flow. -/
structure SameFlow (f f' : Procedure) : Prop where
  entry : f'.entry = f.entry
  blocks : ∀ b : BlockId, (f'.blocks[b]?).map Block.flow = (f.blocks[b]?).map Block.flow

/-- The two procedures list the same values in the same blocks, with the same control flow. -/
structure SameLayout (f f' : Procedure) : Prop where
  entry : f'.entry = f.entry
  blocks : ∀ b : BlockId, (f'.blocks[b]?).map Block.layout = (f.blocks[b]?).map Block.layout
  values : ∀ v : ValueId, (f'.values[v]?).map Value.layout = (f.values[v]?).map Value.layout

/-- The two procedures differ only in ranges and marks. -/
structure SameCode (f f' : Procedure) : Prop where
  entry : f'.entry = f.entry
  blocks : ∀ b : BlockId, (f'.blocks[b]?).map Block.code = (f.blocks[b]?).map Block.code
  values : ∀ v : ValueId, (f'.values[v]?).map Value.code = (f.values[v]?).map Value.code

/-- What a map of one option is, as a map of another one. -/
theorem map_eq_of_map_eq {α β γ : Type} {x y : Option α} {view : α → β} (same : x.map view = y.map view)
    (part : β → γ) : x.map (part ∘ view) = y.map (part ∘ view) := by
  rw [← Option.map_map, same, Option.map_map]

/-- Two arrays with the same elements as far as a view shows them have the same size. -/
theorem size_eq_of_map_eq {α β : Type} {x y : Array α} {view : α → β}
    (same : ∀ i : Nat, (x[i]?).map view = (y[i]?).map view) : x.size = y.size := by
  refine Nat.le_antisymm (Nat.not_lt.mp fun lt => ?_) (Nat.not_lt.mp fun lt => ?_)
  · simpa [lt] using same y.size
  · simpa [lt] using same x.size

variable {f f' f'' : Procedure} {g : FlowGraph} {b : BlockId} {v : ValueId}

namespace SameFlow

/-- A procedure has its own flow. -/
theorem refl : SameFlow f f := ⟨rfl, fun _ => rfl⟩

/-- Same flow twice. -/
theorem trans (h : SameFlow f f') (h' : SameFlow f' f'') : SameFlow f f'' :=
  ⟨h'.entry.trans h.entry, fun b => (h'.blocks b).trans (h.blocks b)⟩

/-- The blocks are as many. -/
theorem size (h : SameFlow f f') : f'.blocks.size = f.blocks.size := size_eq_of_map_eq h.blocks

/-- Successors are the same. -/
theorem successors (h : SameFlow f f') (b : BlockId) : f'.successors b = f.successors b := by
  have view : ∀ f : Procedure, f.successors b = ((f.blocks[b]?).map (Prod.snd ∘ Block.flow)).getD [] := by
    intro f
    rw [Procedure.successors]
    cases f.blocks[b]? <;> rfl
  rw [view, view, map_eq_of_map_eq (h.blocks b)]

/-- Listed blocks have the same flow. -/
theorem toList_map (h : SameFlow f f') :
    f'.blocks.toList.map Block.flow = f.blocks.toList.map Block.flow := by
  apply List.ext_getElem?
  intro b
  simpa using h.blocks b

/-- Predecessors are the same. -/
theorem predecessors (h : SameFlow f f') (b : BlockId) : f'.predecessors b = f.predecessors b := by
  have view : ∀ f : Procedure, f.predecessors b =
      (((f.blocks.toList.map Block.flow).filter fun e => e.2.contains b).map Prod.fst).eraseDups := by
    intro f
    rw [Procedure.predecessors, List.filter_map, List.map_map]
    rfl
  rw [view, view, h.toList_map]

/-- Walks are the same. -/
theorem walk (h : SameFlow f f') {steps : Nat} {stack : List (BlockId × List BlockId)}
    {seen left : List BlockId} : f'.walk steps stack seen left = f.walk steps stack seen left := by
  fun_induction Procedure.walk f steps stack seen left with
  | case1 => rfl
  | case2 => rfl
  | case3 _ _ _ _ _ ih => rw [Procedure.walk, ih]
  | case4 _ _ _ _ _ _ _ new ih => rw [Procedure.walk, h.size, if_pos new, h.successors, ih]
  | case5 _ _ _ _ _ _ _ old ih => rw [Procedure.walk, h.size, if_neg old, ih]

/-- Control flow alone decides the flow graph. -/
theorem build (h : SameFlow f f') : FlowGraph.build f' = FlowGraph.build f := by
  have steps : f'.walkSteps = f.walkSteps := by
    have view : ∀ f : Procedure, f.walkSteps =
        (f.blocks.toList.map Block.flow).foldl (fun n e => n + e.2.length + 1) 0 := by
      intro f
      rw [walkSteps, List.foldl_map]
      rfl
    rw [view, view, h.toList_map]
  have order : f'.reversePostorder = f.reversePostorder := by
    rw [reversePostorder, reversePostorder, h.entry, h.size, h.walk, h.successors, steps,
      Array.isEmpty, Array.isEmpty, h.size]
  have preds : f'.predecessors = f.predecessors := funext h.predecessors
  rw [FlowGraph.build, FlowGraph.build, order, h.size, h.entry, preds]

/-- A graph that describes one of the procedures describes the other. -/
theorem describes (h : SameFlow f f') (d : g.Describes f) : g.Describes f' where
  order :=
    { nodup := d.order.nodup
      first := by rw [h.entry]; exact d.order.first
      led := fun before b after split => by
        rw [h.entry]
        simpa only [h.successors] using d.order.led before b after split
      inBounds := by rw [h.size]; exact d.order.inBounds
      closed := by simpa only [h.size, h.successors] using d.order.closed }
  place := d.place
  size := by rw [h.size]; exact d.size
  preds := by simpa only [h.size, h.successors] using d.preds
  distinct := d.distinct
  room := d.room
  root := by rw [h.entry]; exact d.root
  parent := d.parent
  dominated := by simpa only [h.entry, h.successors] using d.dominated

end SameFlow

namespace SameLayout

/-- Same layout twice. -/
theorem trans (h : SameLayout f f') (h' : SameLayout f' f'') : SameLayout f f'' :=
  ⟨h'.entry.trans h.entry, fun b => (h'.blocks b).trans (h.blocks b),
    fun v => (h'.values v).trans (h.values v)⟩

/-- A layout fixes the flow. -/
theorem flow (h : SameLayout f f') : SameFlow f f' :=
  ⟨h.entry, fun b => map_eq_of_map_eq (h.blocks b) fun l => (l.1, l.2.1)⟩

/-- Values are as many. -/
theorem valueCount (h : SameLayout f f') : f'.values.size = f.values.size :=
  size_eq_of_map_eq h.values

/-- Values stand in the same blocks. -/
theorem home? (h : SameLayout f f') (v : ValueId) : f'.home? v = f.home? v := by
  have view : ∀ f : Procedure, f.home? v =
      ((f.values[v]?).map ((fun l => l.2.1) ∘ Value.layout)).join := by
    intro f
    rw [Procedure.home?]
    cases f.values[v]? <;> rfl
  rw [view, view, map_eq_of_map_eq (h.values v)]

/-- Phis are the same. -/
theorem isPhi (h : SameLayout f f') (v : ValueId) : f'.isPhi v = f.isPhi v := by
  have view : ∀ f : Procedure, f.isPhi v =
      ((f.values[v]?).map ((fun l => l.2.2) ∘ Value.layout)).getD false := by
    intro f
    rw [Procedure.isPhi]
    cases f.values[v]? <;> rfl
  rw [view, view, map_eq_of_map_eq (h.values v)]

/-- Lists of phis are the same. -/
theorem phisAt (h : SameLayout f f') (b : BlockId) : f'.phisAt b = f.phisAt b :=
  congrArg (fun o => o.getD []) (map_eq_of_map_eq (h.blocks b) fun l => l.2.2.1)

/-- Lists of instructions are the same. -/
theorem instrsAt (h : SameLayout f f') (b : BlockId) : f'.instrsAt b = f.instrsAt b :=
  congrArg (fun o => o.getD []) (map_eq_of_map_eq (h.blocks b) fun l => l.2.2.2)

/-- Members of blocks are the same. -/
theorem membersAt (h : SameLayout f f') (b : BlockId) : f'.membersAt b = f.membersAt b := by
  rw [Procedure.membersAt, Procedure.membersAt, h.phisAt, h.instrsAt]

/-- The same can be read. -/
theorem readable (h : SameLayout f f') {before : List ValueId} :
    f'.Readable g b before v ↔ f.Readable g b before v := by
  rw [Readable, Readable, h.home?]

/-- The same is defined at the end. -/
theorem definedAtEnd (h : SameLayout f f') :
    f'.DefinedAtEnd g v b ↔ f.DefinedAtEnd g v b := by
  rw [DefinedAtEnd, DefinedAtEnd, h.home?]

/-- All values stay listed. -/
theorem allListed (h : SameLayout f f') (all : f.AllListed) : f'.AllListed := by
  intro v b home
  rw [h.membersAt]
  exact all v b (h.home? v ▸ home)

end SameLayout

/-- A procedure with the layout of a structured one is structured if its operands exist. -/
theorem Structured.of_sameLayout (s : f.Structured) (same : SameLayout f f')
    (operands : ∀ v o, f'.opcode? v = some o → ∀ x ∈ o.operands, x < f.values.size)
    (sources : ∀ v inputs', f'.opcode? v = some (.phi inputs') →
      ∃ inputs, f.opcode? v = some (.phi inputs) ∧ inputs'.map Prod.snd = inputs.map Prod.snd)
    (results : ∀ b t, f'.terminator? b = some t → ∀ v ∈ t.operand, v < f.values.size) :
    f'.Structured where
  entry := by rw [same.entry, same.flow.size]; exact s.entry
  identified v value found := by
    have view := same.values v
    rw [found, Option.map_some, eq_comm, Option.map_eq_some_iff] at view
    obtain ⟨old, found', layout⟩ := view
    exact (congrArg Prod.fst layout).symm.trans (s.identified v old found')
  operands := by rw [same.valueCount]; exact operands
  sources v inputs' found := by
    obtain ⟨old, found', sameSources⟩ := sources v inputs' found
    rw [sameSources, same.flow.size]
    exact s.sources v old found'
  numbered b block found := by
    have view := same.blocks b
    rw [found, Option.map_some, eq_comm, Option.map_eq_some_iff] at view
    obtain ⟨old, found', layout⟩ := view
    exact (congrArg Prod.fst layout).symm.trans (s.numbered b old found')
  targets := by simpa only [same.flow.successors, same.flow.size] using s.targets
  results := by rw [same.valueCount]; exact results
  phis := by simpa only [same.phisAt, same.isPhi, same.home?] using s.phis
  instrs := by simpa only [same.instrsAt, same.isPhi, same.home?] using s.instrs
  nodup := by simpa only [same.membersAt] using s.nodup

/-- A procedure with the layout of a well-formed one is well-formed if its uses read what is
computed where they stand. -/
theorem WellFormed.of_sameLayout (h : f.WellFormed g) (same : SameLayout f f')
    (structured : f'.Structured)
    (sources : ∀ v inputs', f'.opcode? v = some (.phi inputs') →
      ∃ inputs, f.opcode? v = some (.phi inputs) ∧ inputs'.map Prod.snd = inputs.map Prod.snd)
    (inputs : ∀ b ∈ g.order, ∀ p ∈ f.phisAt b, ∀ inputs', f'.opcode? p = some (.phi inputs') →
      ∀ i ∈ inputs', g.isReachable i.2 = true → f.DefinedAtEnd g i.1 i.2)
    (reads : ∀ b ∈ g.order, ∀ before v after, f.instrsAt b = before ++ v :: after →
      ∀ o, f'.opcode? v = some o → ∀ x ∈ o.operands, f.Readable g b (f.phisAt b ++ before) x)
    (result : ∀ b ∈ g.order, ∀ t, f'.terminator? b = some t → ∀ v ∈ t.operand,
      f.Readable g b (f.membersAt b) v) : f'.WellFormed g := by
  refine ⟨structured, fun b hb => ?_⟩
  have u := h.uses b hb
  constructor
  · intro p hp inputs' found
    rw [same.phisAt] at hp
    obtain ⟨old, found', sameSources⟩ := sources p inputs' found
    have lengths := congrArg List.length sameSources
    rw [List.length_map, List.length_map] at lengths
    exact lengths.trans (u.arity p hp old found')
  · intro p hp inputs' found i hi
    rw [same.phisAt] at hp
    obtain ⟨old, found', sameSources⟩ := sources p inputs' found
    have mem : i.2 ∈ old.map Prod.snd := sameSources ▸ List.mem_map_of_mem hi
    obtain ⟨j, hj, source⟩ := List.mem_map.mp mem
    refine ⟨source ▸ (u.inputs p hp old found' j hj).1, fun reachable => ?_⟩
    exact same.definedAtEnd.mpr (inputs b hb p hp inputs' found i hi reachable)
  · intro before v after split o found x hx
    rw [same.instrsAt] at split
    rw [same.readable, same.phisAt]
    exact reads b hb before v after split o found x hx
  · intro t found v hv
    rw [same.readable, same.membersAt]
    exact result b hb t found v hv

namespace SameCode

/-- A procedure has its own code. -/
theorem refl : SameCode f f := ⟨rfl, fun _ => rfl, fun _ => rfl⟩

/-- Same code the other way. -/
theorem symm (h : SameCode f f') : SameCode f' f :=
  ⟨h.entry.symm, fun b => (h.blocks b).symm, fun v => (h.values v).symm⟩

/-- Same code twice. -/
theorem trans (h : SameCode f f') (h' : SameCode f' f'') : SameCode f f'' :=
  ⟨h'.entry.trans h.entry, fun b => (h'.blocks b).trans (h.blocks b),
    fun v => (h'.values v).trans (h.values v)⟩

/-- Code fixes the layout. -/
theorem layout (h : SameCode f f') : SameLayout f f' :=
  ⟨h.entry, fun b => map_eq_of_map_eq (h.blocks b) Block.layout,
    fun v => map_eq_of_map_eq (h.values v) Value.layout⟩

/-- Opcodes are the same. -/
theorem opcode? (h : SameCode f f') (v : ValueId) : f'.opcode? v = f.opcode? v :=
  map_eq_of_map_eq (h.values v) Value.opcode

/-- Types are the same. -/
theorem type? (h : SameCode f f') (v : ValueId) : f'.type? v = f.type? v :=
  map_eq_of_map_eq (h.values v) Value.type

/-- Terminators are the same. -/
theorem terminator? (h : SameCode f f') (b : BlockId) : f'.terminator? b = f.terminator? b :=
  map_eq_of_map_eq (h.blocks b) Block.terminator

/-- A value is missing in both procedures, or it is there in both with perhaps another range. -/
theorem value? (h : SameCode f f') (v : ValueId) :
    (f.values[v]? = none ∧ f'.values[v]? = none) ∨ ∃ value range,
      f.values[v]? = some value ∧ f'.values[v]? = some { value with range := range } := by
  have same := h.values v
  cases found : f.values[v]? with
  | none =>
    rw [found, Option.map_none, Option.map_eq_none_iff] at same
    exact .inl ⟨rfl, same⟩
  | some value =>
    rw [found, Option.map_some] at same
    obtain ⟨value', found', code⟩ := Option.map_eq_some_iff.mp same
    refine .inr ⟨value, value'.range, rfl, found'.trans ?_⟩
    rw [show value' = { value'.code with range := value'.range } from rfl, code]
    rfl

/-- A block is missing in both procedures, or it is there in both and perhaps marked in one. -/
theorem block? (h : SameCode f f') (b : BlockId) :
    (f.blocks[b]? = none ∧ f'.blocks[b]? = none) ∨ ∃ block mark,
      f.blocks[b]? = some block ∧ f'.blocks[b]? = some { block with unreachable := mark } := by
  have same := h.blocks b
  cases found : f.blocks[b]? with
  | none =>
    rw [found, Option.map_none, Option.map_eq_none_iff] at same
    exact .inl ⟨rfl, same⟩
  | some block =>
    rw [found, Option.map_some] at same
    obtain ⟨block', found', code⟩ := Option.map_eq_some_iff.mp same
    refine .inr ⟨block, block'.unreachable, rfl, found'.trans ?_⟩
    rw [show block' = { block'.code with unreachable := block'.unreachable } from rfl, code]
    rfl

/-- Ranges and marks do not matter for being structured. -/
theorem structured (h : SameCode f f') (s : f.Structured) : f'.Structured :=
  s.of_sameLayout h.layout (by simpa only [h.opcode?] using s.operands)
    (fun v inputs' found => ⟨inputs', h.opcode? v ▸ found, rfl⟩)
    (by simpa only [h.terminator?] using s.results)

/-- Ranges and marks do not matter for being well-formed. -/
theorem wellFormed (h : SameCode f f') (wf : f.WellFormed g) : f'.WellFormed g := by
  refine wf.of_sameLayout h.layout (h.structured wf.structured) ?_ ?_ ?_ ?_
  · intro v inputs' found
    exact ⟨inputs', h.opcode? v ▸ found, rfl⟩
  · intro b hb p hp inputs' found i hi
    exact ((wf.uses b hb).inputs p hp inputs' (h.opcode? p ▸ found) i hi).2
  · intro b hb before v after split o found
    exact (wf.uses b hb).reads before v after split o (h.opcode? v ▸ found)
  · intro b hb t found
    exact (wf.uses b hb).result t (h.terminator? b ▸ found)

end SameCode

end Procedure

end Rangefinder
