import Rangefinder.Procedure.Verify
import Rangefinder.Proofs.Flow.Dominance

/-!
# What the verifier accepts

`Procedure.verify` reports the first violation that it meets. Here the same rules are stated as
properties: `Structured` for the identifiers and the placement of values, `BranchesTestable` for the
types of what is tested, and `UsesDefined` for the uses in one reachable block. The main statement,
`verify_eq_ok`, says that the verifier accepts exactly the procedures that have these properties, so
the theory of the passes can speak of the properties alone. The types of tests are kept apart, since
they have nothing to do with where values are computed.
-/

namespace Rangefinder

namespace Procedure

/-- How a value is computed, if it exists. -/
def opcode? (f : Procedure) (v : ValueId) : Option Opcode := (f.values[v]?).map Value.opcode

/-- The type of a value, if it exists. -/
def type? (f : Procedure) (v : ValueId) : Option ValueType := (f.values[v]?).map Value.type

/-- The block that a value stands in. -/
def home? (f : Procedure) (v : ValueId) : Option BlockId := (f.values[v]?).bind Value.block

/-- The phis of a block; none for a block that does not exist. -/
def phisAt (f : Procedure) (b : BlockId) : List ValueId := ((f.blocks[b]?).map Block.phis).getD []

/-- The instructions of a block; none for a block that does not exist. -/
def instrsAt (f : Procedure) (b : BlockId) : List ValueId :=
  ((f.blocks[b]?).map Block.instrs).getD []

/-- How a block ends, if it exists. -/
def terminator? (f : Procedure) (b : BlockId) : Option Terminator :=
  (f.blocks[b]?).map Block.terminator

/-- The members of a block, the phis first. -/
def membersAt (f : Procedure) (b : BlockId) : List ValueId := f.phisAt b ++ f.instrsAt b

/-- The identifiers name what they should, and every listed value stands where it is listed. -/
structure Structured (f : Procedure) : Prop where
  entry : f.entry < f.blocks.size
  identified : ∀ (v : ValueId) (value : Value), f.values[v]? = some value → value.id = v
  operands : ∀ v o, f.opcode? v = some o → ∀ x ∈ o.operands, x < f.values.size
  sources : ∀ v inputs, f.opcode? v = some (.phi inputs) →
    (inputs.map Prod.snd).Nodup ∧ ∀ q ∈ inputs.map Prod.snd, q < f.blocks.size
  numbered : f.BlocksNumbered
  targets : ∀ b, ∀ s ∈ f.successors b, s < f.blocks.size
  results : ∀ b t, f.terminator? b = some t → ∀ v ∈ t.operand, v < f.values.size
  phis : ∀ b, ∀ v ∈ f.phisAt b, f.isPhi v = true ∧ f.home? v = some b
  instrs : ∀ b, ∀ v ∈ f.instrsAt b, f.isPhi v = false ∧ f.home? v = some b
  nodup : ∀ b, (f.membersAt b).Nodup

/-- Every branch tests a value of a type that can be tested. -/
def BranchesTestable (f : Procedure) : Prop :=
  ∀ b c onTrue onFalse, f.terminator? b = some (.branch c onTrue onFalse) → f.isTestable c = true

/-- Every value is listed in the block it stands in. The verifier does not ask for this: a value
that names a block need not be listed anywhere. -/
def AllListed (f : Procedure) : Prop := ∀ v b, f.home? v = some b → v ∈ f.membersAt b

/-- The value is computed whenever control reaches the end of a block. -/
def DefinedAtEnd (f : Procedure) (g : FlowGraph) (v : ValueId) (b : BlockId) : Prop :=
  ∃ home, f.home? v = some home ∧ g.dominates home b = true

/-- The value is computed when control is in a block and has passed the members `before`. -/
def Readable (f : Procedure) (g : FlowGraph) (b : BlockId) (before : List ValueId) (v : ValueId) :
    Prop :=
  ∃ home, f.home? v = some home ∧ if home = b then v ∈ before else g.dominates home b = true

/-- The uses in a block read only what is computed there. -/
structure UsesDefined (f : Procedure) (g : FlowGraph) (b : BlockId) : Prop where
  arity : ∀ p ∈ f.phisAt b, ∀ inputs, f.opcode? p = some (.phi inputs) →
    inputs.length = (g.predsOf b).length
  inputs : ∀ p ∈ f.phisAt b, ∀ inputs, f.opcode? p = some (.phi inputs) → ∀ i ∈ inputs,
    i.2 ∈ g.predsOf b ∧ (g.isReachable i.2 = true → f.DefinedAtEnd g i.1 i.2)
  reads : ∀ before v after, f.instrsAt b = before ++ v :: after → ∀ o, f.opcode? v = some o →
    ∀ x ∈ o.operands, f.Readable g b (f.phisAt b ++ before) x
  result : ∀ t, f.terminator? b = some t → ∀ v ∈ t.operand, f.Readable g b (f.membersAt b) v

/-- The procedure is well-formed, with the given control-flow facts. -/
structure WellFormed (f : Procedure) (g : FlowGraph) : Prop where
  structured : f.Structured
  uses : ∀ b ∈ g.order, f.UsesDefined g b

variable {f : Procedure} {g : FlowGraph} {v : ValueId} {b : BlockId} {value : Value}
  {inputs : List (ValueId × BlockId)} {phi : ValueId} {o : Opcode} {before : List ValueId}
  {preds : List BlockId} {block : Block}

/-- A value that can be read in a block is defined at its end. -/
theorem Readable.definedAtEnd (d : g.Describes f) (hb : b ∈ g.order) (h : f.Readable g b before v) :
    f.DefinedAtEnd g v b := by
  obtain ⟨home, stands, here⟩ := h
  refine ⟨home, stands, ?_⟩
  split at here
  · next own => exact d.dominates_iff.mpr ⟨hb, own ▸ .refl⟩
  · exact here

/-- A value that is defined at the end of a block can be read there. -/
theorem DefinedAtEnd.readable (all : f.AllListed) (h : f.DefinedAtEnd g v b) :
    f.Readable g b (f.membersAt b) v := by
  obtain ⟨home, stands, dominates⟩ := h
  refine ⟨home, stands, ?_⟩
  split
  · next own => exact own ▸ all v home stands
  · exact dominates

/-- The phis of a block. -/
theorem mem_phisAt :
    v ∈ f.phisAt b ↔ ∃ block, f.blocks[b]? = some block ∧ v ∈ block.phis := by
  cases h : f.blocks[b]? <;> simp [phisAt, h]

/-- The instructions of a block. -/
theorem mem_instrsAt :
    v ∈ f.instrsAt b ↔ ∃ block, f.blocks[b]? = some block ∧ v ∈ block.instrs := by
  cases h : f.blocks[b]? <;> simp [instrsAt, h]

/-- A value that stands in a block exists. -/
theorem lt_size_of_home? (home : f.home? v = some b) :
    v < f.values.size := by
  by_contra absent
  simp [home?, absent] at home

/-- A value that is computed somehow exists. -/
theorem lt_size_of_opcode? (code : f.opcode? v = some o) :
    v < f.values.size := by
  by_contra outside
  rw [opcode?, Array.getElem?_eq_none (Nat.le_of_not_lt outside)] at code
  cases code

/-- A value that has a type exists. -/
theorem lt_size_of_type? {type : ValueType} (typed : f.type? v = some type) :
    v < f.values.size := by
  obtain ⟨value, found, -⟩ := Option.map_eq_some_iff.mp typed
  exact (Array.getElem?_eq_some_iff.mp found).1

/-- A value that exists is computed somehow. -/
theorem exists_opcode? (present : v < f.values.size) : ∃ o, f.opcode? v = some o :=
  ⟨_, congrArg (Option.map Value.opcode) (Array.getElem?_eq_getElem present)⟩

instance : Decidable f.AllListed :=
  decidable_of_iff (∀ v < f.values.size, ∀ b ∈ f.home? v, v ∈ f.membersAt b)
    ⟨fun h v b home => h v (lt_size_of_home? home) b home, fun h v _ b home => h v b home⟩

/-- A value that exists is the one found at its position. -/
theorem value_eq_ok :
    f.value v = .ok value ↔ f.values[v]? = some value := by
  rw [Procedure.value]
  cases f.values[v]? <;> simp

/-- A value that exists can be looked up. -/
theorem value_yields (present : v < f.values.size) :
    Yields (f.value v) fun value => f.values[v]? = some value := by
  have found : f.values[v]? = some f.values[v] := Array.getElem?_eq_getElem present
  exact ⟨_, value_eq_ok.mpr found, found⟩

/-- A value that exists has an opcode. -/
theorem opcode_eq_ok : f.opcode v = .ok o ↔ f.opcode? v = some o := by
  rw [opcode, Procedure.value, opcode?]
  cases f.values[v]? <;> simp [bind, Except.bind]

/-- The opcode of a value that exists can be looked up. -/
theorem opcode_yields (present : v < f.values.size) :
    Yields (f.opcode v) fun o => f.opcode? v = some o :=
  (value_yields present).bind fun _ found => .ok (congrArg (Option.map Value.opcode) found)

/-- A block that exists is the one found at its position. -/
theorem block_eq_ok :
    f.block b = .ok block ↔ f.blocks[b]? = some block := by
  rw [Procedure.block]
  cases f.blocks[b]? <;> simp

/-- The members of a block that exists can be looked up. -/
theorem members_eq (present : b < f.blocks.size) :
    f.members b = .ok (f.membersAt b) := by
  have found := Array.getElem?_eq_getElem present
  rw [members, block_eq_ok.mpr found, membersAt, phisAt, instrsAt, found]
  rfl

/-- The opcode of a value. -/
theorem opcode?_of_value (h : f.values[v]? = some value) :
    f.opcode? v = some value.opcode := by
  rw [opcode?, h, Option.map_some]

/-- The type of a value. -/
theorem type?_of_value (h : f.values[v]? = some value) :
    f.type? v = some value.type := by
  rw [type?, h, Option.map_some]

/-- The block of a value. -/
theorem home?_of_value (h : f.values[v]? = some value) :
    f.home? v = value.block := by
  rw [home?, h, Option.bind_some]

/-- A branch that decides the entry into a block is the only way there and has two targets. -/
theorem decidingBranch_spec {b test : BlockId} (h : g.decidingBranch f b = some test) :
    g.predsOf b = [test] ∧ g.idom b = some test ∧
      ∃ c onTrue onFalse, f.terminator? test = some (.branch c onTrue onFalse) ∧ onTrue ≠ onFalse := by
  rw [FlowGraph.decidingBranch] at h
  split at h
  · next p d preds idom =>
    split at h
    · next same =>
      subst same
      split at h
      · next c onTrue onFalse term =>
        split at h
        · next ne =>
          obtain rfl := Option.some.inj h
          exact ⟨preds, idom, c, onTrue, onFalse, term, ne⟩
        · cases h
      · cases h
    · cases h
  · cases h

/-- A value is a phi when its opcode is one. -/
theorem isPhi_eq (op : f.opcode? v = some o) : f.isPhi v = o.isPhi := by
  obtain ⟨value, found, rfl⟩ := Option.map_eq_some_iff.mp op
  simp [isPhi, found]

/-- A phi has inputs. -/
theorem exists_inputs (h : f.isPhi v = true) :
    ∃ inputs, f.opcode? v = some (.phi inputs) := by
  cases code : f.opcode? v with
  | none => simp [isPhi, Option.map_eq_none_iff.mp code] at h
  | some o =>
    rw [isPhi_eq code] at h
    cases o with
    | phi inputs => exact ⟨inputs, rfl⟩
    | _ => cases h

/-! ### Identifiers and placement -/

/-- The check asks that the block exists. -/
theorem checkBlockId_eq_ok : f.checkBlockId b = .ok () ↔ b < f.blocks.size := by
  simp [checkBlockId]

/-- The check asks that the value exists. -/
theorem checkValueId_eq_ok : f.checkValueId v = .ok () ↔ v < f.values.size := by
  simp [checkValueId]

/-- The sources of a phi differ and exist. -/
theorem checkSources_eq_ok {seen : List BlockId} :
    f.checkSources phi inputs seen = .ok () ↔ (inputs.map Prod.snd).Nodup ∧
      ∀ q ∈ inputs.map Prod.snd, q < f.blocks.size ∧ q ∉ seen := by
  induction inputs generalizing seen with
  | nil => simp [checkSources]
  | cons input rest ih =>
    obtain ⟨x, q⟩ := input
    simp only [checkSources, check_bind_eq_ok, List.map_cons, List.nodup_cons, List.forall_mem_cons]
    constructor
    · rintro ⟨bound, h⟩
      split at h
      · simp at h
      · next new =>
        obtain ⟨distinct, ofRest⟩ := ih.mp h
        refine ⟨⟨fun mem => (ofRest q mem).2 List.mem_cons_self, distinct⟩,
          ⟨checkBlockId_eq_ok.mp bound, new⟩, fun r hr => ⟨(ofRest r hr).1, fun mem => ?_⟩⟩
        exact (ofRest r hr).2 (List.mem_cons_of_mem _ mem)
    · rintro ⟨⟨fresh, distinct⟩, ⟨bound, new⟩, ofRest⟩
      refine ⟨checkBlockId_eq_ok.mpr bound, ?_⟩
      rw [if_neg new]
      refine ih.mpr ⟨distinct, fun r hr => ⟨(ofRest r hr).1, ?_⟩⟩
      rw [List.mem_cons, not_or]
      exact ⟨fun same => fresh (same ▸ hr), (ofRest r hr).2⟩

/-- What is checked of a value. -/
theorem checkValue_eq_ok :
    f.checkValue v value = .ok () ↔ value.id = v ∧
      (∀ x ∈ value.opcode.operands, x < f.values.size) ∧
      ∀ inputs, value.opcode = .phi inputs →
        (inputs.map Prod.snd).Nodup ∧ ∀ q ∈ inputs.map Prod.snd, q < f.blocks.size := by
  rw [checkValue]
  by_cases own : value.id = v
  · simp only [own, ne_eq, not_true_eq_false, if_false, true_and]
    cases missing : value.opcode.operands.find? fun x => decide (f.values.size ≤ x) with
    | some x =>
      have out : f.values.size ≤ x := by simpa using List.find?_some missing
      have mem := List.mem_of_find?_eq_some missing
      simp only [bind_eq_ok, reduceCtorEq, false_and, exists_false, false_iff]
      exact fun h => Nat.not_lt.mpr out (h.1 x mem)
    | none =>
      have all : ∀ x ∈ value.opcode.operands, x < f.values.size := by
        simpa using List.find?_eq_none.mp missing
      cases kind : value.opcode <;>
        simp_all [checkSources_eq_ok, pure, Except.pure]
  · simp [own]

/-- What is checked of a block. -/
theorem checkBlock_eq_ok :
    f.checkBlock b block = .ok () ↔ block.id = b ∧
      (∀ s ∈ block.terminator.successors, s < f.blocks.size) ∧
      (∀ v ∈ block.terminator.operand, v < f.values.size) ∧
      ∀ c onTrue onFalse, block.terminator = .branch c onTrue onFalse → f.isTestable c = true := by
  rw [checkBlock]
  by_cases own : block.id = b
  · simp only [own, ne_eq, not_true_eq_false, if_false, true_and, check_bind_eq_ok,
      List.forM_eq_forM, forM_eq_ok, checkBlockId_eq_ok, checkValueId_eq_ok, Option.mem_toList]
    cases kind : block.terminator with
    | branch c onTrue onFalse => by_cases test : f.isTestable c = true <;> simp [test]
    | _ => simp
  · simp [own]

/-- Phis and instructions are kept apart. -/
theorem checkKinds_eq_ok {phis : Bool} {l : List ValueId} :
    f.checkKinds b phis l = .ok () ↔ ∀ v ∈ l, v < f.values.size ∧ f.isPhi v = phis := by
  induction l with
  | nil => simp [checkKinds]
  | cons v rest ih =>
    simp only [checkKinds, check_bind_eq_ok, checkValueId_eq_ok, List.forall_mem_cons]
    by_cases kind : f.isPhi v = phis <;> simp [kind, ih]

/-- The value stands in the block. -/
theorem standsIn_iff :
    f.standsIn v b = true ↔ f.home? v = some b := by
  rw [standsIn, home?]
  cases f.values[v]? <;> simp

/-- Members stand in the block, once each. -/
theorem checkMembers_eq_ok {l seen all : List ValueId} :
    f.checkMembers b l seen = .ok all ↔ (∀ v ∈ l, f.home? v = some b ∧ v ∉ seen) ∧ l.Nodup ∧
      all = l.reverse ++ seen := by
  induction l generalizing seen with
  | nil => simp [checkMembers, eq_comm]
  | cons v rest ih =>
    simp only [checkMembers, standsIn_iff, List.forall_mem_cons, List.nodup_cons]
    by_cases here : f.home? v = some b ∧ v ∉ seen
    · rw [if_pos here, ih]
      simp only [List.mem_cons, not_or, List.reverse_cons, List.append_assoc, List.singleton_append]
      grind
    · simp [here]

/-- Placement is right when every list has the right kinds and the right homes: as the lists belong
to different blocks, no value can stand in two of them. -/
theorem checkPlacement_eq_ok {l : List (Block × BlockId)} {seen : List ValueId}
    (distinct : (l.map Prod.snd).Nodup)
    (elsewhere : ∀ v ∈ seen, ∀ b ∈ l.map Prod.snd, f.home? v ≠ some b) :
    f.checkPlacement l seen = .ok () ↔ ∀ e ∈ l,
      (∀ v ∈ e.1.phis, v < f.values.size ∧ f.isPhi v = true) ∧
      (∀ v ∈ e.1.instrs, v < f.values.size ∧ f.isPhi v = false) ∧
      (∀ v ∈ e.1.members, f.home? v = some e.2) ∧ e.1.members.Nodup := by
  induction l generalizing seen with
  | nil => simp [checkPlacement]
  | cons e rest ih =>
    obtain ⟨block, b⟩ := e
    rw [List.map_cons, List.nodup_cons] at distinct
    rw [checkPlacement, check_bind_eq_ok, check_bind_eq_ok, bind_eq_ok]
    simp only [checkKinds_eq_ok, checkMembers_eq_ok, List.forall_mem_cons]
    have new : ∀ v, f.home? v = some b → v ∉ seen := fun v home mem =>
      elsewhere v mem b (by simp) home
    have next : (∀ v ∈ block.members, f.home? v = some b) →
        ∀ v ∈ block.members.reverse ++ seen, ∀ c ∈ rest.map Prod.snd, f.home? v ≠ some c := by
      intro homes v mem c hc home
      rcases List.mem_append.mp mem with mem | mem
      · have := (homes v (List.mem_reverse.mp mem)).symm.trans home
        exact distinct.1 (Option.some.inj this ▸ hc)
      · exact elsewhere v mem c (by simp [hc]) home
    constructor
    · rintro ⟨phis, instrs, all, ⟨homes, nodup, rfl⟩, h⟩
      have homes' := fun v hv => (homes v hv).1
      exact ⟨⟨phis, instrs, homes', nodup⟩, (ih distinct.2 (next homes')).mp h⟩
    · rintro ⟨⟨phis, instrs, homes, nodup⟩, h⟩
      exact ⟨phis, instrs, _, ⟨fun v hv => ⟨homes v hv, new v (homes v hv)⟩, nodup, rfl⟩,
        (ih distinct.2 (next homes)).mpr h⟩

/-- A block and its position, among all blocks with theirs. -/
theorem mem_zipIdx_toList {α : Type} {array : Array α} {a : α} {i : Nat} :
    (a, i) ∈ array.toList.zipIdx ↔ array[i]? = some a := by
  simp [List.mem_zipIdx_iff_getElem?]

/-- The structural check passes exactly for structured procedures with testable tests. -/
theorem checkStructure_eq_ok : f.checkStructure = .ok () ↔ f.Structured ∧ f.BranchesTestable := by
  have distinct : (f.blocks.toList.zipIdx.map Prod.snd).Nodup := by
    rw [List.zipIdx_map_snd]
    exact List.nodup_range'
  have placement := @checkPlacement_eq_ok f f.blocks.toList.zipIdx [] distinct (by simp)
  rw [checkStructure, check_bind_eq_ok, check_bind_eq_ok, check_bind_eq_ok, placement]
  simp only [checkBlockId_eq_ok, List.forM_eq_forM, forM_eq_ok, Prod.forall, mem_zipIdx_toList,
    checkValue_eq_ok, checkBlock_eq_ok]
  constructor
  · rintro ⟨entry, values, blocks, lists⟩
    refine ⟨
      { entry := entry
        identified := fun v value hv => (values value v hv).1
        operands := ?_, sources := ?_
        numbered := fun b block hb => (blocks block b hb).1
        targets := ?_, results := ?_, phis := ?_, instrs := ?_, nodup := ?_ }, ?_⟩
    · intro v o hv
      obtain ⟨value, found, rfl⟩ := Option.map_eq_some_iff.mp hv
      exact (values value v found).2.1
    · intro v inputs hv
      obtain ⟨value, hv, kind⟩ := Option.map_eq_some_iff.mp hv
      exact (values value v hv).2.2 inputs kind
    · intro b s hs
      have hb := Array.getElem?_eq_getElem (lt_size_of_mem_successors hs)
      rw [successors, hb] at hs
      exact (blocks _ b hb).2.1 s hs
    · intro b t hb
      obtain ⟨block, found, rfl⟩ := Option.map_eq_some_iff.mp hb
      exact (blocks block b found).2.2.1
    · intro b v hv
      obtain ⟨block, hb, hv⟩ := mem_phisAt.mp hv
      obtain ⟨phis, -, homes, -⟩ := lists block b hb
      exact ⟨(phis v hv).2, homes v (List.mem_append_left _ hv)⟩
    · intro b v hv
      obtain ⟨block, hb, hv⟩ := mem_instrsAt.mp hv
      obtain ⟨-, instrs, homes, -⟩ := lists block b hb
      exact ⟨(instrs v hv).2, homes v (List.mem_append_right _ hv)⟩
    · intro b
      cases hb : f.blocks[b]? with
      | none => simp [membersAt, phisAt, instrsAt, hb]
      | some block =>
        have := (lists block b hb).2.2.2
        simpa [membersAt, phisAt, instrsAt, hb, Block.members] using this
    · intro b c onTrue onFalse hb
      obtain ⟨block, hb, kind⟩ := Option.map_eq_some_iff.mp hb
      exact (blocks block b hb).2.2.2 c onTrue onFalse kind
  · rintro ⟨h, testable⟩
    refine ⟨h.entry, fun value v hv => ?_, fun block b hb => ?_, fun block b hb => ?_⟩
    · have op : f.opcode? v = some value.opcode := by simp [opcode?, hv]
      exact ⟨h.identified v value hv, h.operands v _ op, fun inputs phi =>
        h.sources v inputs (by rw [op, phi])⟩
    · have term : f.terminator? b = some block.terminator := by simp [terminator?, hb]
      exact ⟨h.numbered b block hb, fun s hs => h.targets b s (by simpa [successors, hb] using hs),
        h.results b _ term, fun c t e kind => testable b c t e (by rw [term, kind])⟩
    · have phis : f.phisAt b = block.phis := by simp [phisAt, hb]
      have instrs : f.instrsAt b = block.instrs := by simp [instrsAt, hb]
      have ofPhis := h.phis b
      have ofInstrs := h.instrs b
      have nodup := h.nodup b
      rw [phis] at ofPhis
      rw [instrs] at ofInstrs
      rw [membersAt, phis, instrs] at nodup
      refine ⟨fun v hv => ⟨lt_size_of_home? (ofPhis v hv).2, (ofPhis v hv).1⟩,
        fun v hv => ⟨lt_size_of_home? (ofInstrs v hv).2, (ofInstrs v hv).1⟩, fun v hv => ?_, nodup⟩
      rcases List.mem_append.mp hv with hv | hv
      · exact (ofPhis v hv).2
      · exact (ofInstrs v hv).2

/-! ### Uses -/

/-- The test decides `DefinedAtEnd`. -/
theorem isDefinedAtEnd_iff :
    f.isDefinedAtEnd g v b = true ↔ f.DefinedAtEnd g v b := by
  rw [isDefinedAtEnd, DefinedAtEnd, Option.any_eq_true]
  rfl

/-- Inputs come from predecessors and are defined there. -/
theorem checkInputs_eq_ok :
    f.checkInputs g phi preds inputs = .ok () ↔ ∀ i ∈ inputs,
      i.2 ∈ preds ∧ (g.isReachable i.2 = true → f.DefinedAtEnd g i.1 i.2) := by
  induction inputs with
  | nil => simp [checkInputs]
  | cons input rest ih =>
    obtain ⟨x, q⟩ := input
    rw [checkInputs, List.forall_mem_cons, ← isDefinedAtEnd_iff]
    by_cases source : q ∈ preds
    · rw [if_neg (not_not.mpr source)]
      split
      · next undefined => simp [undefined]
      · next fine =>
        have : g.isReachable q = true → f.isDefinedAtEnd g x q = true := by simpa using fine
        rw [ih]
        exact ⟨fun h => ⟨⟨source, this⟩, h⟩, fun h => h.2⟩
    · simp [source]

/-- What is checked of a phi. -/
theorem checkPhi_eq_ok :
    f.checkPhi g preds phi = .ok () ↔ ∀ inputs, f.opcode? phi = some (.phi inputs) →
      inputs.length = preds.length ∧ ∀ i ∈ inputs,
        i.2 ∈ preds ∧ (g.isReachable i.2 = true → f.DefinedAtEnd g i.1 i.2) := by
  rw [checkPhi, ← opcode?]
  split
  · next inputs kind =>
    simp only [Option.some.injEq, Opcode.phi.injEq, kind, forall_eq']
    split
    · next wrong => simp [wrong]
    · next right => simp [checkInputs_eq_ok, not_not.mp right]
  · next other => simp only [true_iff]; exact fun inputs kind => absurd kind (other inputs)

/-- The test decides `Readable`. -/
theorem checkRead_eq_ok :
    f.checkRead g b before v = .ok () ↔ f.Readable g b before v := by
  rw [checkRead, check_bind_eq_ok, checkValueId_eq_ok, Readable, ← home?]
  cases home : f.home? v with
  | none => simp
  | some h => simp [lt_size_of_home? home]

/-- Operands can be read where they are used. -/
theorem checkInstrs_eq_ok {instrs before : List ValueId} :
    f.checkInstrs g b instrs before = .ok () ↔ ∀ passed v rest, instrs = passed ++ v :: rest →
      ∀ o, f.opcode? v = some o → ∀ x ∈ o.operands, f.Readable g b (before ++ passed) x := by
  induction instrs generalizing before with
  | nil => simp [checkInstrs]
  | cons v rest ih =>
    have own : ((f.values[v]?).map fun value => value.opcode.operands) =
        (f.opcode? v).map Opcode.operands := by
      rw [opcode?, Option.map_map]
      rfl
    rw [checkInstrs, check_bind_eq_ok, List.forM_eq_forM, forM_eq_ok, ih, own]
    simp only [checkRead_eq_ok]
    constructor
    · rintro ⟨first, later⟩ passed w rest' split o op x hx
      cases passed with
      | nil =>
        obtain ⟨rfl, rfl⟩ := List.cons.inj split
        rw [List.append_nil]
        exact first x (by simpa [op] using hx)
      | cons u passed =>
        obtain ⟨rfl, rfl⟩ := List.cons.inj split
        simpa using later passed w rest' rfl o op x hx
    · intro h
      refine ⟨fun x hx => ?_, fun passed w rest' split o op x hx => ?_⟩
      · cases op : f.opcode? v with
        | none => simp [op] at hx
        | some o =>
          have := h [] v rest rfl o op x (by simpa [op] using hx)
          simpa using this
      · simpa using h (v :: passed) w rest' (by rw [split, List.cons_append]) o op x hx

/-- The check of the uses in a block passes exactly when they read what is computed there. -/
theorem checkUses_eq_ok (hb : b < f.blocks.size) :
    f.checkUses g b = .ok () ↔ f.UsesDefined g b := by
  have found : f.blocks[b]? = some f.blocks[b] := Array.getElem?_eq_getElem hb
  have phis : f.phisAt b = f.blocks[b].phis := by simp [phisAt, found]
  have instrs : f.instrsAt b = f.blocks[b].instrs := by simp [instrsAt, found]
  have term : f.terminator? b = some f.blocks[b].terminator := by simp [terminator?, found]
  rw [checkUses, found]
  simp only [check_bind_eq_ok, List.forM_eq_forM, forM_eq_ok, checkPhi_eq_ok, checkInstrs_eq_ok,
    checkRead_eq_ok, Option.mem_toList, Block.members]
  constructor
  · rintro ⟨ofPhis, ofInstrs, ofResult⟩
    constructor
    · exact fun p hp inputs kind => (ofPhis p (phis ▸ hp) inputs kind).1
    · exact fun p hp inputs kind => (ofPhis p (phis ▸ hp) inputs kind).2
    · intro before v after split
      rw [phis]
      exact ofInstrs before v after (instrs ▸ split)
    · intro t ht
      rw [term] at ht
      obtain rfl := Option.some.inj ht
      rw [membersAt, phis, instrs]
      exact ofResult
  · intro h
    refine ⟨fun p hp inputs kind => ?_, fun before v after split => ?_, ?_⟩
    · exact ⟨h.arity p (phis.symm ▸ hp) inputs kind, h.inputs p (phis.symm ▸ hp) inputs kind⟩
    · rw [← phis]
      exact h.reads before v after (instrs.trans split)
    · rw [← phis, ← instrs]
      exact h.result _ term

/-- The verifier accepts exactly the well-formed procedures with testable tests. -/
theorem verify_eq_ok : f.verify = .ok (.ok ()) ↔
    f.BranchesTestable ∧ ∃ g, FlowGraph.build f = .ok g ∧ f.WellFormed g := by
  rw [verify]
  split
  · next bad =>
    simp only [Except.ok.injEq, reduceCtorEq, false_iff]
    rintro ⟨testable, g, -, h⟩
    simp [checkStructure_eq_ok.mpr ⟨h.structured, testable⟩] at bad
  · next fine =>
    obtain ⟨structured, testable⟩ := checkStructure_eq_ok.mp fine
    simp only [bind_eq_ok, pure_eq_ok, List.forM_eq_forM, forM_eq_ok, testable, true_and]
    refine exists_congr fun g => and_congr_right fun built => ?_
    have describes := FlowGraph.build_describes structured.numbered structured.entry built
    constructor
    · intro uses
      exact ⟨structured, fun b hb => (checkUses_eq_ok (describes.order.inBounds b hb)).mp (uses b hb)⟩
    · intro h b hb
      exact (checkUses_eq_ok (describes.order.inBounds b hb)).mpr (h.uses b hb)

end Procedure

end Rangefinder
