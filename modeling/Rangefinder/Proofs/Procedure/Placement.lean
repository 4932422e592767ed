import Rangefinder.Proofs.Procedure.Renaming

/-!
# Placing and removing instructions

A new instruction keeps a procedure well-formed when its operands are computed at its place, and an
instruction may be taken out when nothing that is reachable reads it. Both facts together cover the
edit that the passes make again and again: an instruction that has become a copy of one of its
operands is *collapsed*, that is, its uses are moved to the operand and it is taken out.

Moving the uses leaves out the operands of the operand itself. This matters in one situation only:
the operand is a phi that reads the collapsed instruction. Then the phi keeps reading an
instruction that stands nowhere, and the procedure is not well-formed any more. `SelfFed` names
this situation, and `WellFormed.collapse` says that nothing else can go wrong.
-/

namespace Rangefinder

namespace Procedure

variable {f f' : Procedure} {g : FlowGraph} {b : BlockId} {o : Opcode} {v : ValueId}
  {before after : List ValueId} {old new : ValueId} {n : Nat} {t : ValueType} {f₁ : Procedure} {x : ValueId}
  {w : ValueId}

/-! ### Placing an instruction -/

/-- The second procedure is the first one with a new instruction in a block. -/
structure Placed (f f' : Procedure) (b : BlockId) (before after : List ValueId) (o : Opcode)
    (t : ValueType) : Prop where
  entry : f'.entry = f.entry
  inBounds : b < f.blocks.size
  listed : f.instrsAt b = before ++ after
  values : f'.values = f.values.push ⟨f.values.size, o, t, some b, none⟩
  blocks : ∀ c : BlockId, f'.blocks[c]? = (f.blocks[c]?).map fun block =>
    if c = b then { block with instrs := before ++ f.values.size :: after } else block

/-- Insertion after a first part. -/
theorem insertIdx_append (before after : List ValueId) (v : ValueId) :
    (before ++ after).insertIdx before.length v = before ++ v :: after := by
  induction before with
  | nil => simp
  | cons x before ih => simp [ih]

/-- What placing an instruction does. -/
theorem placeAt_spec {position : Nat} (h : f.placeAt b position o t = .ok (f', v)) :
    v = f.values.size ∧ position ≤ (f.instrsAt b).length ∧
      f.Placed f' b ((f.instrsAt b).take position) ((f.instrsAt b).drop position) o t := by
  simp only [placeAt, bind_eq_ok] at h
  obtain ⟨block, found, h⟩ := h
  rw [block_eq_ok] at found
  have instrs : f.instrsAt b = block.instrs := by simp [instrsAt, found]
  split at h
  · cases h
  · next fits =>
    simp only [pure_eq_ok, Prod.mk.injEq, appendValue] at h
    obtain ⟨rfl, rfl⟩ := h
    rw [instrs]
    refine ⟨rfl, by omega, rfl, (Array.getElem?_eq_some_iff.mp found).1, ?_, rfl, fun c => ?_⟩
    · rw [List.take_append_drop, instrs]
    · simp only [modifyBlock, Array.getElem?_modify, eq_comm]
      split
      · next own =>
        subst own
        have := insertIdx_append (block.instrs.take position) (block.instrs.drop position)
          f.values.size
        rw [List.take_append_drop, List.length_take, Nat.min_eq_left (by omega)] at this
        simp [found, this]
      · simp

namespace Placed

variable {c : BlockId}

/-- Placing keeps the flow. -/
theorem flow (h : f.Placed f' b before after o t) : SameFlow f f' := by
  refine ⟨h.entry, fun c => ?_⟩
  rw [h.blocks, Option.map_map]
  congr 1
  funext block
  by_cases own : c = b <;> simp [own, Block.flow]

/-- One value is new. -/
theorem getElem?_values (h : f.Placed f' b before after o t) (v : ValueId) :
    f'.values[v]? =
      if v = f.values.size then some ⟨f.values.size, o, t, some b, none⟩ else f.values[v]? := by
  rw [h.values, Array.getElem?_push]

/-- It has the given opcode. -/
theorem opcode? (h : f.Placed f' b before after o t) (v : ValueId) :
    f'.opcode? v = if v = f.values.size then some o else f.opcode? v := by
  rw [Procedure.opcode?, h.getElem?_values]
  split <;> rfl

/-- It has the given type. -/
theorem type? (h : f.Placed f' b before after o t) (v : ValueId) :
    f'.type? v = if v = f.values.size then some t else f.type? v := by
  rw [Procedure.type?, h.getElem?_values]
  split <;> rfl

/-- It stands in the block. -/
theorem home? (h : f.Placed f' b before after o t) (v : ValueId) :
    f'.home? v = if v = f.values.size then some b else f.home? v := by
  rw [Procedure.home?, h.getElem?_values]
  split <;> rfl

/-- It is a phi if its opcode is. -/
theorem isPhi (h : f.Placed f' b before after o t) (v : ValueId) :
    f'.isPhi v = if v = f.values.size then o.isPhi else f.isPhi v := by
  rw [Procedure.isPhi, h.getElem?_values]
  split <;> rfl

/-- No list of phis changes. -/
theorem phisAt (h : f.Placed f' b before after o t) (c : BlockId) : f'.phisAt c = f.phisAt c := by
  rw [Procedure.phisAt, Procedure.phisAt, h.blocks, Option.map_map]
  congr 2
  funext block
  by_cases own : c = b <;> simp [own]

/-- It is listed at its place. -/
theorem instrsAt (h : f.Placed f' b before after o t) (c : BlockId) :
    f'.instrsAt c = if c = b then before ++ f.values.size :: after else f.instrsAt c := by
  rw [Procedure.instrsAt, Procedure.instrsAt, h.blocks, Option.map_map]
  by_cases own : c = b
  · subst own
    simp [h.inBounds]
  · simp only [own, if_false]
    rfl

/-- Terminators are kept. -/
theorem terminator? (h : f.Placed f' b before after o t) (c : BlockId) :
    f'.terminator? c = f.terminator? c := by
  rw [Procedure.terminator?, Procedure.terminator?, h.blocks, Option.map_map]
  congr 1
  funext block
  by_cases own : c = b <;> simp [own]

/-- There is one value more. -/
theorem valueCount (h : f.Placed f' b before after o t) : f'.values.size = f.values.size + 1 := by
  rw [h.values, Array.size_push]

/-- What can be read without the new instruction can be read with it. -/
theorem readable (h : f.Placed f' b before after o t) {passed passed' : List ValueId}
    (read : f.Readable g c passed x) (sub : passed ⊆ passed') :
    f'.Readable g c passed' x := by
  obtain ⟨home, hx, here⟩ := read
  have old : x ≠ f.values.size := Nat.ne_of_lt (lt_size_of_home? hx)
  refine ⟨home, by rw [h.home?, if_neg old, hx], ?_⟩
  split at here
  · next own => rw [if_pos own]; exact sub here
  · next other => rw [if_neg other]; exact here

/-- What was defined stays so. -/
theorem definedAtEnd (h : f.Placed f' b before after o t) (defined : f.DefinedAtEnd g x c) :
    f'.DefinedAtEnd g x c := by
  obtain ⟨home, hx, dominates⟩ := defined
  have old : x ≠ f.values.size := Nat.ne_of_lt (lt_size_of_home? hx)
  exact ⟨home, by rw [h.home?, if_neg old, hx], dominates⟩

/-- Every member of a block stays one. -/
theorem mem_membersAt (h : f.Placed f' b before after o t) (mem : v ∈ f.membersAt c) :
    v ∈ f'.membersAt c := by
  rw [Procedure.membersAt, h.phisAt, h.instrsAt]
  rw [Procedure.membersAt] at mem
  split
  · next own =>
    subst own
    rw [h.listed] at mem
    simp only [List.mem_append, List.mem_cons] at mem ⊢
    tauto
  · exact mem

/-- A new instruction is listed where it stands. -/
theorem allListed (h : f.Placed f' b before after o t) (all : f.AllListed) : f'.AllListed := by
  intro v c home
  rw [h.home?] at home
  split at home
  · next new =>
    obtain rfl := Option.some.inj home
    rw [Procedure.membersAt, h.instrsAt, if_pos rfl]
    simp [new]
  · exact h.mem_membersAt (all v c home)

end Placed

/-- The members of a block exist. -/
theorem Structured.lt_size_of_mem (s : f.Structured) (mem : v ∈ f.membersAt b) :
    v < f.values.size :=
  lt_size_of_home? (s.home_of_mem mem)

/-- A member of a block that is no phi is an instruction of it. -/
theorem Structured.mem_instrsAt_of_mem (s : f.Structured) (mem : v ∈ f.membersAt b)
    (op : f.opcode? v = some o) (kind : o.isPhi = false) :
    v ∈ f.instrsAt b := by
  refine (List.mem_append.mp mem).resolve_left fun phi => ?_
  rw [← isPhi_eq op, (s.phis b v phi).1] at kind
  cases kind

/-- A value that is no phi and stands in a block is an instruction of it. -/
theorem Structured.mem_instrsAt_of_home (s : f.Structured) (all : f.AllListed)
    (home : f.home? v = some b) (op : f.opcode? v = some o) (kind : o.isPhi = false) :
    v ∈ f.instrsAt b :=
  s.mem_instrsAt_of_mem (all v b home) op kind

/-- A phi that stands in a block is listed among its phis. -/
theorem Structured.mem_phisAt_of_home (s : f.Structured) (all : f.AllListed) (home : f.home? v = some b)
    (op : f.opcode? v = some o) (kind : o.isPhi = true) :
    v ∈ f.phisAt b := by
  refine (List.mem_append.mp (all v b home)).resolve_right fun instr => ?_
  rw [← isPhi_eq op, (s.instrs b v instr).1] at kind
  cases kind

/-- A new instruction whose operands are computed at its place keeps a procedure structured. -/
theorem Structured.place (s : f.Structured) (h : f.Placed f' b before after o t)
    (kind : o.isPhi = false) (operands : ∀ x ∈ o.operands, x < f.values.size) :
    f'.Structured := by
  have count := h.valueCount
  have oldPhi : ∀ c, ∀ v ∈ f.phisAt c, v ≠ f.values.size := fun c v hv =>
    Nat.ne_of_lt (s.lt_size_of_mem (List.mem_append_left _ hv))
  have oldInstr : ∀ c, ∀ v ∈ f.instrsAt c, v ≠ f.values.size := fun c v hv =>
    Nat.ne_of_lt (s.lt_size_of_mem (List.mem_append_right _ hv))
  refine
    { entry := by rw [h.entry, h.flow.size]; exact s.entry
      identified := fun v value found => ?_
      operands := fun v o' found x hx => ?_
      sources := fun v inputs found => ?_
      numbered := fun c block found => ?_
      targets := by simpa only [h.flow.successors, h.flow.size] using s.targets
      results := fun c t' found v hv => ?_
      phis := fun c v hv => ?_
      instrs := fun c v hv => ?_
      nodup := fun c => ?_ }
  · rw [h.getElem?_values] at found
    split at found
    · next new => rw [new, ← Option.some.inj found]
    · exact s.identified v value found
  · rw [h.opcode?] at found
    split at found
    · rw [← Option.some.inj found] at hx
      exact count ▸ Nat.lt_succ_of_lt (operands x hx)
    · exact count ▸ Nat.lt_succ_of_lt (s.operands v o' found x hx)
  · rw [h.opcode?] at found
    split at found
    · rw [Option.some.inj found] at kind
      simp [Opcode.isPhi] at kind
    · rw [h.flow.size]
      exact s.sources v inputs found
  · rw [h.blocks, Option.map_eq_some_iff] at found
    obtain ⟨old, found, rfl⟩ := found
    rw [← s.numbered c old found]
    split <;> rfl
  · rw [h.terminator?] at found
    exact count ▸ Nat.lt_succ_of_lt (s.results c t' found v hv)
  · rw [h.phisAt] at hv
    rw [h.isPhi, h.home?, if_neg (oldPhi c v hv), if_neg (oldPhi c v hv)]
    exact s.phis c v hv
  · rw [h.instrsAt] at hv
    rw [h.isPhi, h.home?]
    split at hv
    · next own =>
      subst own
      rw [List.mem_append, List.mem_cons] at hv
      by_cases new : v = f.values.size
      · simp [new, kind]
      · rw [if_neg new, if_neg new]
        exact s.instrs c v (by rw [h.listed]; simp; tauto)
    · rw [if_neg (oldInstr c v hv), if_neg (oldInstr c v hv)]
      exact s.instrs c v hv
  · have old := s.nodup c
    rw [membersAt] at old ⊢
    rw [h.phisAt, h.instrsAt]
    split
    · next own =>
      subst own
      have newPhi := oldPhi c
      have newInstr := oldInstr c
      rw [h.listed] at old newInstr
      simp only [List.nodup_append, List.nodup_cons, List.mem_append, List.mem_cons] at old ⊢
      grind
    · exact old

/-- A new instruction whose operands are computed at its place keeps a procedure well-formed. -/
theorem WellFormed.place (wf : f.WellFormed g) (h : f.Placed f' b before after o t)
    (kind : o.isPhi = false) (operands : ∀ x ∈ o.operands, x < f.values.size)
    (reads : b ∈ g.order → ∀ x ∈ o.operands, f.Readable g b (f.phisAt b ++ before) x) :
    f'.WellFormed g := by
  have s := wf.structured
  refine ⟨s.place h kind operands, fun c hc => ?_⟩
  have u := wf.uses c hc
  have oldPhi : ∀ v ∈ f.phisAt c, v ≠ f.values.size := fun v hv =>
    Nat.ne_of_lt (s.lt_size_of_mem (List.mem_append_left _ hv))
  have oldInstr : ∀ v ∈ f.instrsAt c, v ≠ f.values.size := fun v hv =>
    Nat.ne_of_lt (s.lt_size_of_mem (List.mem_append_right _ hv))
  constructor
  · intro p hp inputs found
    rw [h.phisAt] at hp
    rw [h.opcode?, if_neg (oldPhi p hp)] at found
    exact u.arity p hp inputs found
  · intro p hp inputs found i hi
    rw [h.phisAt] at hp
    rw [h.opcode?, if_neg (oldPhi p hp)] at found
    exact (u.inputs p hp inputs found i hi).imp_right fun defined reachable =>
      h.definedAtEnd (defined reachable)
  · intro passed v rest split o' found x hx
    rw [h.phisAt]
    -- Either the new instruction itself is meant, or one that stood there before; the latter has
    -- at least the members before it that it had.
    have old : ∀ passed₀ rest₀, f.instrsAt c = passed₀ ++ v :: rest₀ → passed₀ ⊆ passed →
        f'.Readable g c (f.phisAt c ++ passed) x := by
      intro passed₀ rest₀ split₀ sub
      rw [h.opcode?, if_neg (oldInstr v (by simp [split₀]))] at found
      refine h.readable (u.reads passed₀ v rest₀ split₀ o' found x hx) fun y hy => ?_
      exact (List.mem_append.mp hy).elim (List.mem_append_left _) fun hy =>
        List.mem_append_right _ (sub hy)
    rw [h.instrsAt] at split
    split at split
    · next own =>
      subst own
      rcases split_insert split with ⟨mid, rfl, rfl⟩ | ⟨rfl, rfl, rfl⟩ | ⟨mid, rfl, rfl⟩
      · exact old (before ++ mid) rest (by simp [h.listed]) (by simp)
      · rw [h.opcode?, if_pos rfl, Option.some.injEq] at found
        exact h.readable (reads hc x (found ▸ hx)) (List.Subset.refl _)
      · exact old passed (mid ++ after) (by simp [h.listed]) (List.Subset.refl _)
    · exact old passed rest split (List.Subset.refl _)
  · intro t' found v hv
    rw [h.terminator?] at found
    refine h.readable (u.result t' found v hv) ?_
    rw [membersAt, membersAt, h.phisAt, h.instrsAt]
    split
    · next own =>
      subst own
      rw [h.listed]
      intro y hy
      simp only [List.mem_append, List.mem_cons] at hy ⊢
      tauto
    · exact List.Subset.refl _

/-! ### Taking an instruction out -/

/-- The second procedure is the first one without a value that stood in the given block. -/
structure Detached (f f' : Procedure) (v : ValueId) (b : BlockId) : Prop where
  entry : f'.entry = f.entry
  values : ∀ w : ValueId, f'.values[w]? = (f.values[w]?).map fun value =>
    if w = v then { value with block := none } else value
  blocks : ∀ c : BlockId, f'.blocks[c]? = (f.blocks[c]?).map fun block =>
    if c = b then
      { block with instrs := block.instrs.filter (· != v), phis := block.phis.filter (· != v) }
    else block

/-- What detaching a value does. -/
theorem detach_spec (home : f.home? v = some b) (h : f.detach v = .ok f') :
    f.Detached f' v b := by
  simp only [detach, bind_eq_ok, value] at h
  obtain ⟨value, found, h⟩ := h
  have stands : value.block = some b := by
    rw [home?] at home
    cases here : f.values[v]? with
    | none => simp [here] at home
    | some other =>
      simp only [here, Except.ok.injEq] at found
      subst found
      simpa [here] using home
  simp only [stands, bind_eq_ok, pure_eq_ok] at h
  obtain ⟨-, -, rfl⟩ := h
  refine ⟨rfl, fun w => ?_, fun c => ?_⟩
  · simp only [modifyBlock, modifyValue, Array.getElem?_modify, eq_comm]
    split <;> simp
  · simp only [modifyBlock, modifyValue, Array.getElem?_modify, eq_comm]
    split <;> simp

namespace Detached

/-- Detaching keeps the flow. -/
theorem flow (h : f.Detached f' v b) : SameFlow f f' := by
  refine ⟨h.entry, fun c => ?_⟩
  rw [h.blocks, Option.map_map]
  congr 1
  funext block
  by_cases own : c = b <;> simp [own, Block.flow]

/-- Opcodes are kept. -/
theorem opcode? (h : f.Detached f' v b) (w : ValueId) : f'.opcode? w = f.opcode? w := by
  rw [Procedure.opcode?, Procedure.opcode?, h.values, Option.map_map]
  congr 1
  funext value
  by_cases own : w = v <;> simp [own]

/-- Types are kept. -/
theorem type? (h : f.Detached f' v b) (w : ValueId) : f'.type? w = f.type? w := by
  rw [Procedure.type?, Procedure.type?, h.values, Option.map_map]
  congr 1
  funext value
  by_cases own : w = v <;> simp [own]

/-- Phis stay phis. -/
theorem isPhi (h : f.Detached f' v b) (w : ValueId) : f'.isPhi w = f.isPhi w := by
  rw [Procedure.isPhi, Procedure.isPhi, h.values]
  by_cases own : w = v <;> cases f.values[w]? <;> simp [own]

/-- The value stands nowhere. -/
theorem home? (h : f.Detached f' v b) (w : ValueId) :
    f'.home? w = if w = v then none else f.home? w := by
  rw [Procedure.home?, Procedure.home?, h.values]
  by_cases own : w = v <;> cases f.values[w]? <;> simp [own]

/-- Terminators are kept. -/
theorem terminator? (h : f.Detached f' v b) (c : BlockId) :
    f'.terminator? c = f.terminator? c := by
  rw [Procedure.terminator?, Procedure.terminator?, h.blocks, Option.map_map]
  congr 1
  funext block
  by_cases own : c = b <;> simp [own]

/-- No value is lost. -/
theorem valueCount (h : f.Detached f' v b) : f'.values.size = f.values.size := by
  refine @size_eq_of_map_eq _ _ f'.values f.values Value.id fun w => ?_
  rw [h.values, Option.map_map]
  congr 1
  funext value
  by_cases own : w = v <;> simp [own]

/-- It is no longer among the phis. -/
theorem phisAt (h : f.Detached f' v b) (s : f.Structured) (home : f.home? v = some b)
    (c : BlockId) : f'.phisAt c = (f.phisAt c).filter (· != v) := by
  rw [Procedure.phisAt, h.blocks]
  by_cases own : c = b
  · subst own
    cases found : f.blocks[c]? <;> simp [Procedure.phisAt, found]
  · have absent : ∀ w ∈ f.phisAt c, w ≠ v := by
      rintro w hw rfl
      have := (s.phis c w hw).2.symm.trans home
      exact own (Option.some.inj this)
    rw [List.filter_eq_self.mpr (by simpa using absent), Procedure.phisAt]
    cases f.blocks[c]? <;> simp [own]

/-- Nor among the instructions. -/
theorem instrsAt (h : f.Detached f' v b) (s : f.Structured) (home : f.home? v = some b)
    (c : BlockId) : f'.instrsAt c = (f.instrsAt c).filter (· != v) := by
  rw [Procedure.instrsAt, h.blocks]
  by_cases own : c = b
  · subst own
    cases found : f.blocks[c]? <;> simp [Procedure.instrsAt, found]
  · have absent : ∀ w ∈ f.instrsAt c, w ≠ v := by
      rintro w hw rfl
      have := (s.instrs c w hw).2.symm.trans home
      exact own (Option.some.inj this)
    rw [List.filter_eq_self.mpr (by simpa using absent), Procedure.instrsAt]
    cases f.blocks[c]? <;> simp [own]

/-- Nor in any block. -/
theorem membersAt (h : f.Detached f' v b) (s : f.Structured) (home : f.home? v = some b)
    (c : BlockId) : f'.membersAt c = (f.membersAt c).filter (· != v) := by
  rw [Procedure.membersAt, Procedure.membersAt, h.phisAt s home, h.instrsAt s home,
    List.filter_append]

/-- What could be read before can be read without the value, unless it is that value. -/
theorem readable (h : f.Detached f' v b) {c : BlockId} {passed : List ValueId} (ne : x ≠ v)
    (read : f.Readable g c passed x) :
    f'.Readable g c (passed.filter (· != v)) x := by
  obtain ⟨home, hx, here⟩ := read
  refine ⟨home, by rw [h.home?, if_neg ne, hx], ?_⟩
  split at here
  · next own => rw [if_pos own]; simpa [ne] using here
  · next other => rw [if_neg other]; exact here

/-- All other values stay listed. -/
theorem allListed (h : f.Detached f' v b) (s : f.Structured) (home : f.home? v = some b)
    (all : f.AllListed) : f'.AllListed := by
  intro w c place
  rw [h.home?] at place
  rw [h.membersAt s home]
  split at place
  · cases place
  · next other => exact List.mem_filter.mpr ⟨all w c place, by simpa using other⟩

end Detached

/-- A value that is taken out leaves the procedure structured. -/
theorem Structured.detach (s : f.Structured) (home : f.home? v = some b) (h : f.Detached f' v b) :
    f'.Structured where
  entry := by rw [h.entry, h.flow.size]; exact s.entry
  identified w value found := by
    rw [h.values, Option.map_eq_some_iff] at found
    obtain ⟨old, found, rfl⟩ := found
    rw [← s.identified w old found]
    split <;> rfl
  operands := by simpa only [h.opcode?, h.valueCount] using s.operands
  sources := by simpa only [h.opcode?, h.flow.size] using s.sources
  numbered c block found := by
    rw [h.blocks, Option.map_eq_some_iff] at found
    obtain ⟨old, found, rfl⟩ := found
    rw [← s.numbered c old found]
    split <;> rfl
  targets := by simpa only [h.flow.successors, h.flow.size] using s.targets
  results := by simpa only [h.terminator?, h.valueCount] using s.results
  phis c w hw := by
    rw [h.phisAt s home, List.mem_filter] at hw
    have ne : w ≠ v := by simpa using hw.2
    rw [h.isPhi, h.home?, if_neg ne]
    exact s.phis c w hw.1
  instrs c w hw := by
    rw [h.instrsAt s home, List.mem_filter] at hw
    have ne : w ≠ v := by simpa using hw.2
    rw [h.isPhi, h.home?, if_neg ne]
    exact s.instrs c w hw.1
  nodup c := by
    rw [h.membersAt s home]
    exact (s.nodup c).filter _

/-- A value that nothing reachable reads may be taken out. -/
theorem WellFormed.detach (wf : f.WellFormed g) (home : f.home? v = some b) (h : f.Detached f' v b)
    (inputs : ∀ c ∈ g.order, ∀ p ∈ f.phisAt c, p ≠ v → ∀ inputs, f.opcode? p = some (.phi inputs) →
      ∀ i ∈ inputs, g.isReachable i.2 = true → i.1 ≠ v)
    (reads : ∀ c ∈ g.order, ∀ w ∈ f.instrsAt c, w ≠ v → ∀ o, f.opcode? w = some o →
      v ∉ o.operands)
    (result : ∀ c ∈ g.order, ∀ t, f.terminator? c = some t → t.operand ≠ some v) :
    f'.WellFormed g := by
  have s := wf.structured
  refine ⟨s.detach home h, fun c hc => ?_⟩
  have u := wf.uses c hc
  constructor
  · intro p hp inputs found
    rw [h.phisAt s home, List.mem_filter] at hp
    exact u.arity p hp.1 inputs (h.opcode? p ▸ found)
  · intro p hp inputs' found i hi
    rw [h.phisAt s home, List.mem_filter] at hp
    rw [h.opcode?] at found
    obtain ⟨source, defined⟩ := u.inputs p hp.1 inputs' found i hi
    refine ⟨source, fun reachable => ?_⟩
    have ne := inputs c hc p hp.1 (by simpa using hp.2) inputs' found i hi reachable
    obtain ⟨place, stands, dominates⟩ := defined reachable
    exact ⟨place, by rw [h.home?, if_neg ne, stands], dominates⟩
  · intro passed w rest split o found x hx
    rw [h.opcode?] at found
    rw [h.instrsAt s home, List.filter_eq_append_iff] at split
    obtain ⟨passed₀, rest₀, split, rfl, tail⟩ := split
    obtain ⟨skipped, rest₁, rfl, none, keep, rfl⟩ := List.filter_eq_cons_iff.mp tail
    have mem : w ∈ f.instrsAt c := by simp [split]
    have ne : x ≠ v := by
      rintro rfl
      exact reads c hc w mem (by simpa using keep) o found hx
    have read := u.reads (passed₀ ++ skipped) w rest₁ (by simp [split]) o found x hx
    have kept := h.readable ne read
    rw [List.filter_append, List.filter_append,
      List.filter_eq_nil_iff.mpr (fun y hy => none y hy), List.append_nil] at kept
    rw [h.phisAt s home]
    exact kept
  · intro t found x hx
    rw [h.terminator?] at found
    rw [h.membersAt s home]
    refine h.readable ?_ (u.result t found x hx)
    rintro rfl
    exact result c hc t found hx

/-! ### Changing an instruction in its place -/

/-- The second procedure is the first one with another opcode, and perhaps another type, for one
instruction. -/
structure Recoded (f f' : Procedure) (v : ValueId) (o : Opcode) : Prop where
  layout : SameLayout f f'
  opcode? : ∀ w, f'.opcode? w = if w = v then some o else f.opcode? w
  terminator? : ∀ b, f'.terminator? b = f.terminator? b

/-- Changing a value that is an instruction, and stays one, recodes it. -/
theorem recoded_modifyValue {m : Value → Value} (s : f.Structured) (hv : v ∈ f.instrsAt b)
    (kind : o.isPhi = false) (ids : ∀ value, (m value).id = value.id)
    (places : ∀ value, (m value).block = value.block) (opcodes : ∀ value, (m value).opcode = o) :
    f.Recoded (f.modifyValue v m) v o := by
  obtain ⟨notPhi, home⟩ := s.instrs b v hv
  obtain ⟨value, found⟩ : ∃ value, f.values[v]? = some value :=
    ⟨_, Array.getElem?_eq_getElem (lt_size_of_home? home)⟩
  have was : value.opcode.isPhi = false := by
    rw [← isPhi_eq (opcode?_of_value found)]
    exact notPhi
  refine ⟨⟨rfl, fun _ => rfl, fun w => ?_⟩, fun w => ?_, fun _ => rfl⟩
  · simp only [modifyValue, Array.getElem?_modify]
    split
    · next own =>
      subst own
      simp [found, Value.layout, ids, places, opcodes, was, kind]
    · rfl
  · simp only [Procedure.opcode?, modifyValue, Array.getElem?_modify, @eq_comm _ v]
    split
    · next own =>
      subst own
      simp [found, opcodes]
    · rfl

/-- A recoded instruction keeps a procedure structured if its operands exist. -/
theorem Structured.recode (s : f.Structured) (h : f.Recoded f' v o) (kind : o.isPhi = false)
    (operands : ∀ x ∈ o.operands, x < f.values.size) : f'.Structured := by
  refine s.of_sameLayout h.layout (fun w o' op x hx => ?_) (fun w inputs op => ?_) ?_
  · rw [h.opcode?] at op
    split at op
    · exact operands x (Option.some.inj op ▸ hx)
    · exact s.operands w o' op x hx
  · rw [h.opcode?] at op
    split at op
    · rw [Option.some.inj op] at kind
      cases kind
    · exact ⟨inputs, op, rfl⟩
  · simpa only [h.terminator?] using s.results

/-- A recoded instruction keeps a procedure well-formed if its operands can be read at its place. -/
theorem WellFormed.recode (wf : f.WellFormed g) (hv : v ∈ f.instrsAt b) (h : f.Recoded f' v o)
    (kind : o.isPhi = false) (operands : ∀ x ∈ o.operands, x < f.values.size)
    (reads : b ∈ g.order → ∀ before after, f.instrsAt b = before ++ v :: after →
      ∀ x ∈ o.operands, f.Readable g b (f.phisAt b ++ before) x) : f'.WellFormed g := by
  have s := wf.structured
  refine wf.of_sameLayout h.layout (s.recode h kind operands) (fun w inputs op => ?_) ?_ ?_ ?_
  · rw [h.opcode?] at op
    split at op
    · rw [Option.some.inj op] at kind
      cases kind
    · exact ⟨inputs, op, rfl⟩
  · intro c hc p hp inputs op i hi
    rw [h.opcode?] at op
    split at op
    · rw [Option.some.inj op] at kind
      cases kind
    · exact ((wf.uses c hc).inputs p hp inputs op i hi).2
  · intro c hc before w after split o' op x hx
    rw [h.opcode?] at op
    split at op
    · next own =>
      subst own
      obtain rfl : b = c := Option.some.inj ((s.instrs b w hv).2.symm.trans
        (s.instrs c w (by simp [split])).2)
      exact reads hc before after split x (Option.some.inj op ▸ hx)
    · exact (wf.uses c hc).reads before w after split o' op x hx
  · intro c hc t term
    rw [h.terminator?] at term
    exact (wf.uses c hc).result t term

/-! ### Collapsing an instruction into an operand -/

/-- An instruction that is defined at the end of a block stands in a reachable block, and so its
operands are defined there as well. -/
theorem WellFormed.definedAtEnd_operand (wf : f.WellFormed g) (d : g.Describes f) {b q : BlockId}
    {v x : ValueId} (hv : v ∈ f.instrsAt b) (op : f.opcode? v = some o) (hx : x ∈ o.operands)
    (defined : f.DefinedAtEnd g v q) : f.DefinedAtEnd g x q := by
  obtain ⟨home, stands, dominates⟩ := defined
  obtain rfl : b = home := Option.some.inj ((wf.structured.instrs b v hv).2.symm.trans stands)
  obtain ⟨hq, above⟩ := d.dominates_iff.mp dominates
  have hb := d.mem_order_of_above hq above
  obtain ⟨before, after, split⟩ := List.append_of_mem hv
  obtain ⟨homeX, standsX, here⟩ := (wf.uses b hb).reads before v after split o op x hx
  refine ⟨homeX, standsX, ?_⟩
  split at here
  · next own => rw [own]; exact dominates
  · exact d.dominates_iff.mpr ⟨hq, (d.dominates_iff.mp here).2.trans above⟩

/-- Wherever an instruction can be read, its operands can. -/
theorem WellFormed.readable_operand (wf : f.WellFormed g) (d : g.Describes f) {b c : BlockId}
    {v x : ValueId} {passed rest : List ValueId} (hv : v ∈ f.instrsAt b) (op : f.opcode? v = some o)
    (hx : x ∈ o.operands) (hc : c ∈ g.order) (split : f.instrsAt c = passed ++ rest)
    (read : f.Readable g c (f.phisAt c ++ passed) v) :
    f.Readable g c (f.phisAt c ++ passed) x := by
  obtain ⟨home, stands, here⟩ := read
  obtain ⟨kind, homeV⟩ := wf.structured.instrs b v hv
  obtain rfl : b = home := Option.some.inj (homeV.symm.trans stands)
  by_cases own : b = c
  · subst own
    rw [if_pos rfl] at here
    have mem : v ∈ passed := by
      refine (List.mem_append.mp here).resolve_left fun phi => ?_
      rw [(wf.structured.phis b v phi).1] at kind
      cases kind
    obtain ⟨before, between, rfl⟩ := List.append_of_mem mem
    obtain ⟨homeX, standsX, hereX⟩ := (wf.uses b hc).reads before v (between ++ rest)
      (by simp [split]) o op x hx
    refine ⟨homeX, standsX, ?_⟩
    split at hereX
    · next ownX =>
      rw [if_pos ownX]
      simp only [List.mem_append, List.mem_cons] at hereX ⊢
      tauto
    · next otherX => rw [if_neg otherX]; exact hereX
  · rw [if_neg own] at here
    obtain ⟨homeX, standsX, dominates⟩ :=
      wf.definedAtEnd_operand d hv op hx ⟨b, stands, here⟩
    refine ⟨homeX, standsX, ?_⟩
    split
    · next same =>
      -- The operand cannot stand in `c`, which lies strictly below the instruction.
      subst same
      obtain ⟨-, above⟩ := d.dominates_iff.mp here
      have hb := d.mem_order_of_above hc above
      obtain ⟨before, after, split'⟩ := List.append_of_mem hv
      obtain ⟨homeX', standsX', hereX'⟩ := (wf.uses b hb).reads before v after split' o op x hx
      obtain rfl := Option.some.inj (standsX.symm.trans standsX')
      rw [if_neg (Ne.symm own)] at hereX'
      exact absurd (d.above_antisymm above (d.dominates_iff.mp hereX').2) own
    · exact dominates

/-- A phi in reachable code reads, from a reachable block, a value that stands nowhere and reads
the phi. -/
def SelfFed (f : Procedure) (g : FlowGraph) : Prop :=
  ∃ b ∈ g.order, ∃ p ∈ f.phisAt b, ∃ inputs, f.opcode? p = some (.phi inputs) ∧
    ∃ i ∈ inputs, g.isReachable i.2 = true ∧ f.home? i.1 = none ∧
      ∃ o, f.opcode? i.1 = some o ∧ p ∈ o.operands

/-- A procedure with such a phi is not well-formed. -/
theorem SelfFed.not_wellFormed (h : f.SelfFed g) : ¬f.WellFormed g := by
  obtain ⟨b, hb, p, hp, inputs, op, i, hi, reachable, nowhere, -⟩ := h
  intro wf
  obtain ⟨home, stands, -⟩ := ((wf.uses b hb).inputs p hp inputs op i hi).2 reachable
  rw [nowhere] at stands
  cases stands

/-- Such a phi stays as long as phis are kept, with the inputs that stand nowhere, and the values
that stand nowhere are left alone. -/
theorem SelfFed.of_keeps (h : f.SelfFed g)
    (phis : ∀ b, ∀ p ∈ f.phisAt b, p ∈ f'.phisAt b)
    (inputs : ∀ b, ∀ p ∈ f.phisAt b, ∀ inputs, f.opcode? p = some (.phi inputs) →
      ∃ inputs', f'.opcode? p = some (.phi inputs') ∧ ∀ i ∈ inputs, f.home? i.1 = none → i ∈ inputs')
    (nowhere : ∀ x o, f.home? x = none → f.opcode? x = some o →
      f'.home? x = none ∧ f'.opcode? x = some o) : f'.SelfFed g := by
  obtain ⟨b, hb, p, hp, old, op, i, hi, reachable, out, o, opIn, mem⟩ := h
  obtain ⟨new, op', keep⟩ := inputs b p hp old op
  obtain ⟨out', opIn'⟩ := nowhere i.1 o out opIn
  exact ⟨b, hb, p, phis b p hp, new, op', i, keep i hi out, reachable, out', o, opIn', mem⟩

/-- Ranges and marks do not matter for such a phi. -/
theorem SelfFed.of_sameCode (h : f.SelfFed g) (same : SameCode f f') : f'.SelfFed g :=
  h.of_keeps (fun b _ hp => same.layout.phisAt b ▸ hp)
    (fun _ p _ inputs op => ⟨inputs, same.opcode? p ▸ op, fun _ hi _ => hi⟩)
    (fun x _ out op => ⟨same.layout.home? x ▸ out, same.opcode? x ▸ op⟩)

/-- A new instruction does not repair such a phi. -/
theorem SelfFed.place (h : f.SelfFed g) (s : f.Structured) (placed : f.Placed f' b before after o t) :
    f'.SelfFed g := by
  refine h.of_keeps (fun c p hp => placed.phisAt c ▸ hp) (fun c p hp inputs op => ?_)
    fun x o' out op => ?_
  · have old := Nat.ne_of_lt (s.lt_size_of_mem (List.mem_append_left (f.instrsAt c) hp))
    exact ⟨inputs, by rw [placed.opcode?, if_neg old, op], fun _ hi _ => hi⟩
  · have old : x ≠ f.values.size := by
      rintro rfl
      simp [Procedure.opcode?] at op
    exact ⟨by rw [placed.home?, if_neg old, out], by rw [placed.opcode?, if_neg old, op]⟩

/-- Recoding an instruction does not repair such a phi. -/
theorem SelfFed.recode (h : f.SelfFed g) (s : f.Structured) (hv : v ∈ f.instrsAt b)
    (recoded : f.Recoded f' v o) : f'.SelfFed g := by
  obtain ⟨kind, stands⟩ := s.instrs b v hv
  refine h.of_keeps (fun c p hp => recoded.layout.phisAt c ▸ hp) (fun c p hp inputs op => ?_)
    fun x o' out op => ?_
  · have other : p ≠ v := by
      rintro rfl
      rw [(s.phis c p hp).1] at kind
      cases kind
    exact ⟨inputs, by rw [recoded.opcode?, if_neg other, op], fun _ hi _ => hi⟩
  · have other : x ≠ v := by
      rintro rfl
      rw [stands] at out
      cases out
    exact ⟨by rw [recoded.layout.home?, out], by rw [recoded.opcode?, if_neg other, op]⟩

/-- Moving uses to a value that exists keeps a procedure structured. -/
theorem Structured.moveUses (s : f.Structured) (exists_new : new < f.values.size)
    (moved : f.moveUses old new = .ok (f', n)) :
    f'.Structured := by
  have maps : ∀ y, substitute old new y = y ∨ y = old ∧ substitute old new y = new := by
    intro y
    by_cases h : y = old <;> simp [substitute, h]
  refine (moveUses_spec s moved).structured s exists_new (fun w y => ?_) (fun p q y => ?_)
    fun _ => maps
  all_goals
    split
    · exact maps y
    · exact .inl rfl

/-- Collapsing another instruction does not repair such a phi. -/
theorem SelfFed.collapse {v x : ValueId} (h : f.SelfFed g) (s : f.Structured) (hv : v ∈ f.instrsAt b)
    (hx : x < f.values.size) (moved : f.moveUses v x = .ok (f₁, n)) (detached : f₁.detach v = .ok f') :
    f'.SelfFed g := by
  have renamed := moveUses_spec s moved
  have layout := renamed.layout
  obtain ⟨kind, stands⟩ := s.instrs b v hv
  have home : f₁.home? v = some b := by rw [layout.home?, stands]
  have out := detach_spec home detached
  have other : ∀ y, f.home? y = none → y ≠ v := by
    rintro y none rfl
    rw [stands] at none
    cases none
  refine h.of_keeps (fun c p hp => ?_) (fun c p hp inputs op => ?_) fun y o none op => ?_
  · rw [out.phisAt (s.moveUses hx moved) home, layout.phisAt]
    refine List.mem_filter.mpr ⟨hp, ?_⟩
    have : p ≠ v := by
      rintro rfl
      rw [(s.phis c p hp).1] at kind
      cases kind
    simpa using this
  · have op' := renamed.opcode? p
    rw [op, Option.map_some] at op'
    refine ⟨_, (out.opcode? p).trans op', fun i hi none => ?_⟩
    refine List.mem_map.mpr ⟨i, hi, ?_⟩
    by_cases renames : p ∈ f.listed ∧ p ≠ x <;> simp [renames, substitute, other i.1 none]
  · have unlisted : y ∉ f.listed := by
      intro mem
      obtain ⟨c, mem⟩ := mem_listed.mp mem
      rw [s.home_of_mem mem] at none
      cases none
    refine ⟨by rw [out.home?, layout.home?, none, ite_self], ?_⟩
    rw [out.opcode?, renamed.opcode?, op, if_neg (fun both => unlisted both.1)]
    simp [Opcode.rename_id]

/-- What is replaced is gone. -/
theorem substitute_ne {old new y : ValueId} (ne : new ≠ old) : substitute old new y ≠ old := by
  rw [substitute]
  split
  · exact ne
  · assumption

/-- The instructions of a block are distinct. -/
theorem Structured.nodup_instrsAt (s : f.Structured) (b : BlockId) : (f.instrsAt b).Nodup :=
  (List.nodup_append.mp (s.nodup b)).2.1

/-- An instruction stands in one place. -/
theorem Structured.split_unique (s : f.Structured) {b c : BlockId}
    {before after before' after' : List ValueId} (split : f.instrsAt b = before ++ v :: after)
    (split' : f.instrsAt c = before' ++ v :: after') : b = c ∧ before = before' ∧ after = after' := by
  obtain rfl : b = c := Option.some.inj
    ((s.instrs b v (by simp [split])).2.symm.trans (s.instrs c v (by simp [split'])).2)
  have nodup := s.nodup_instrsAt b
  rw [split, List.nodup_middle, List.nodup_cons, List.mem_append, not_or] at nodup
  obtain ⟨front, -, back⟩ :=
    (List.append_cons_inj_of_notMem nodup.1.1 nodup.1.2).mp (split.symm.trans split')
  exact ⟨rfl, front, back⟩

/-- An instruction that is among the members before another one is an instruction before it. -/
theorem Structured.mem_before_of_mem (s : f.Structured) (hx : x ∈ f.instrsAt b)
    (mem : x ∈ f.phisAt b ++ before) : x ∈ before := by
  refine (List.mem_append.mp mem).resolve_left fun phi => ?_
  have kind := (s.instrs b x hx).1
  rw [(s.phis b x phi).1] at kind
  cases kind

/-- An instruction and its operand do not read each other in reachable code. -/
theorem WellFormed.not_mem_operands (wf : f.WellFormed g) (d : g.Describes f) {b c : BlockId}
    {v x : ValueId} {o o' : Opcode} (hb : b ∈ g.order) (hc : c ∈ g.order) (hv : v ∈ f.instrsAt b)
    (hx : x ∈ f.instrsAt c) (op : f.opcode? v = some o) (op' : f.opcode? x = some o')
    (mem : x ∈ o.operands) : v ∉ o'.operands := by
  intro mem'
  obtain ⟨before, after, split⟩ := List.append_of_mem hv
  obtain ⟨before', after', split'⟩ := List.append_of_mem hx
  obtain ⟨home, stands, here⟩ := (wf.uses b hb).reads before v after split o op x mem
  obtain ⟨home', stands', here'⟩ := (wf.uses c hc).reads before' x after' split' o' op' v mem'
  obtain rfl : c = home := Option.some.inj ((wf.structured.instrs c x hx).2.symm.trans stands)
  obtain rfl : b = home' := Option.some.inj ((wf.structured.instrs b v hv).2.symm.trans stands')
  by_cases same : c = b
  · -- Both stand in one block, each before the other.
    subst same
    rw [if_pos rfl] at here here'
    have first := wf.structured.mem_before_of_mem hx here
    have second := wf.structured.mem_before_of_mem hv here'
    have nodup := wf.structured.nodup_instrsAt c
    have lt := FlowGraph.idxOf_lt_of_mem_before (split ▸ nodup) first
    have lt' := FlowGraph.idxOf_lt_of_mem_before (split' ▸ nodup) second
    rw [← split] at lt
    rw [← split'] at lt'
    exact Nat.lt_asymm lt lt'
  · rw [if_neg same] at here
    rw [if_neg (Ne.symm same)] at here'
    exact same (d.above_antisymm (d.dominates_iff.mp here).2 (d.dominates_iff.mp here').2)

/-- Moving the uses of an instruction to one of its operands keeps a procedure well-formed. -/
theorem WellFormed.moveUses (wf : f.WellFormed g) (d : g.Describes f) {v x : ValueId}
    (hv : v ∈ f.instrsAt b) (op : f.opcode? v = some o) (hx : x ∈ o.operands)
    (moved : f.moveUses v x = .ok (f', n)) : f'.WellFormed g := by
  have maps : ∀ y, substitute v x y = y ∨ y = v ∧ substitute v x y = x := by
    intro y
    by_cases h : y = v <;> simp [substitute, h]
  refine (moveUses_spec wf.structured moved).wellFormed wf
    (wf.structured.operands v o op x hx) ?_ ?_ (fun _ => maps) ?_ ?_ ?_
  · intro w y
    split
    · exact maps y
    · exact .inl rfl
  · intro p q y
    split
    · exact maps y
    · exact .inl rfl
  · intro c hc before w after split _ read
    exact wf.readable_operand d hv op hx hc split read
  · intro p q _ _ defined
    exact wf.definedAtEnd_operand d hv op hx defined
  · intro c hc _ read
    exact wf.readable_operand d hv op hx hc (List.append_nil _).symm read

/-- After its uses have moved, no listed value but the new one reads the old one. -/
theorem moveUses_not_mem (s : f.Structured) (moved : f.moveUses old new = .ok (f', n)) (ne : new ≠ old)
    (listed : w ∈ f.listed) (other : w ≠ new) (op : f'.opcode? w = some o) :
    old ∉ o.operands := by
  rw [(moveUses_spec s moved).opcode?, Option.map_eq_some_iff] at op
  obtain ⟨o, -, rfl⟩ := op
  rw [if_pos ⟨listed, other⟩]
  intro mem
  obtain ⟨y, -, same | ⟨-, same⟩⟩ := Opcode.mem_operands_rename mem
  all_goals exact substitute_ne ne same.symm

/-- An instruction that reads the new value still does so after the uses have moved. -/
theorem moveUses_mem (s : f.Structured) (moved : f.moveUses old new = .ok (f', n)) (ne : new ≠ old)
    (kind : o.isPhi = false) (op : f.opcode? w = some o) (mem : new ∈ o.operands) :
    ∃ o', f'.opcode? w = some o' ∧ new ∈ o'.operands := by
  have found := (moveUses_spec s moved).opcode? w
  rw [op, Option.map_some] at found
  refine ⟨_, found, ?_⟩
  rw [Opcode.operands_rename kind]
  refine List.mem_map.mpr ⟨new, mem, ?_⟩
  split
  · rw [substitute, if_neg ne]
  · rfl

/-- Moving uses to a value leaves the opcode of that value alone. -/
theorem opcode?_moveUses_self (s : f.Structured) (moved : f.moveUses old new = .ok (f', n)) :
    f'.opcode? new = f.opcode? new := by
  rw [(moveUses_spec s moved).opcode?, if_neg fun own => own.2 rfl]
  cases f.opcode? new <;> simp [Opcode.rename_id]

/-- Collapsing an instruction into one of its operands keeps a procedure well-formed, unless the
operand is a phi that reads the instruction. -/
theorem WellFormed.collapse (wf : f.WellFormed g) (d : g.Describes f) {v x : ValueId}
    (hv : v ∈ f.instrsAt b) (op : f.opcode? v = some o) (hx : x ∈ o.operands)
    (moved : f.moveUses v x = .ok (f₁, n)) (detached : f₁.detach v = .ok f') :
    f'.WellFormed g ∨
      f'.SelfFed g ∧ ∃ inputs, f.opcode? x = some (.phi inputs) ∧ v ∈ inputs.map Prod.fst := by
  have s := wf.structured
  have wf₁ := wf.moveUses d hv op hx moved
  have renamed := moveUses_spec s moved
  have layout := renamed.layout
  have home : f₁.home? v = some b := by rw [layout.home?]; exact (s.instrs b v hv).2
  have out := detach_spec home detached
  have listed : ∀ {c w}, w ∈ f₁.membersAt c → w ∈ f.listed := fun {c w} mem =>
    mem_listed.mpr ⟨c, layout.membersAt c ▸ mem⟩
  -- An instruction that is read in reachable code is reachable and differs from its operand.
  have ne_of_mem : b ∈ g.order → x ≠ v := by
    rintro hb rfl
    exact wf.not_mem_operands d hb hb hv hv op op hx hx
  have mem_of_dominates : ∀ {c}, g.dominates b c = true → b ∈ g.order := fun {c} dominates =>
    have h := d.dominates_iff.mp dominates
    d.mem_order_of_above h.1 h.2
  have mem_of_readable : ∀ {c passed}, c ∈ g.order → f₁.Readable g c passed v → b ∈ g.order := by
    rintro c passed hc ⟨place, stands, here⟩
    obtain rfl := Option.some.inj (home.symm.trans stands)
    split at here
    · next own => exact own ▸ hc
    · exact mem_of_dominates here
  by_cases cut : f'.SelfFed g ∧ ∃ inputs, f.opcode? x = some (.phi inputs) ∧ v ∈ inputs.map Prod.fst
  · exact .inr cut
  refine .inl (wf₁.detach home out ?_ ?_ ?_)
  · intro c hc p hp other inputs op' i hi reachable isOld
    have defined := ((wf₁.uses c hc).inputs p hp inputs op' i hi).2 reachable
    obtain ⟨place, stands, dominates⟩ := isOld ▸ defined
    obtain rfl := Option.some.inj (home.symm.trans stands)
    have ne := ne_of_mem (mem_of_dominates dominates)
    by_cases own : p = x
    · have kind : o.isPhi = false := by
        rw [← isPhi_eq op]
        exact (s.instrs b v hv).1
      have hp' : p ∈ f'.phisAt c := by
        rw [out.phisAt wf₁.structured home]
        exact List.mem_filter.mpr ⟨hp, by simpa using other⟩
      obtain ⟨o', op₁, mem⟩ := moveUses_mem s moved ne kind op hx
      refine cut ⟨⟨c, hc, p, hp', inputs, by rw [out.opcode?, op'], i, hi, reachable,
        by rw [out.home?, if_pos isOld], o', by rw [out.opcode?, isOld, op₁], own ▸ mem⟩, inputs, ?_,
        isOld ▸ List.mem_map_of_mem hi⟩
      rw [← opcode?_moveUses_self s moved, ← own, op']
    · refine moveUses_not_mem s moved ne (listed (List.mem_append_left _ hp)) own op' ?_
      rw [← isOld]
      exact List.mem_map_of_mem hi
  · intro c hc w hw other o' op' mem
    obtain ⟨before, after, split⟩ := List.append_of_mem hw
    have hb := mem_of_readable hc ((wf₁.uses c hc).reads before w after split o' op' v mem)
    have ne := ne_of_mem hb
    by_cases own : w = x
    · have kind : o.isPhi = false := by
        rw [← isPhi_eq op]
        exact (s.instrs b v hv).1
      obtain ⟨o₁, op₁, mem₁⟩ := moveUses_mem s moved ne kind op hx
      have hv₁ : v ∈ f₁.instrsAt b := layout.instrsAt b ▸ hv
      exact wf₁.not_mem_operands (layout.flow.describes d) hb hc hv₁ hw op₁ op' (own ▸ mem₁) mem
    · exact moveUses_not_mem s moved ne (listed (List.mem_append_right _ hw)) own op' mem
  · intro c hc t term result
    have ne := ne_of_mem (mem_of_readable hc ((wf₁.uses c hc).result t term v result))
    rw [renamed.terminator?, Option.map_eq_some_iff] at term
    obtain ⟨t, -, rfl⟩ := term
    rw [Terminator.operand_mapOperand, Option.map_eq_some_iff] at result
    obtain ⟨y, -, same⟩ := result
    exact substitute_ne ne same

end Procedure

end Rangefinder
