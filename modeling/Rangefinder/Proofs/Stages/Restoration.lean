import Rangefinder.Proofs.Stages.Removal

/-!
# Taking out the betas restores the procedure

Betas are placed one after the other, and each takes over uses of the value that it refines. They
may be stacked: a beta may refine another one, and one value may have two in one block. They are
taken out block by block, which is not the order in which they came, and moving the uses of a beta
leaves out the operands of the value that the uses go to. Still nothing is left of them.

The argument is the same in both directions. Every beta stands for one value of the original
procedure, its root, and no edit makes a use read a value with another root. So the original can be
read off at any time by replacing every operand by its root (`Rooted`). When all betas are gone,
every operand is its own root. The uses that are left out would be those of a beta by a value that
it refines: among instructions there are none in well-formed code, and a phi would have to be its own
input in the original.
-/

namespace Rangefinder

/-- The value with its operands renamed. -/
def Value.mapOperands (σ : ValueId → ValueId) (value : Value) : Value :=
  { value with opcode := value.opcode.mapOperands σ }

/-- The block with the instructions from the `n`-th value on left out, and what its terminator reads
renamed. -/
def Block.reduce (n : Nat) (σ : ValueId → ValueId) (block : Block) : Block :=
  { block with
    instrs := block.instrs.filter fun v => decide (v < n)
    terminator := block.terminator.mapOperand σ }

/-- Two renamings that agree on the operands of an opcode, the one after another renaming. -/
theorem Opcode.mapOperands_rename {o : Opcode} {ρ σ σ' : ValueId → ValueId}
    {π : BlockId → ValueId → ValueId} (hρ : ∀ x ∈ o.operands, σ' (ρ x) = σ x)
    (hπ : ∀ x ∈ o.operands, ∀ q, σ' (π q x) = σ x) :
    (o.rename ρ π).mapOperands σ' = o.mapOperands σ := by
  cases o with
  | phi inputs =>
    simp only [operands, List.mem_map, forall_exists_index, and_imp, forall_apply_eq_imp_iff₂] at hπ
    simp only [rename, mapOperands, List.map_map, phi.injEq, List.map_inj_left, Function.comp_apply]
    exact fun i hi => by rw [hπ i hi]
  | _ => simp_all [rename, mapOperands, operands]

/-- A renaming that leaves the operands alone leaves the opcode alone. -/
theorem Opcode.mapOperands_eq_self {o : Opcode} {σ : ValueId → ValueId}
    (fixed : ∀ x ∈ o.operands, σ x = x) : o.mapOperands σ = o := by
  have same := mapOperands_rename (ρ := id) (σ := id) (π := fun _ => id) fixed fun x hx _ => fixed x hx
  rwa [rename_id, mapOperands_eq_rename (ρ := id), rename_id] at same

/-- Two renamings that agree on the operand of a terminator, the one after another renaming. -/
theorem Terminator.mapOperand_comp {t : Terminator} {τ σ σ' : ValueId → ValueId}
    (hτ : ∀ x ∈ t.operand, σ' (τ x) = σ x) : (t.mapOperand τ).mapOperand σ' = t.mapOperand σ := by
  rw [mapOperand_mapOperand]
  cases t with
  | exit result => cases result <;> simp_all [mapOperand, operand]
  | _ => simp_all [mapOperand, operand]

/-- A renaming that leaves the operand alone leaves the terminator alone. -/
theorem Terminator.mapOperand_eq_self {t : Terminator} {σ : ValueId → ValueId}
    (fixed : ∀ x ∈ t.operand, σ x = x) : t.mapOperand σ = t := by
  have same := mapOperand_comp (τ := id) (σ := id) fixed
  rwa [mapOperand_id] at same

namespace Procedure

variable {f h h' h₁ : Procedure} {g : FlowGraph} {root : ValueId → ValueId} {b : BlockId} {v : ValueId}

/-- Every value of the second procedure has a root among the values of the first one, and the second
procedure is the first one when everything is replaced by its root. Values that are not in the first
procedure are betas, with the roots of what they refine. -/
structure Rooted (f h : Procedure) (root : ValueId → ValueId) : Prop where
  entry : h.entry = f.entry
  count : f.values.size ≤ h.values.size
  fixed : ∀ v < f.values.size, root v = v
  values : ∀ v < f.values.size, (h.values[v]?).map (Value.mapOperands root) = f.values[v]?
  blocks : ∀ b : BlockId, (h.blocks[b]?).map (Block.reduce f.values.size root) = f.blocks[b]?
  betas : ∀ v o, f.values.size ≤ v → h.opcode? v = some o → ∃ x r, o = .beta x r ∧ root x = root v

namespace Rooted

/-- Values are their own roots. -/
theorem refl (s : f.Structured) : Rooted f f id where
  entry := rfl
  count := le_rfl
  fixed _ _ := rfl
  values v _ := by
    have same : Value.mapOperands id = id := by
      funext value
      simp [Value.mapOperands, Opcode.mapOperands_eq_rename, Opcode.rename_id]
    rw [same, Option.map_id_fun, id]
  blocks b := by
    cases found : f.blocks[b]? with
    | none => rfl
    | some block =>
      have all : block.instrs.filter (fun v => decide (v < f.values.size)) = block.instrs :=
        List.filter_eq_self.mpr fun v hv => decide_eq_true (s.lt_size_of_mem
          (List.mem_append_right _ (mem_instrsAt.mpr ⟨block, found, hv⟩)))
      rw [Option.map_some, Block.reduce, all, Terminator.mapOperand_id]
  betas v o late code := absurd (lt_size_of_opcode? code) (Nat.not_lt.mpr late)

/-- The code of an old value, read off from its present code. -/
theorem opcode? (r : Rooted f h root) (old : v < f.values.size) :
    f.opcode? v = (h.opcode? v).map (Opcode.mapOperands root) := by
  rw [Procedure.opcode?, Procedure.opcode?, ← r.values v old, Option.map_map, Option.map_map]
  rfl

/-- The old instructions of a block are those that stand there now and are not new. -/
theorem instrsAt (r : Rooted f h root) (b : BlockId) :
    f.instrsAt b = (h.instrsAt b).filter fun v => decide (v < f.values.size) := by
  rw [Procedure.instrsAt, Procedure.instrsAt, ← r.blocks b]
  cases h.blocks[b]? <;> rfl

/-- One more beta at the top of a block, with uses redirected to it. -/
theorem place {placed : Procedure} {x : ValueId} {range : Range} {type : ValueType}
    (r : Rooted f h root) (s : h.Structured) (exists_x : x < h.values.size)
    (place : h.Placed placed b [] (h.instrsAt b) (.beta x range) type)
    (redirects : Redirects g x h.values.size b placed h') :
    Rooted f h' (Function.update root h.values.size (root x)) := by
  obtain ⟨ρ, π, τ, renamed, hρ, hπ, hτ⟩ := redirects
  have old : ∀ y < h.values.size, Function.update root h.values.size (root x) y = root y :=
    fun y hy => Function.update_of_ne (Nat.ne_of_lt hy) _ _
  -- A use that is redirected to the beta goes on having the root that it had.
  have moved : ∀ {y z}, y < h.values.size → z = y ∨ y = x ∧ z = h.values.size →
      Function.update root h.values.size (root x) z = root y := by
    rintro y z hy (rfl | ⟨rfl, rfl⟩)
    · exact old z hy
    · rw [Function.update_self]
  refine ⟨(renamed.entry.trans place.entry).trans r.entry, ?_, fun v hv => ?_, fun v hv => ?_,
    fun c => ?_, fun v o late code => ?_⟩
  · rw [renamed.layout.valueCount, place.valueCount]
    exact r.count.trans (Nat.le_succ _)
  · rw [old v (hv.trans_le r.count), r.fixed v hv]
  · have before := hv.trans_le r.count
    rw [← r.values v hv, renamed.values, place.getElem?_values, if_neg (Nat.ne_of_lt before),
      Option.map_map]
    refine Option.map_congr fun value found => ?_
    have exist := s.operands v value.opcode (opcode?_of_value found)
    rw [Function.comp_apply, Value.mapOperands, Value.mapOperands, Opcode.mapOperands_rename
      (fun y hy => moved (exist y hy) ((hρ v y).imp_right And.left))
      (fun y hy q => moved (exist y hy) ((hπ v q y).imp_right And.left))]
  · rw [← r.blocks c, renamed.blocks, place.blocks, Option.map_map, Option.map_map]
    refine Option.map_congr fun block found => ?_
    have exist : ∀ y ∈ block.terminator.operand, y < h.values.size :=
      s.results c block.terminator (by rw [Procedure.terminator?, found, Option.map_some])
    have same := Terminator.mapOperand_comp (σ := root) fun y hy =>
      moved (exist y hy) ((hτ c y).imp_right And.left)
    rw [Function.comp_apply, Function.comp_apply]
    split
    · next own =>
      subst own
      have instrs : h.instrsAt c = block.instrs := by rw [Procedure.instrsAt, found]; rfl
      rw [Block.reduce, Block.reduce, List.nil_append, List.filter_cons_of_neg (by simpa using r.count),
        instrs, same]
    · rw [Block.reduce, Block.reduce, same]
  · rw [renamed.opcode?, place.opcode?] at code
    split at code
    · next new =>
      subst new
      have own : ρ h.values.size x = x :=
        (hρ h.values.size x).resolve_right fun moved => moved.2.1 rfl
      refine ⟨x, range, ?_, by rw [Function.update_self, old x exists_x]⟩
      rw [Option.map_some, Option.some.injEq] at code
      rw [← code]
      show Opcode.beta (ρ h.values.size x) range = _
      rw [own]
    · obtain ⟨o', code', rfl⟩ := Option.map_eq_some_iff.mp code
      obtain ⟨y, range', rfl, same⟩ := r.betas v o' late code'
      have exist := s.operands v _ code' y (List.mem_singleton_self y)
      refine ⟨ρ v y, range', rfl, ?_⟩
      rw [moved exist ((hρ v y).imp_right And.left), old v (lt_size_of_opcode? code'), same]

/-- A beta less, with its uses moved to what it refines. -/
theorem collapse {v x : ValueId} {n : Nat} (r : Rooted f h root) (s : h.Structured)
    (hv : v ∈ h.instrsAt b) (late : f.values.size ≤ v) (same : root x = root v)
    (moved : h.moveUses v x = .ok (h₁, n)) (detached : h₁.detach v = .ok h') : Rooted f h' root := by
  have renamed := moveUses_spec s moved
  have home : h₁.home? v = some b := by rw [renamed.layout.home?, (s.instrs b v hv).2]
  have out := detach_spec home detached
  have kept : ∀ y, root (substitute v x y) = root y := by
    intro y
    rw [substitute]
    split
    · next own => rw [own, same]
    · rfl
  have kept' : ∀ (w : ValueId) y,
      root ((if w ∈ h.listed ∧ w ≠ x then substitute v x else id) y) = root y := by
    intro w y
    split
    · exact kept y
    · rfl
  have noPhi : ∀ c, ∀ p ∈ h.phisAt c, p ≠ v := by
    rintro c p hp rfl
    have kind := (s.phis c p hp).1
    rw [(s.instrs b p hv).1] at kind
    cases kind
  refine ⟨(out.entry.trans renamed.entry).trans r.entry, ?_, r.fixed, fun w hw => ?_, fun c => ?_,
    fun w o late code => ?_⟩
  · rw [out.valueCount, renamed.layout.valueCount]
    exact r.count
  · rw [← r.values w hw, out.values, renamed.values, Option.map_map, Option.map_map]
    refine Option.map_congr fun value _ => ?_
    rw [Function.comp_apply, Function.comp_apply, if_neg (Nat.ne_of_lt (hw.trans_le late)),
      Value.mapOperands, Value.mapOperands,
      Opcode.mapOperands_rename (fun y _ => kept' w y) fun y _ _ => kept' w y]
  · rw [← r.blocks c, out.blocks, renamed.blocks, Option.map_map, Option.map_map]
    refine Option.map_congr fun block found => ?_
    have terminator := Terminator.mapOperand_comp (t := block.terminator) fun y _ => kept y
    rw [Function.comp_apply, Function.comp_apply]
    split
    · have phis : block.phis.filter (· != v) = block.phis :=
        List.filter_eq_self.mpr fun p hp => by
          simpa using noPhi c p (mem_phisAt.mpr ⟨block, found, hp⟩)
      have instrs : (block.instrs.filter (· != v)).filter (fun w => decide (w < f.values.size)) =
          block.instrs.filter fun w => decide (w < f.values.size) := by
        rw [List.filter_filter]
        refine List.filter_congr fun w _ => ?_
        by_cases old : w < f.values.size
        · have ne : w ≠ v := Nat.ne_of_lt (old.trans_le late)
          simp [old, ne]
        · simp [old]
      rw [Block.reduce, Block.reduce, phis, instrs, terminator]
    · rw [Block.reduce, Block.reduce, terminator]
  · rw [out.opcode?, renamed.opcode?] at code
    obtain ⟨o', code', rfl⟩ := Option.map_eq_some_iff.mp code
    obtain ⟨y, range, rfl, sameRoot⟩ := r.betas w o' late code'
    exact ⟨_, range, rfl, (kept' w y).trans sameRoot⟩

end Rooted

/-! ### Moving uses and detaching succeed -/

/-- In a structured procedure the uses of a value can be moved. -/
theorem moveUses_succeeds (s : h.Structured) (old new : ValueId) :
    ∃ h₁ n, h.moveUses old new = .ok (h₁, n) := by
  refine moveUses_defined fun v hv => ?_
  obtain ⟨b, mem⟩ := mem_listed.mp hv
  exact s.lt_size_of_mem mem

/-- An instruction of a block can be detached. -/
theorem detach_succeeds (s : h.Structured) (hv : v ∈ h.instrsAt b) :
    ∃ h', h.detach v = .ok h' := by
  have home := (s.instrs b v hv).2
  obtain ⟨block, found, -⟩ := mem_instrsAt.mp hv
  obtain ⟨value, exists_v, stands⟩ := Option.bind_eq_some_iff.mp home
  rw [detach, value_eq_ok.mpr exists_v]
  simp only [bind, Except.bind, stands, block_eq_ok.mpr found]
  exact ⟨_, rfl⟩

/-! ### Taking out the betas one by one -/

/-- No phi is one of its own inputs. -/
def PhisReadOthers (f : Procedure) : Prop :=
  ∀ v inputs, f.opcode? v = some (.phi inputs) → v ∉ inputs.map Prod.fst

instance : Decidable f.PhisReadOthers :=
  decidable_of_iff (∀ v < f.values.size, ∀ o ∈ f.opcode? v, o.isPhi = true → v ∉ o.operands)
    ⟨fun reads v _ code => reads v (lt_size_of_opcode? code) _ code rfl, fun reads v _ o code kind => by
      cases o with
      | phi inputs => exact reads v inputs code
      | _ => cases kind⟩

/-- On the way back: the given betas are those that are still there, they stand in reachable code,
and besides them only old values are read. -/
structure Unwinding (f : Procedure) (g : FlowGraph) (root : ValueId → ValueId) (betas : List ValueId)
    (h : Procedure) : Prop where
  rooted : Rooted f h root
  consistent : h.Consistent g
  nodup : betas.Nodup
  late : ∀ v ∈ betas, f.values.size ≤ v
  reached : ∀ v ∈ betas, ∃ b ∈ g.order, v ∈ h.instrsAt b
  listed : ∀ b, ∀ v ∈ h.instrsAt b, v < f.values.size ∨ v ∈ betas
  reads : ∀ v o, v < f.values.size ∨ v ∈ betas → h.opcode? v = some o → ∀ x ∈ o.operands,
    x < f.values.size ∨ x ∈ betas ∧ v ∈ h.listed
  results : ∀ b t, h.terminator? b = some t → ∀ x ∈ t.operand, x < f.values.size ∨ x ∈ betas

namespace Unwinding

variable {betas : List ValueId} {x : ValueId} {r : Range}

/-- What a beta refines does not read the beta. -/
theorem not_mem_operands (u : f.Unwinding g root betas h) (others : f.PhisReadOthers)
    (hv : v ∈ betas) (op : h.opcode? v = some (.beta x r)) {o : Opcode}
    (code : h.opcode? x = some o) : v ∉ o.operands := by
  have wf := u.consistent.wellFormed
  have d := u.consistent.describes
  have reads : x ∈ (Opcode.beta x r).operands := List.mem_singleton_self x
  obtain ⟨b, hb, mem⟩ := u.reached v hv
  obtain ⟨home, stands, dominates⟩ : h.DefinedAtEnd g x b := by
    obtain ⟨before, after, split⟩ := List.append_of_mem mem
    exact ((wf.uses b hb).reads before v after split _ op x reads).definedAtEnd d hb
  have hhome : home ∈ g.order := d.mem_order_of_above hb (d.dominates_iff.mp dominates).2
  cases kind : o.isPhi with
  | false =>
    have instr := wf.structured.mem_instrsAt_of_home u.consistent.listed stands code kind
    exact wf.not_mem_operands d hb hhome mem instr op code reads
  | true =>
    intro own
    have old : x < f.values.size := by
      by_contra late
      obtain ⟨_, _, rfl, -⟩ := u.rooted.betas x o (Nat.le_of_not_lt late) code
      cases kind
    obtain ⟨_, _, same, sameRoot⟩ := u.rooted.betas v _ (u.late v hv) op
    obtain ⟨rfl, -⟩ := Opcode.beta.inj same
    cases o with
    | phi inputs =>
      -- The phi would have its own root among the roots of its inputs.
      have before := u.rooted.opcode? old
      rw [code, Option.map_some] at before
      refine others x _ before ?_
      rw [List.map_map, List.mem_map]
      obtain ⟨i, hi, rfl⟩ := List.mem_map.mp own
      refine ⟨i, hi, ?_⟩
      show root i.1 = x
      rw [← sameRoot, u.rooted.fixed x old]
    | _ => cases kind

/-- The next beta is taken out. -/
theorem step (u : f.Unwinding g root (v :: betas) h) (others : f.PhisReadOthers)
    (op : h.opcode? v = some (.beta x r)) : ∃ h₁ n h', h.moveUses v x = .ok (h₁, n) ∧
      h₁.detach v = .ok h' ∧ h'.values.size = h.values.size ∧ f.Unwinding g root betas h' := by
  have wf := u.consistent.wellFormed
  have s := wf.structured
  have d := u.consistent.describes
  have own : v ∈ v :: betas := List.mem_cons_self
  obtain ⟨fresh, nodup⟩ := List.nodup_cons.mp u.nodup
  obtain ⟨b, hb, hv⟩ := u.reached v own
  have exists_x : x < h.values.size := s.operands v _ op x (List.mem_singleton_self x)
  have ne : x ≠ v := by
    rintro rfl
    exact u.not_mem_operands others own op op (List.mem_singleton_self x)
  obtain ⟨h₁, n, moved⟩ := moveUses_succeeds s v x
  have renamed := moveUses_spec s moved
  have layout := renamed.layout
  have s₁ := s.moveUses exists_x moved
  have home : h₁.home? v = some b := by rw [layout.home?, (s.instrs b v hv).2]
  obtain ⟨h', detached⟩ := detach_succeeds s₁ (layout.instrsAt b ▸ hv)
  have out := detach_spec home detached
  have instrs := (collapsed s hv exists_x moved detached).instrsAt
  have old_ne : ∀ {w}, w < f.values.size → w ≠ v := fun {w} old =>
    Nat.ne_of_lt (old.trans_le (u.late v own))
  -- What is read instead of the beta is old, or a beta that is still there.
  have left : ∀ {y}, y < f.values.size ∨ y ∈ v :: betas → y ≠ v → y < f.values.size ∨ y ∈ betas :=
    fun {y} mem other => mem.imp_right fun mem => (List.mem_cons.mp mem).resolve_left other
  have input : x < f.values.size ∨ x ∈ betas :=
    left ((u.reads v _ (.inr own) op x (List.mem_singleton_self x)).imp_right And.left) ne
  have renames : ∀ {y}, y < f.values.size ∨ y ∈ v :: betas →
      substitute v x y < f.values.size ∨ substitute v x y ∈ betas := by
    intro y mem
    by_cases isBeta : y = v
    · simpa only [substitute, isBeta, if_true] using input
    · simpa only [substitute, isBeta, if_false] using left mem isBeta
  refine ⟨h₁, n, h', moved, detached, out.valueCount.trans layout.valueCount, ?_⟩
  refine ⟨u.rooted.collapse s hv (u.late v own) ?_ moved detached, ?_, nodup,
    fun w hw => u.late w (List.mem_cons_of_mem _ hw), fun w hw => ?_, fun c w hw => ?_,
    fun w o kept code y hy => ?_, fun c t term y hy => ?_⟩
  · obtain ⟨_, _, same, sameRoot⟩ := u.rooted.betas v _ (u.late v own) op
    obtain ⟨rfl, -⟩ := Opcode.beta.inj same
    exact sameRoot
  · refine ⟨(layout.flow.trans out.flow).build.trans u.consistent.built, ?_,
      out.allListed s₁ home (layout.allListed u.consistent.listed)⟩
    refine (wf.collapse d hv op (List.mem_singleton_self x) moved detached).resolve_right ?_
    rintro ⟨-, inputs, code, mem⟩
    exact u.not_mem_operands others own op code mem
  · obtain ⟨c, hc, mem⟩ := u.reached w (List.mem_cons_of_mem _ hw)
    have other : w ≠ v := fun same => fresh (same ▸ hw)
    exact ⟨c, hc, by rw [instrs]; exact List.mem_filter.mpr ⟨mem, by simpa using other⟩⟩
  · rw [instrs, List.mem_filter] at hw
    exact left (u.listed c w hw.1) (by simpa using hw.2)
  · have other : w ≠ v := kept.elim old_ne fun hw same => fresh (same ▸ hw)
    rw [out.opcode?, renamed.opcode?] at code
    obtain ⟨o', code', rfl⟩ := Option.map_eq_some_iff.mp code
    have before := u.reads w o' (kept.imp_right (List.mem_cons_of_mem _)) code'
    have still : w ∈ h.listed → w ∈ h'.listed := by
      intro mem
      obtain ⟨c, mem⟩ := mem_listed.mp mem
      refine mem_listed.mpr ⟨c, ?_⟩
      rw [out.membersAt s₁ home, layout.membersAt]
      exact List.mem_filter.mpr ⟨mem, by simpa using other⟩
    rw [← Opcode.mapOperands_eq_rename] at hy
    split at hy
    · next both =>
      rw [Opcode.operands_mapOperands] at hy
      obtain ⟨y', hy', rfl⟩ := List.mem_map.mp hy
      exact (renames ((before y' hy').imp_right And.left)).imp_right fun mem => ⟨mem, still both.1⟩
    · next skipped =>
      -- A value is left out if it is not listed, or if it is what the beta refines.
      rw [Opcode.mapOperands_eq_rename, Opcode.rename_id] at hy
      rcases before y hy with old | ⟨mem, isListed⟩
      · exact .inl old
      · obtain rfl : w = x := by
          by_contra differs
          exact skipped ⟨isListed, differs⟩
        refine .inr ⟨(List.mem_cons.mp mem).resolve_left ?_, still isListed⟩
        rintro rfl
        exact u.not_mem_operands others own op code' hy
  · rw [out.terminator?, renamed.terminator?] at term
    obtain ⟨t', term', rfl⟩ := Option.map_eq_some_iff.mp term
    rw [Terminator.operand_mapOperand] at hy
    obtain ⟨y', hy', rfl⟩ := Option.map_eq_some_iff.mp hy
    exact renames (u.results c t' term' y' hy')

/-- When no beta is left, all members of blocks are old. -/
theorem lt_size_of_mem (u : f.Unwinding g root [] h) (mem : v ∈ h.membersAt b) :
    v < f.values.size := by
  rcases List.mem_append.mp mem with phi | instr
  · by_contra late
    obtain ⟨inputs, code⟩ := exists_inputs (u.consistent.wellFormed.structured.phis b v phi).1
    obtain ⟨_, _, same, -⟩ := u.rooted.betas v _ (Nat.le_of_not_lt late) code
    cases same
  · simpa using u.listed b v instr

/-- When no beta is left, the procedure has the blocks of the original and all its values. -/
theorem restores (u : f.Unwinding g root [] h) :
    h.blocks = f.blocks ∧ ∀ v < f.values.size, h.values[v]? = f.values[v]? := by
  constructor
  · refine Array.ext_getElem? fun b => ?_
    rw [← u.rooted.blocks b]
    cases found : h.blocks[b]? with
    | none => rfl
    | some block =>
      have instrs : block.instrs.filter (fun v => decide (v < f.values.size)) = block.instrs :=
        List.filter_eq_self.mpr fun v hv =>
          decide_eq_true (u.lt_size_of_mem
            (List.mem_append_right _ (mem_instrsAt.mpr ⟨block, found, hv⟩)))
      have terminator : block.terminator.mapOperand root = block.terminator :=
        Terminator.mapOperand_eq_self fun x hx => u.rooted.fixed x (by
          simpa using u.results b _ (by rw [terminator?, found, Option.map_some]) x hx)
      rw [Option.map_some, Block.reduce, instrs, terminator]
  · intro v hv
    rw [← u.rooted.values v hv]
    cases found : h.values[v]? with
    | none => rfl
    | some value =>
      have opcode : value.opcode.mapOperands root = value.opcode :=
        Opcode.mapOperands_eq_self fun x hx => u.rooted.fixed x (by
          simpa using u.reads v _ (.inl hv) (opcode?_of_value found) x hx)
      rw [Option.map_some, Value.mapOperands, opcode]

end Unwinding

/-- Listing uses succeeds. -/
theorem operandUses_yields {used : ValueId → Prop} {l : List ValueId}
    (reads : ∀ v ∈ l, ∃ o, h.opcode? v = some o ∧ ∀ x ∈ o.operands, used x) :
    Yields (h.operandUses l) fun uses => ∀ use ∈ uses, used use.1 := by
  induction l with
  | nil => exact .ok (by simp)
  | cons v rest ih =>
    rw [List.forall_mem_cons] at reads
    obtain ⟨o, code, own⟩ := reads.1
    rw [operandUses, opcode_eq_ok.mpr code]
    refine (ih reads.2).bind fun others all => .ok ?_
    simp only [List.forall_mem_append, List.forall_mem_map]
    refine ⟨fun use mem => own use.1 ?_, all⟩
    exact (List.mem_zipIdx_iff_getElem?.mp mem) |> List.mem_of_getElem?

/-- The uses of a procedure are uses of what its listed values and its terminators read. -/
theorem uses_yields {used : ValueId → Prop}
    (reads : ∀ v ∈ h.listed, ∃ o, h.opcode? v = some o ∧ ∀ x ∈ o.operands, used x)
    (results : ∀ b t, h.terminator? b = some t → ∀ x ∈ t.operand, used x) :
    Yields h.uses fun uses => ∀ use ∈ uses, used use.1 := by
  have blocks : ∀ l : List Block, (∀ block ∈ l, block ∈ h.blocks) →
      Yields (h.blockUses l) fun uses => ∀ use ∈ uses, used use.1 := by
    intro l
    induction l with
    | nil => exact fun _ => .ok (by simp)
    | cons block rest ih =>
      intro mem
      rw [List.forall_mem_cons] at mem
      have members : ∀ v ∈ block.members, v ∈ h.listed := fun v hv =>
        List.mem_flatMap.mpr ⟨block, Array.mem_toList_iff.mpr mem.1, hv⟩
      obtain ⟨b, found⟩ := Array.mem_iff_getElem?.mp mem.1
      refine (operandUses_yields fun v hv => reads v (members v hv)).bind fun operands own => ?_
      refine (ih mem.2).bind fun others all => .ok ?_
      simp only [List.forall_mem_append, List.forall_mem_map]
      refine ⟨⟨own, fun x hx => results b block.terminator ?_ x ?_⟩, all⟩
      · rw [terminator?, found, Option.map_some]
      · simpa using hx
  exact blocks _ fun block mem => Array.mem_toList_iff.mp mem

end Procedure

namespace Session

open Procedure

variable {s t u : Session} {f : Procedure}

/-- What the insertion of betas has done: every new value is a beta that stands in reachable code, and
was counted; values that stand nowhere are as they were. -/
structure Inserted (s t : Session) : Prop where
  consistent : t.procedure.Consistent t.graph
  graph : t.graph = s.graph
  rooted : ∃ root, s.procedure.Rooted t.procedure root
  reached : ∀ v < t.procedure.values.size, s.procedure.values.size ≤ v →
    ∃ b ∈ s.graph.order, v ∈ t.procedure.instrsAt b
  apart : ∀ v < s.procedure.values.size, s.procedure.home? v = none →
    t.procedure.values[v]? = s.procedure.values[v]?
  inserted : t.stats.betasInserted + s.procedure.values.size =
    s.stats.betasInserted + t.procedure.values.size
  removed : t.stats.betasRemoved = s.stats.betasRemoved

namespace Inserted

/-- Nothing was inserted. -/
theorem refl (consistent : s.procedure.Consistent s.graph) : s.Inserted s where
  consistent := consistent
  graph := rfl
  rooted := ⟨id, .refl consistent.wellFormed.structured⟩
  reached _ exist late := absurd exist (Nat.not_lt.mpr late)
  apart _ _ _ := rfl
  inserted := rfl
  removed := rfl

/-- One more beta. -/
theorem place {b : BlockId} {input : ValueId} {range : Range} (h : s.Inserted t)
    (places : t.PlacesBeta u b input range) : s.Inserted u := by
  have structured := h.consistent.wellFormed.structured
  obtain ⟨root, rooted⟩ := h.rooted
  obtain ⟨home, stands, -, dominates⟩ := places.above
  obtain ⟨placed, type, -, place, redirects⟩ := places.edit
  have size : u.procedure.values.size = t.procedure.values.size + 1 :=
    redirects.layout.valueCount.trans place.valueCount
  refine ⟨places.consistent h.consistent, places.graph.trans h.graph,
    ⟨_, rooted.place structured (lt_size_of_home? stands) place redirects⟩, fun v exist late => ?_,
    fun v old detached => ?_, ?_, ?_⟩
  · rw [size, Nat.lt_succ_iff_lt_or_eq] at exist
    rcases exist with exist | rfl
    · obtain ⟨c, hc, mem⟩ := h.reached v exist late
      refine ⟨c, hc, ?_⟩
      rw [redirects.layout.instrsAt, place.instrsAt]
      split
      · next own => exact List.mem_cons_of_mem _ (own ▸ mem)
      · exact mem
    · refine ⟨b, h.graph ▸ (h.consistent.describes.dominates_iff.mp dominates).1, ?_⟩
      rw [redirects.layout.instrsAt, place.instrsAt, if_pos rfl]
      exact List.mem_cons_self
  · have before := h.apart v old detached
    have nowhere : t.procedure.home? v = none := by rw [home?, before, ← home?, detached]
    have new : v ≠ t.procedure.values.size := Nat.ne_of_lt (old.trans_le rooted.count)
    obtain ⟨ρ, π, τ, renamed, hρ, hπ, -⟩ := redirects
    have unlisted : ∀ c, v ∉ placed.membersAt c := by
      intro c mem
      have first : placed.Structured := structured.place place rfl
        (by simpa [Opcode.operands] using lt_size_of_home? stands)
      have home := first.home_of_mem mem
      rw [place.home?, if_neg new, nowhere] at home
      cases home
    have own : ρ v = id := by
      funext x
      refine (hρ v x).resolve_right ?_
      rintro ⟨-, -, c, mem, -⟩
      exact unlisted c (List.mem_append_right _ mem)
    have own' : π v = fun _ => id := by
      funext q x
      refine (hπ v q x).resolve_right ?_
      rintro ⟨-, -, c, mem⟩
      exact unlisted c (List.mem_append_left _ mem)
    rw [renamed.values, place.getElem?_values, if_neg new, before, own, own']
    simp only [Opcode.rename_id, Option.map_id']
  · rw [places.stats, size]
    have := h.inserted
    simp only
    omega
  · rw [places.stats]
    exact h.removed

/-- A new value is a beta that is still listed, and every listed beta is new. -/
theorem mem_betas_iff (h : s.Inserted t) (free : s.procedure.BetaFree) {v : ValueId} :
    v ∈ (t.procedure.blocks.toList.flatMap Block.instrs).filter t.procedure.isBeta ↔
      s.procedure.values.size ≤ v ∧ v < t.procedure.values.size := by
  obtain ⟨root, rooted⟩ := h.rooted
  have structured := h.consistent.wellFormed.structured
  rw [List.mem_filter, mem_flatMap_instrs]
  constructor
  · rintro ⟨⟨b, mem⟩, beta⟩
    refine ⟨Nat.le_of_not_lt fun old => ?_, structured.lt_size_of_mem (List.mem_append_right _ mem)⟩
    have listed : v ∈ s.procedure.instrsAt b := by
      rw [rooted.instrsAt]
      exact List.mem_filter.mpr ⟨mem, decide_eq_true old⟩
    have none := free b v listed
    rw [isBeta, rooted.opcode? old, Option.any_map] at none
    simp only [Opcode.mapOperands_eq_rename, Opcode.isBeta_rename] at none
    rw [isBeta, none] at beta
    cases beta
  · rintro ⟨late, exist⟩
    obtain ⟨b, -, mem⟩ := h.reached v exist late
    refine ⟨⟨b, mem⟩, ?_⟩
    have code := opcode?_of_value (Array.getElem?_eq_getElem exist)
    obtain ⟨x, r, beta, -⟩ := rooted.betas v _ late code
    rw [isBeta, code, beta]
    rfl

/-- The way back starts from the inserted betas. -/
theorem unwinding (h : s.Inserted t) (structured : s.procedure.Structured)
    (free : s.procedure.BetaFree) : ∃ root, s.procedure.Unwinding t.graph root
      ((t.procedure.blocks.toList.flatMap Block.instrs).filter t.procedure.isBeta) t.procedure := by
  obtain ⟨root, rooted⟩ := h.rooted
  have now := h.consistent.wellFormed.structured
  have iff := fun v => @mem_betas_iff _ _ h free v
  refine ⟨root, rooted, h.consistent, (nodup_flatMap_instrs now).filter _,
    fun v hv => ((iff v).mp hv).1, fun v hv => ?_, fun b v hv => ?_, fun v o kept code x hx => ?_,
    fun b term result x hx => ?_⟩
  · obtain ⟨late, exist⟩ := (iff v).mp hv
    exact h.graph ▸ h.reached v exist late
  · by_cases old : v < s.procedure.values.size
    · exact .inl old
    · exact .inr ((iff v).mpr ⟨Nat.le_of_not_lt old, now.lt_size_of_mem (List.mem_append_right _ hv)⟩)
  · by_cases old : x < s.procedure.values.size
    · exact .inl old
    · refine .inr ⟨(iff x).mpr ⟨Nat.le_of_not_lt old, now.operands v o code x hx⟩, ?_⟩
      rcases kept with kept | beta
      · -- A value that stands nowhere still reads what it read, which is old.
        have same := rooted.values v kept
        cases home : s.procedure.home? v with
        | none =>
          have code' : s.procedure.opcode? v = some o := by
            rw [opcode?, ← h.apart v kept home, ← opcode?, code]
          exact absurd (structured.operands v o code' x hx) old
        | some b =>
          have stands : t.procedure.home? v = some b := by
            rw [home?, ← same, Option.bind_map] at home
            exact home
          exact mem_listed.mpr ⟨b, h.consistent.listed v b stands⟩
      · obtain ⟨b, mem⟩ := mem_flatMap_instrs.mp (List.mem_of_mem_filter beta)
        exact mem_listed.mpr ⟨b, List.mem_append_right _ mem⟩
  · by_cases old : x < s.procedure.values.size
    · exact .inl old
    · exact .inr ((iff x).mpr ⟨Nat.le_of_not_lt old, now.results b term result x hx⟩)

/-- There are as many betas as were inserted. -/
theorem length_betas (h : s.Inserted t) (free : s.procedure.BetaFree) :
    s.stats.betasInserted +
      ((t.procedure.blocks.toList.flatMap Block.instrs).filter t.procedure.isBeta).length =
        t.stats.betasInserted := by
  obtain ⟨root, rooted⟩ := h.rooted
  have count := rooted.count
  have nodup := (nodup_flatMap_instrs h.consistent.wellFormed.structured).filter t.procedure.isBeta
  have same := (List.perm_ext_iff_of_nodup nodup (List.nodup_range' (s := s.procedure.values.size)
    (n := t.procedure.values.size - s.procedure.values.size))).mpr fun v => by
      rw [h.mem_betas_iff free, List.mem_range'_1, Nat.add_sub_of_le count]
  have counted := h.inserted
  rw [same.length_eq, List.length_range']
  omega

end Inserted

/-- Placing all betas inserts betas. -/
theorem addBetas_inserted {e : Option AnalysisError} (consistent : s.procedure.Consistent s.graph)
    (run : s.addBetas = .ok (t, e)) : s.Inserted t :=
  (addBetas_invariant s.Inserted (fun _ inserted => inserted.consistent)
    (fun _ _ _ _ _ inserted places => inserted.place places) (.refl consistent) run).1

/-- The betas among values that exist. -/
theorem betasAmong_eq {l : List ValueId} (exist : ∀ v ∈ l, v < f.values.size) :
    betasAmong f l = .ok (l.filter f.isBeta) := by
  induction l with
  | nil => rfl
  | cons v rest ih =>
    rw [List.forall_mem_cons] at exist
    have code := opcode?_of_value (Array.getElem?_eq_getElem exist.1)
    rw [betasAmong, opcode_eq_ok.mpr code, ih exist.2, List.filter_cons, Procedure.isBeta, code,
      Option.any_some]
    rfl

/-- Taking out the betas one by one leads back, and counts them. -/
theorem dropBetas_unwinds {root : ValueId → ValueId} {betas : List ValueId}
    (u : f.Unwinding s.graph root betas s.procedure) (others : f.PhisReadOthers) :
    ∃ t, dropBetas betas s = .ok t ∧ f.Unwinding s.graph root [] t.procedure ∧
      t.procedure.values.size = s.procedure.values.size ∧
      t.stats = { s.stats with betasRemoved := s.stats.betasRemoved + betas.length } := by
  induction betas generalizing s with
  | nil => exact ⟨s, rfl, u, rfl, rfl⟩
  | cons v rest ih =>
    obtain ⟨b, -, hv⟩ := u.reached v List.mem_cons_self
    have exist := u.consistent.wellFormed.structured.lt_size_of_mem (List.mem_append_right _ hv)
    have code := opcode?_of_value (Array.getElem?_eq_getElem exist)
    obtain ⟨x, r, beta, -⟩ := u.rooted.betas v _ (u.late v List.mem_cons_self) code
    rw [beta] at code
    obtain ⟨f₁, n, f₂, moved, detached, size, u'⟩ := u.step others code
    obtain ⟨t, run, done, size', stats⟩ := @ih { s with
      procedure := f₂, stats := { s.stats with betasRemoved := s.stats.betasRemoved + 1 } } u'
    refine ⟨t, ?_, done, size'.trans size, ?_⟩
    · rw [dropBetas, opcode_eq_ok.mpr code]
      simp only [bind, Except.bind, moved, detached]
      exact run
    · rw [stats, List.length_cons]
      simp only [Nat.add_assoc, Nat.add_comm 1]

/-- Removal of the betas after their insertion restores the procedure. The blocks are those of the
original, with all their lists and terminators, and so are all its values. What is left of the betas
are values that stand nowhere and are not used, and as many were removed as were inserted. -/
theorem removeBetas_restores {f : Procedure} {config : Config} (accepted : f.verify = .ok (.ok ()))
    (listed : f.AllListed) (free : f.BetaFree) (others : f.PhisReadOthers)
    (started : start f config = .ok s) (run : s.addBetas = .ok (t, none)) :
    ∃ u uses, t.removeBetas = .ok u ∧ u.procedure.entry = f.entry ∧
      u.procedure.blocks = f.blocks ∧ (∀ v < f.values.size, u.procedure.values[v]? = f.values[v]?) ∧
      (∀ v < u.procedure.values.size, f.values.size ≤ v →
        u.procedure.isBeta v = true ∧ u.procedure.home? v = none) ∧
      u.procedure.uses = .ok uses ∧ (∀ v, f.values.size ≤ v → usesOf uses v = []) ∧
      u.procedure.values.size = f.values.size + u.stats.betasInserted ∧
      u.stats.betasInserted = t.stats.betasInserted ∧
      u.stats.betasRemoved = u.stats.betasInserted := by
  obtain ⟨-, g, built, wf⟩ := verify_eq_ok.mp accepted
  obtain ⟨g', built', started⟩ := bind_eq_ok.mp started
  obtain rfl := Except.ok.inj (built.symm.trans built')
  obtain rfl := pure_eq_ok.mp started
  have inserted := addBetas_inserted ⟨built, wf, listed⟩ run
  obtain ⟨root, unwinding⟩ := inserted.unwinding wf.structured free
  obtain ⟨u, dropped, done, size, stats⟩ := dropBetas_unwinds unwinding others
  obtain ⟨blocks, values⟩ := done.restores
  have structured := done.consistent.wellFormed.structured
  have exist : ∀ v ∈ t.procedure.blocks.toList.flatMap Block.instrs, v < t.procedure.values.size :=
    fun v hv =>
      have ⟨_, mem⟩ := mem_flatMap_instrs.mp hv
      inserted.consistent.wellFormed.structured.lt_size_of_mem (List.mem_append_right _ mem)
  obtain ⟨uses, used, old⟩ : Yields u.procedure.uses fun uses => ∀ use ∈ uses, use.1 < f.values.size := by
    refine uses_yields (fun v hv => ?_) fun b term result x hx => by
      simpa using done.results b term result x hx
    obtain ⟨b, mem⟩ := mem_listed.mp hv
    have code := opcode?_of_value (Array.getElem?_eq_getElem (structured.lt_size_of_mem mem))
    exact ⟨_, code, fun x hx => by simpa using done.reads v _ (.inl (done.lt_size_of_mem mem)) code x hx⟩
  refine ⟨u, uses, ?_, done.rooted.entry, blocks, values, fun v exist late => ?_, used,
    fun v late => ?_, ?_, by rw [stats], ?_⟩
  · rw [removeBetas, betasAmong_eq exist]
    exact dropped
  · have code := opcode?_of_value (Array.getElem?_eq_getElem exist)
    obtain ⟨x, r, beta, -⟩ := done.rooted.betas v _ late code
    refine ⟨by rw [isBeta, code, beta]; rfl, ?_⟩
    cases home : u.procedure.home? v with
    | none => rfl
    | some b =>
      exact absurd (done.lt_size_of_mem (done.consistent.listed v b home)) (Nat.not_lt.mpr late)
  · rw [usesOf, List.map_eq_nil_iff, List.filter_eq_nil_iff]
    intro use mem own
    exact Nat.not_lt.mpr late (beq_iff_eq.mp own ▸ old use mem)
  · have counted := inserted.inserted
    rw [stats, size]
    simp only [Stats.none] at counted ⊢
    omega
  · have counted := inserted.length_betas free
    rw [stats, inserted.removed, ← counted]
    rfl

/-- Counts from its parameter to ten, but returns at once a number of at most three. -/
def countAboveThree : Procedure where
  name := "count"
  entry := 0
  blocks := #[⟨0, [], [0, 1, 2, 3], .goto 1, false⟩, ⟨1, [4], [5], .branch 5 2 5, false⟩,
    ⟨2, [], [6], .branch 6 3 4, false⟩, ⟨3, [], [7], .goto 1, false⟩,
    ⟨4, [], [], .exit (some 4), false⟩, ⟨5, [], [], .exit (some 4), false⟩]
  values := #[⟨0, .param 0, .int32, some 0, none⟩, ⟨1, .const (.int 10), .int32, some 0, none⟩,
    ⟨2, .const (.int 3), .int32, some 0, none⟩, ⟨3, .const (.int 1), .int32, some 0, none⟩,
    ⟨4, .phi [(0, 0), (7, 3)], .int32, some 1, none⟩, ⟨5, .compare .lt 4 1, .boolean, some 1, none⟩,
    ⟨6, .compare .gt 4 2, .boolean, some 2, none⟩,
    ⟨7, .binary .add 4 3 .checked, .int32, some 3, none⟩]
  unsupported := false
  reasons := []

/-- The two tests of `countAboveThree` give four betas, two of them of another beta, and the addition
reads through both. They can be taken out again without a trace. -/
theorem countAboveThree_restored :
    (countAboveThree.verify = .ok (.ok ()) ∧ countAboveThree.AllListed ∧ countAboveThree.BetaFree ∧
      countAboveThree.PhisReadOthers) ∧
    ∃ s t u, start countAboveThree .standard = .ok s ∧ s.addBetas = .ok (t, none) ∧
      t.procedure.opcode? 7 = some (.binary .add 11 3 .checked) ∧ t.removeBetas = .ok u ∧
      u.stats.betasInserted = 4 ∧ u.stats.betasRemoved = 4 ∧
      u.procedure.blocks = countAboveThree.blocks ∧
      u.procedure.opcode? 7 = some (.binary .add 4 3 .checked) := by
  have accepted : countAboveThree.verify = .ok (.ok ()) := by decide +kernel
  have listed : countAboveThree.AllListed := by decide +kernel
  have free : countAboveThree.BetaFree := strayBeta?_eq_none.mp (by decide +kernel)
  have others : countAboveThree.PhisReadOthers := by decide +kernel
  have betas : (fun r : StageResult => (r.2.isNone, r.1.stats.betasInserted,
      r.1.procedure.opcode? 7)) <$> (start countAboveThree .standard >>= addBetas) =
        .ok (true, 4, some (.binary .add 11 3 .checked)) := by decide +kernel
  obtain ⟨⟨t, e⟩, ran, computed⟩ := map_eq_ok.mp betas
  obtain ⟨s, started, ran⟩ := bind_eq_ok.mp ran
  simp only [Prod.mk.injEq, Option.isNone_iff_eq_none] at computed
  obtain ⟨rfl, count, reads⟩ := computed
  obtain ⟨u, uses, removed, -, blocks, values, -, -, -, -, inserted, same⟩ :=
    removeBetas_restores accepted listed free others started ran
  refine ⟨⟨accepted, listed, free, others⟩, s, t, u, started, ran, reads, removed,
    inserted.trans count, same.trans (inserted.trans count), blocks, ?_⟩
  rw [opcode?, values 7 (by decide)]
  rfl

end Session

end Rangefinder
