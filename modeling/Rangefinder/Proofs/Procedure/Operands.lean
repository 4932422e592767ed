import Mathlib.Tactic.Set
import Rangefinder.Proofs.Outcome

/-!
# Operands one by one

A procedure's uses are read off the lists of operands, and they are moved by going through the operands
one by one with an action that may replace them and count what it replaces. The two agree: going through
an opcode acts on exactly what the opcode lists, in that order, and leaves its shape alone; and an opcode
is its shape together with what it reads. So moving uses within an opcode renames its operands and counts
the old value among them.

Uses are moved block by block, operands first. `moveUses_eq` puts this in a form that is easier to reason
about: first the operands of all listed values are renamed, then all terminators.
-/

namespace Rangefinder

/-- The opcode with what it reads left blank. -/
def Opcode.shape (o : Opcode) : Opcode := o.mapOperands fun _ => 0

/-- The terminator with what it reads left blank. -/
def Terminator.shape (t : Terminator) : Terminator := t.mapOperand fun _ => 0

/-- The block with the value that its terminator reads renamed. -/
def Block.mapOperand (ρ : ValueId → ValueId) (block : Block) : Block :=
  { block with terminator := block.terminator.mapOperand ρ }

/-! ### Actions on operands -/

section Actions

variable {m : Type → Type} [Monad m] [LawfulMonad m] (act : ValueId → m ValueId)

/-- Acting on the values of inputs acts on the list of these values. -/
theorem fst_mapM_inputs (inputs : List (ValueId × BlockId)) :
    List.map Prod.fst <$> inputs.mapM (fun input => return (← act input.1, input.2)) =
      (inputs.map Prod.fst).mapM act := by
  induction inputs with
  | nil => simp
  | cons input rest ih =>
    rw [List.map_cons, List.mapM_cons, List.mapM_cons, ← ih]
    simp

/-- Going through an opcode acts on the operands that it lists. -/
theorem Opcode.operands_mapOperandsM (o : Opcode) :
    operands <$> o.mapOperandsM act = o.operands.mapM act := by
  cases o with
  | phi inputs =>
    rw [operands, ← fst_mapM_inputs]
    simp [mapOperandsM, operands]
  | _ => simp [mapOperandsM, operands]

/-- Going through a terminator acts on the operand that it has. -/
theorem Terminator.operand_mapOperandM (t : Terminator) :
    operand <$> t.mapOperandM act = t.operand.mapM act := by
  cases t with
  | exit result => cases result <;> simp [mapOperandM, operand]
  | _ => simp [mapOperandM, operand]

end Actions

section States

variable {σ α β γ : Type} {act : α → StateM σ β}

/-- Actions run one after the other. -/
theorem run_mapM_cons (a : α) (rest : List α) (s : σ) :
    ((a :: rest).mapM act).run s =
      (((act a).run s).1 :: ((rest.mapM act).run ((act a).run s).2).1,
        ((rest.mapM act).run ((act a).run s).2).2) := by
  rw [List.mapM_cons]
  rfl

/-- What every action keeps of the element that it acts on is kept of the list. -/
theorem map_run_mapM {view : β → γ} {view' : α → γ} (each : ∀ a s, view ((act a).run s).1 = view' a)
    (l : List α) (s : σ) : ((l.mapM act).run s).1.map view = l.map view' := by
  induction l generalizing s with
  | nil => rfl
  | cons a rest ih => rw [run_mapM_cons, List.map_cons, List.map_cons, each, ih]

end States

namespace Opcode

variable {o o' : Opcode}

/-- Going through an opcode changes nothing but its operands. -/
theorem shape_run_mapOperandsM {σ : Type} (act : ValueId → StateM σ ValueId) (o : Opcode) (s : σ) :
    ((o.mapOperandsM act).run s).1.shape = o.shape := by
  cases o with
  | phi inputs => exact congrArg phi (map_run_mapM (fun _ _ => rfl) inputs s)
  | call callee args => exact congrArg (call callee) (map_run_mapM (fun _ _ => rfl) args s)
  | _ => rfl

/-- Inputs are the blocks that they come from together with their values. -/
theorem inputs_eq {inputs inputs' : List (ValueId × BlockId)}
    (sources : inputs.map Prod.snd = inputs'.map Prod.snd)
    (reads : inputs.map Prod.fst = inputs'.map Prod.fst) : inputs = inputs' := by
  rw [← List.zip_unzip inputs, ← List.zip_unzip inputs']
  simp [reads, sources]

/-- An opcode is its shape together with what it reads. -/
theorem eq_of_shape (same : o.shape = o'.shape) (reads : o.operands = o'.operands) : o = o' := by
  cases o <;> cases o' <;> simp only [shape, mapOperands, reduceCtorEq] at same
  case phi.phi inputs inputs' =>
    have sources := congrArg (List.map Prod.snd) (phi.inj same)
    rw [List.map_map, List.map_map] at sources
    rw [inputs_eq sources reads]
  all_goals simp_all [operands]

/-- The shape is kept. -/
theorem shape_mapOperands (ρ : ValueId → ValueId) : (o.mapOperands ρ).shape = o.shape := by
  cases o with
  | phi inputs =>
    rw [mapOperands, shape, mapOperands, List.map_map]
    rfl
  | call callee args =>
    rw [mapOperands, shape, mapOperands, List.map_map]
    rfl
  | _ => rfl

end Opcode

/-- The shape is kept. -/
theorem Terminator.shape_mapOperand {t : Terminator} {τ : ValueId → ValueId} :
    (t.mapOperand τ).shape = t.shape := by
  cases t with
  | exit result => cases result <;> rfl
  | _ => rfl

/-! ### Moving uses -/

namespace Procedure

variable {f : Procedure} {old new : ValueId} {n : Nat}

/-- One use is moved. -/
theorem run_moveUse (x : ValueId) :
    (moveUse old new x).run n = (substitute old new x, n + [x].count old) := by
  by_cases own : x = old
  · rw [moveUse, substitute, if_pos own, if_pos own, own, List.count_singleton_self]
    rfl
  · rw [moveUse, substitute, if_neg own, if_neg own, List.count_eq_zero.mpr (by simpa [eq_comm] using own)]
    rfl

/-- Moving the uses in a list renames the value in it and counts it. -/
theorem run_mapM_moveUse (l : List ValueId) :
    (l.mapM (moveUse old new)).run n = (l.map (substitute old new), n + l.count old) := by
  induction l generalizing n with
  | nil => rfl
  | cons x rest ih =>
    have both : ([x] ++ rest).count old = [x].count old + rest.count old := List.count_append
    rw [List.singleton_append] at both
    rw [run_mapM_cons, run_moveUse, ih, both, Nat.add_assoc, List.map_cons]

/-- Moving the uses in an opcode renames the value among the operands and counts it there. -/
theorem run_mapOperandsM_moveUse (o : Opcode) :
    (o.mapOperandsM (moveUse old new)).run n =
      (o.mapOperands (substitute old new), n + o.operands.count old) := by
  have acted : (((o.mapOperandsM (moveUse old new)).run n).1.operands,
      ((o.mapOperandsM (moveUse old new)).run n).2) =
        (o.operands.map (substitute old new), n + o.operands.count old) := by
    rw [← run_mapM_moveUse, ← Opcode.operands_mapOperandsM]
    rfl
  obtain ⟨reads, counted⟩ := Prod.mk.inj acted
  refine Prod.ext (Opcode.eq_of_shape ?_ ?_) counted
  · rw [Opcode.shape_run_mapOperandsM, Opcode.shape_mapOperands]
  · rw [reads, Opcode.operands_mapOperands]

/-- The operand is moved. -/
theorem run_mapOperandM_moveUse (t : Terminator) :
    (t.mapOperandM (moveUse old new)).run n =
      (t.mapOperand (substitute old new), n + t.operand.toList.count old) := by
  have acted : ∀ (rebuild : ValueId → Terminator) (x : ValueId),
      (rebuild <$> moveUse old new x).run n = (rebuild (substitute old new x), n + [x].count old) := by
    intro rebuild x
    rw [StateT.run_map, run_moveUse]
    rfl
  cases t with
  | branch cond onTrue onFalse => exact acted (.branch · onTrue onFalse) cond
  | exit result =>
    cases result with
    | none => rfl
    | some x => exact acted (fun y => .exit (some y)) x
  | goto target | unreachable => rfl

/-- The value changed by a function is changed by any other one that does the same to it. -/
theorem modifyValue_congr {v : ValueId} {value : Value} {change change' : Value → Value}
    (found : f.values[v]? = some value) (same : change value = change' value) :
    f.modifyValue v change = f.modifyValue v change' := by
  have values : f.values.modify v change = f.values.modify v change' := by
    refine Array.ext_getElem? fun w => ?_
    rw [Array.getElem?_modify, Array.getElem?_modify]
    split
    · next own => rw [← own, found, Option.map_some, Option.map_some, same]
    · rfl
  rw [modifyValue, modifyValue, values]

/-- Moving the uses in the operands of one value renames them. -/
theorem renameOperands_cons (f : Procedure) (n : Nat) (user : ValueId) (rest : List ValueId) :
    renameOperands old new (user :: rest) (f, n) =
      if user = new then renameOperands old new rest (f, n)
      else f.opcode user >>= fun o => renameOperands old new rest
        (f.modifyValue user fun value =>
          { value with opcode := value.opcode.mapOperands (substitute old new) },
          n + o.operands.count old) := by
  rw [renameOperands]
  split
  · rfl
  · cases found : f.values[user]? with
    | none => simp only [opcode, value, found]; rfl
    | some value =>
      have code : f.opcode user = .ok value.opcode := by simp only [opcode, Procedure.value, found]; rfl
      rw [code, ok_bind, ok_bind, run_mapOperandsM_moveUse]
      exact congrArg (fun g => renameOperands old new rest (g, _)) (modifyValue_congr found rfl)

/-- Two lists in turn. -/
theorem renameOperands_append (l l' : List ValueId) (s : Procedure × Nat) :
    renameOperands old new (l ++ l') s = renameOperands old new l s >>= renameOperands old new l' := by
  induction l generalizing s with
  | nil => rfl
  | cons user rest ih =>
    rw [List.cons_append, renameOperands_cons, renameOperands_cons]
    split
    · exact ih _
    · cases s.1.opcode user with
      | error fault => rfl
      | ok o => exact ih _

/-- The blocks and what has been counted before play no part in renaming operands. -/
theorem renameOperands_frame (blocks : Array Block) (k : Nat) (l : List ValueId) (s : Procedure × Nat) :
    renameOperands old new l ({ s.1 with blocks := blocks }, s.2 + k) =
      (fun r => ({ r.1 with blocks := blocks }, r.2 + k)) <$> renameOperands old new l s := by
  induction l generalizing s with
  | nil => rfl
  | cons user rest ih =>
    rw [renameOperands_cons, renameOperands_cons]
    split
    · exact ih s
    · have code : Procedure.opcode { s.1 with blocks := blocks } user = s.1.opcode user := rfl
      rw [code]
      cases s.1.opcode user with
      | error fault => rfl
      | ok o =>
        rw [ok_bind, ok_bind, ← ih, Nat.add_right_comm]
        rfl

/-- Blocks are kept. -/
theorem blocks_renameOperands {l : List ValueId} {s r : Procedure × Nat}
    (run : renameOperands old new l s = .ok r) : r.1.blocks = s.1.blocks := by
  have framed := (renameOperands_frame s.1.blocks 0 l s).symm.trans run
  obtain ⟨r', -, same⟩ := map_eq_ok.mp framed
  rw [← same]

/-- Moving uses in one block renames the operands of its values and what its terminator reads. -/
theorem renameBlocks_cons {b : BlockId} {block : Block} (found : f.block b = .ok block)
    (rest : List BlockId) :
    renameBlocks old new (b :: rest) (f, n) = renameOperands old new block.members (f, n) >>= fun r =>
      renameBlocks old new rest
        (r.1.modifyBlock b fun stands =>
          { stands with terminator := block.terminator.mapOperand (substitute old new) },
          r.2 + block.terminator.operand.toList.count old) := by
  rw [renameBlocks, found, ok_bind]
  refine congrArg _ (funext fun r => ?_)
  obtain ⟨g, k⟩ := r
  dsimp only
  rw [run_mapOperandM_moveUse]

/-- Moving uses in the blocks that are left renames all operands there and all terminators. -/
theorem renameBlocks_eq {before rest : List Block} (blocks : f.blocks = (before ++ rest).toArray) :
    renameBlocks old new (List.range' before.length rest.length) (f, n) =
      (fun r => ({ r.1 with
          blocks := (before ++ rest.map (Block.mapOperand (substitute old new))).toArray },
        r.2 + (rest.flatMap fun block => block.terminator.operand.toList).count old)) <$>
      renameOperands old new (rest.flatMap Block.members) (f, n) := by
  induction rest generalizing f n before with
  | nil =>
    have same : f = { f with blocks := (before ++ []).toArray } := by rw [← blocks]
    exact congrArg (fun g => Except.ok (g, n)) same
  | cons block rest ih =>
    have found : f.block before.length = .ok block := by
      simp [Procedure.block, blocks]
    have members : (block :: rest).flatMap Block.members = block.members ++ rest.flatMap Block.members :=
      List.flatMap_cons
    rw [List.length_cons, List.range'_succ, renameBlocks_cons found, members, renameOperands_append]
    cases run : renameOperands old new block.members (f, n) with
    | error fault => rfl
    | ok r =>
      set g := r.1.modifyBlock before.length fun stands =>
        { stands with terminator := block.terminator.mapOperand (substitute old new) } with hg
      have moved : g.blocks = ((before ++ [block.mapOperand (substitute old new)]) ++ rest).toArray := by
        rw [hg, modifyBlock, blocks_renameOperands run, blocks, List.modify_toArray,
          List.modify_eq_take_cons_drop (by simp)]
        simp [Block.mapOperand]
      have framed : renameOperands old new (rest.flatMap Block.members)
          (g, r.2 + block.terminator.operand.toList.count old) = _ :=
        renameOperands_frame g.blocks _ _ r
      have next := ih (n := r.2 + block.terminator.operand.toList.count old) moved
      rw [framed, List.length_append, List.length_singleton] at next
      rw [ok_bind, ok_bind, next]
      cases renameOperands old new (rest.flatMap Block.members) r with
      | error fault => rfl
      | ok r' =>
        refine congrArg Except.ok (Prod.ext ?_ ?_)
        · simp only [List.map_cons, List.append_assoc, List.singleton_append]
        · simp only [List.flatMap_cons, List.count_append, Nat.add_assoc]

/-- Moving all uses of a value renames it among the operands of the listed values other than the new one,
and then at all terminators. -/
theorem moveUses_eq (f : Procedure) (old new : ValueId) :
    f.moveUses old new =
      (fun r => ({ r.1 with blocks := r.1.blocks.map (Block.mapOperand (substitute old new)) },
        r.2 + (f.blocks.toList.flatMap fun block => block.terminator.operand.toList).count old)) <$>
      renameOperands old new f.listed (f, 0) := by
  have blocks : f.blocks = (([] : List Block) ++ f.blocks.toList).toArray := rfl
  rw [moveUses, List.range_eq_range']
  refine (renameBlocks_eq blocks).trans ?_
  change _ <$> renameOperands old new f.listed (f, 0) = _
  cases run : renameOperands old new f.listed (f, 0) with
  | error fault => rfl
  | ok r =>
    have same : (f.blocks.toList.map (Block.mapOperand (substitute old new))).toArray =
        r.1.blocks.map (Block.mapOperand (substitute old new)) := by
      rw [blocks_renameOperands run, ← Array.toList_map]
    exact congrArg (fun B => Except.ok ({ r.1 with blocks := B }, _)) same

end Procedure

end Rangefinder
