import Rangefinder.Proofs.Procedure.Renaming

/-!
# Uses that move

`moveUses` walks over the blocks, changes operands in place and counts as it goes; `uses` lists who
reads what. The two are defined apart from each other: one rewrites an opcode through
`mapOperandsM`, the other one reads `operands`. Here they are compared. What each use is of
afterwards is given by `moved`, use for use and in the same order, and the count is that of the uses
that `moves` picks out. The operands of the new value stay as they are, so a value that is defined
through the old one, as a beta or a phi is, does not come to read itself.

A value that is listed twice makes each of its uses twice, but its operands are changed and counted
only the first time; the results are about procedures that list each value once.
-/

namespace Rangefinder

/-- The use is an operand of the given value. -/
def Use.isOperandOf (v : ValueId) : Use → Bool
  | operand user _ => user == v
  | terminator _ => false

/-- The block with what its terminator reads left blank. -/
def Block.shape (block : Block) : Block := { block with terminator := block.terminator.shape }

/-- The value with what it reads left blank. -/
def Value.shape (value : Value) : Value := { value with opcode := value.opcode.shape }

/-- The uses that an opcode makes as that of a given value, each with the value used. -/
def Opcode.usesBy (o : Opcode) (user : ValueId) : List (ValueId × Use) :=
  o.operands.zipIdx.map fun use => (use.1, Use.operand user use.2)

/-- The use that a block's terminator makes, with the value used. -/
def Block.terminatorUses (block : Block) : List (ValueId × Use) :=
  block.terminator.operand.toList.map fun used => (used, Use.terminator block.id)

namespace Procedure

variable {f g : Procedure} {old new v : ValueId} {k n : Nat} {l : List ValueId}
  {before : List (ValueId × Use)} {own : List (ValueId × Use)} {blocks : List Block} {user : ValueId}

/-- The procedure with all that its values and terminators read left blank. -/
def shape (f : Procedure) : Procedure :=
  { f with blocks := f.blocks.map Block.shape, values := f.values.map Value.shape }

/-! ### Nothing but operands changes -/

/-- Renaming keeps the shape. -/
theorem shape_modifyValue (ρ : ValueId → ValueId) :
    (f.modifyValue v fun value => { value with opcode := value.opcode.mapOperands ρ }).shape = f.shape := by
  have kept : ∀ value : Value,
      Value.shape { value with opcode := value.opcode.mapOperands ρ } = value.shape := fun value => by
    rw [Value.shape, Value.shape, Opcode.shape_mapOperands]
  have values : (f.values.modify v fun value =>
      { value with opcode := value.opcode.mapOperands ρ }).map Value.shape = f.values.map Value.shape := by
    refine Array.ext_getElem? fun w => ?_
    rw [Array.getElem?_map, Array.getElem?_map, Array.getElem?_modify]
    split
    · rw [Option.map_map]
      exact congrArg (Option.map · _) (funext kept)
    · rfl
  rw [shape, modifyValue, values, shape]

/-- So do all renamings. -/
theorem shape_renameOperands (run : renameOperands old new l (f, k) = .ok (g, n)) :
    g.shape = f.shape := by
  induction l generalizing f k with
  | nil => rw [(Prod.mk.inj (Except.ok.inj run)).1]
  | cons user rest ih =>
    rw [renameOperands_cons] at run
    split at run
    · exact ih run
    · obtain ⟨o, -, run⟩ := bind_eq_ok.mp run
      rw [ih run, shape_modifyValue]

/-- Moving uses changes nothing but what values and terminators read. -/
theorem shape_moveUses (run : f.moveUses old new = .ok (g, n)) : g.shape = f.shape := by
  rw [moveUses_eq, map_eq_ok] at run
  obtain ⟨⟨f₁, n₁⟩, renamed, same⟩ := run
  obtain ⟨rfl, -⟩ := Prod.mk.inj same
  have kept : Block.shape ∘ Block.mapOperand (substitute old new) = Block.shape := by
    funext block
    simp [Block.shape, Block.mapOperand, Terminator.shape_mapOperand]
  rw [← shape_renameOperands renamed, shape, shape, Array.map_map, kept]

/-! ### All uses -/

/-- Uses of one more user. -/
theorem operandUses_cons (user : ValueId) (rest : List ValueId) :
    f.operandUses (user :: rest) =
      f.opcode user >>= fun o => (o.usesBy user ++ ·) <$> f.operandUses rest := rfl

/-- Uses in one more block. -/
theorem blockUses_cons (block : Block) (rest : List Block) :
    f.blockUses (block :: rest) = f.operandUses block.members >>= fun operands =>
      (operands ++ block.terminatorUses ++ ·) <$> f.blockUses rest := rfl

/-- Uses of two lists. -/
theorem operandUses_append (l l' : List ValueId) :
    f.operandUses (l ++ l') = f.operandUses l >>= fun own => (own ++ ·) <$> f.operandUses l' := by
  induction l with
  | nil =>
    change _ = (fun later => later) <$> f.operandUses l'
    exact (id_map' _).symm
  | cons user rest ih =>
    rw [List.cons_append, operandUses_cons, operandUses_cons, ih]
    cases f.opcode user with
    | error fault => rfl
    | ok o =>
      cases f.operandUses rest with
      | error fault => rfl
      | ok own =>
        rw [ok_bind, ok_bind, ok_bind]
        cases f.operandUses l' with
        | error fault => rfl
        | ok later => exact congrArg Except.ok (List.append_assoc ..).symm

/-- Looking up an opcode fails in one way only. -/
theorem opcode_eq_elim : f.opcode v = (f.opcode? v).elim (.error (.missingValue v)) .ok := by
  rw [opcode, Procedure.value, opcode?]
  cases f.values[v]? <;> rfl

/-- Renamed opcodes are read. -/
theorem opcode_congr {change : Opcode → Opcode} (code : g.opcode? v = (f.opcode? v).map change) :
    g.opcode v = change <$> f.opcode v := by
  rw [opcode_eq_elim, opcode_eq_elim, code]
  cases f.opcode? v <;> rfl

/-! ### Where uses move -/

/-- A use with the value used, after the uses of one value have been moved to another one. -/
def moved (old new : ValueId) (use : ValueId × Use) : ValueId × Use :=
  if use.2.isOperandOf new then use else (substitute old new use.1, use.2)

/-- The uses that an opcode makes move with its operands. -/
theorem usesBy_mapOperands (other : user ≠ new) (o : Opcode) :
    (o.mapOperands (substitute old new)).usesBy user = (o.usesBy user).map (moved old new) := by
  simp [Opcode.usesBy, Opcode.operands_mapOperands, List.zipIdx_map, moved, Use.isOperandOf, other]

/-- The uses that the new value makes stay. -/
theorem map_moved_usesBy (o : Opcode) : (o.usesBy new).map (moved old new) = o.usesBy new := by
  simp [Opcode.usesBy, moved, Use.isOperandOf]

/-- Uses by terminators move. -/
theorem terminatorUses_mapOperand (block : Block) :
    (block.mapOperand (substitute old new)).terminatorUses = block.terminatorUses.map (moved old new) := by
  simp [Block.terminatorUses, Block.mapOperand, Terminator.operand_mapOperand, moved, Use.isOperandOf,
    Option.toList_map]

/-- If the operands of all listed values but the new one are renamed, the uses that these values make
move. -/
theorem operandUses_moved
    (code : ∀ v ∈ l, g.opcode? v = (f.opcode? v).map fun o =>
      if v = new then o else o.mapOperands (substitute old new)) :
    g.operandUses l = List.map (moved old new) <$> f.operandUses l := by
  induction l with
  | nil => rfl
  | cons user rest ih =>
    rw [List.forall_mem_cons] at code
    rw [operandUses_cons, operandUses_cons, opcode_congr code.1, ih code.2]
    cases f.opcode user with
    | error fault => rfl
    | ok o =>
      cases f.operandUses rest with
      | error fault => rfl
      | ok later =>
        have own : (if user = new then o else o.mapOperands (substitute old new)).usesBy user =
            (o.usesBy user).map (moved old new) := by
          split
          · next isNew => rw [isNew, map_moved_usesBy]
          · next other => rw [usesBy_mapOperands other]
        refine congrArg Except.ok ?_
        rw [own, List.map_append]

/-- Uses in blocks move. -/
theorem blockUses_moved
    (code : ∀ v ∈ blocks.flatMap Block.members, g.opcode? v = (f.opcode? v).map fun o =>
      if v = new then o else o.mapOperands (substitute old new)) :
    g.blockUses (blocks.map (Block.mapOperand (substitute old new))) =
      List.map (moved old new) <$> f.blockUses blocks := by
  induction blocks with
  | nil => rfl
  | cons block rest ih =>
    rw [List.flatMap_cons, List.forall_mem_append] at code
    have operands := operandUses_moved code.1
    rw [List.map_cons, blockUses_cons, blockUses_cons, ih code.2, terminatorUses_mapOperand]
    change g.operandUses block.members >>= _ = _
    rw [operands]
    cases f.operandUses block.members with
    | error fault => rfl
    | ok own =>
      cases f.blockUses rest with
      | error fault => rfl
      | ok later =>
        refine congrArg Except.ok ?_
        rw [List.map_append, List.map_append]

/-- Moving uses moves each of them where it stands; where they cannot be listed, they cannot be
afterwards. -/
theorem uses_moveUses (once : f.listed.Nodup) (run : f.moveUses old new = .ok (g, n)) :
    g.uses = List.map (moved old new) <$> f.uses := by
  have renamed := moveUses_renames once run
  have blocks : g.blocks.toList = f.blocks.toList.map (Block.mapOperand (substitute old new)) := by
    rw [← Array.toList_map]
    refine congrArg Array.toList (Array.ext_getElem? fun b => ?_)
    rw [renamed.blocks, Array.getElem?_map]
    rfl
  rw [uses, uses, blocks]
  refine blockUses_moved fun v listed => ?_
  rw [renamed.opcode?]
  refine congrArg (Option.map · _) (funext fun o => ?_)
  by_cases isNew : v = new
  · simp [isNew, Opcode.rename_id]
  · have stands : v ∈ f.listed := listed
    simp [isNew, stands, Opcode.mapOperands_eq_rename]

/-! ### Counting the uses that move -/

/-- The use is one of the old value and not by the new one. -/
def moves (old new : ValueId) (use : ValueId × Use) : Bool := use.1 == old && !use.2.isOperandOf new

/-- A user makes its moves. -/
theorem countP_usesBy (other : user ≠ new) (o : Opcode) :
    (o.usesBy user).countP (moves old new) = o.operands.count old := by
  have same : moves old new ∘ (fun use => (use.1, Use.operand user use.2)) = (· == old) ∘ Prod.fst := by
    funext use
    simp [moves, Use.isOperandOf, other]
  rw [Opcode.usesBy, List.countP_map, same, ← List.countP_map, List.zipIdx_map_fst, List.count]

/-- The new value makes none. -/
theorem countP_usesBy_new (o : Opcode) : (o.usesBy new).countP (moves old new) = 0 := by
  simp [Opcode.usesBy, List.countP_eq_zero, moves, Use.isOperandOf]

/-- Terminators make theirs. -/
theorem countP_terminatorUses (block : Block) :
    block.terminatorUses.countP (moves old new) = block.terminator.operand.toList.count old := by
  rw [Block.terminatorUses, List.countP_map, List.count]
  refine congrArg (List.countP · _) (funext fun used => ?_)
  simp [moves, Use.isOperandOf]

/-- The uses that listed values make are read off their opcodes. -/
theorem operandUses_congr (code : ∀ v ∈ l, g.opcode? v = f.opcode? v) :
    g.operandUses l = f.operandUses l := by
  induction l with
  | nil => rfl
  | cons user rest ih =>
    rw [List.forall_mem_cons] at code
    rw [operandUses_cons, operandUses_cons, opcode_eq_elim, opcode_eq_elim, code.1, ih code.2]

/-- Renaming operands counts the uses that move. -/
theorem count_renameOperands (once : l.Nodup) (listed : f.operandUses l = .ok own)
    (run : renameOperands old new l (f, k) = .ok (g, n)) :
    n = k + own.countP (moves old new) := by
  induction l generalizing f k own with
  | nil =>
    obtain ⟨-, rfl⟩ := Prod.mk.inj (Except.ok.inj run)
    rw [← Except.ok.inj listed]
    rfl
  | cons user rest ih =>
    rw [List.nodup_cons] at once
    rw [operandUses_cons, bind_eq_ok] at listed
    obtain ⟨o, code, appended⟩ := listed
    obtain ⟨later, listed, rfl⟩ := map_eq_ok.mp appended
    rw [renameOperands_cons] at run
    rw [List.countP_append]
    split at run
    · next isNew =>
      rw [ih once.2 listed run, isNew, countP_usesBy_new, Nat.zero_add]
    · next other =>
      rw [code, ok_bind] at run
      -- No value is listed twice, so those that follow make the uses that they made at the start.
      have kept : ∀ v ∈ rest, opcode? (f.modifyValue user fun value =>
          { value with opcode := value.opcode.mapOperands (substitute old new) }) v = f.opcode? v := by
        intro v hv
        have apart : user ≠ v := fun same => once.1 (same ▸ hv)
        rw [opcode?, opcode?, modifyValue, Array.getElem?_modify, if_neg apart]
      rw [ih once.2 ((operandUses_congr kept).trans listed) run, countP_usesBy other, Nat.add_assoc]

/-- The uses in blocks are the operands of their values and what their terminators read, in some order. -/
theorem perm_blockUses (listed : f.blockUses blocks = .ok before) :
    ∃ own, f.operandUses (blocks.flatMap Block.members) = .ok own ∧
      before.Perm (own ++ blocks.flatMap Block.terminatorUses) := by
  induction blocks generalizing before with
  | nil =>
    rw [← Except.ok.inj listed]
    exact ⟨[], rfl, .nil⟩
  | cons block rest ih =>
    rw [blockUses_cons, bind_eq_ok] at listed
    obtain ⟨own, here, appended⟩ := listed
    obtain ⟨later, listed, rfl⟩ := map_eq_ok.mp appended
    obtain ⟨own', there, perm⟩ := ih listed
    refine ⟨own ++ own', ?_, ?_⟩
    · rw [List.flatMap_cons, operandUses_append, here, ok_bind, there]
      rfl
    · rw [List.flatMap_cons, List.append_assoc, List.append_assoc]
      exact ((perm.append_left _).trans (List.perm_append_comm_assoc ..)).append_left own

/-- Moving uses tells how many uses moved. -/
theorem count_moveUses (once : f.listed.Nodup) (listed : f.uses = .ok before)
    (run : f.moveUses old new = .ok (g, n)) :
    n = before.countP (moves old new) := by
  obtain ⟨own, operands, perm⟩ := perm_blockUses listed
  rw [moveUses_eq, map_eq_ok] at run
  obtain ⟨⟨f₁, n₁⟩, renamed, same⟩ := run
  obtain ⟨-, rfl⟩ := Prod.mk.inj same
  have ends : (f.blocks.toList.flatMap Block.terminatorUses).countP (moves old new) =
      (f.blocks.toList.flatMap fun block => block.terminator.operand.toList).count old := by
    rw [List.countP_flatMap, List.count_flatMap]
    exact congrArg (fun counts => (List.map counts _).sum) (funext countP_terminatorUses)
  have counted := count_renameOperands once operands renamed
  rw [Nat.zero_add] at counted
  rw [perm.countP_eq, List.countP_append, ends, counted]

/-- Values whose uses can be listed exist. -/
theorem exists_of_operandUses (listed : f.operandUses l = .ok own) :
    ∀ v ∈ l, v < f.values.size := by
  induction l generalizing own with
  | nil => exact fun _ mem => absurd mem List.not_mem_nil
  | cons user rest ih =>
    rw [operandUses_cons, bind_eq_ok] at listed
    obtain ⟨o, code, appended⟩ := listed
    obtain ⟨later, listed, -⟩ := map_eq_ok.mp appended
    exact List.forall_mem_cons.mpr ⟨lt_size_of_opcode? (opcode_eq_ok.mp code), ih listed⟩

/-! ### The uses of each value -/

/-- Moving changes what is used. -/
theorem moved_fst (use : ValueId × Use) :
    (moved old new use).1 = if moves old new use then new else use.1 := by
  by_cases own : use.1 = old <;> cases byNew : use.2.isOperandOf new <;>
    simp [moved, moves, substitute, own, byNew]

/-- It does not change the user. -/
theorem moved_snd (use : ValueId × Use) : (moved old new use).2 = use.2 := by
  rw [moved]
  split <;> rfl

/-- The uses of a value after the move are those that stay with it or come to it. -/
theorem usesOf_map_moved (l : List (ValueId × Use)) (v : ValueId) :
    usesOf (l.map (moved old new)) v =
      (l.filter fun use => (if moves old new use then new else use.1) == v).map Prod.snd := by
  have kept : Prod.snd ∘ moved old new = Prod.snd := funext moved_snd
  rw [usesOf, List.filter_map, List.map_map, kept]
  refine congrArg (List.map _) (List.filter_congr fun use _ => ?_)
  rw [Function.comp, moved_fst]

/-- Uses of one value. -/
theorem filter_usesOf (l : List (ValueId × Use)) (v : ValueId) (p : Use → Bool) :
    (usesOf l v).filter p = (l.filter fun use => use.1 == v && p use.2).map Prod.snd := by
  rw [usesOf, List.filter_map, List.filter_filter]
  exact congrArg (List.map _) (List.filter_congr fun use _ => Bool.and_comm ..)

/-- The old value is used by the new one only. -/
theorem usesOf_old (ne : old ≠ new) (l : List (ValueId × Use)) :
    usesOf (l.map (moved old new)) old = (usesOf l old).filter (Use.isOperandOf new) := by
  rw [usesOf_map_moved, filter_usesOf]
  refine congrArg (List.map _) (List.filter_congr fun use _ => ?_)
  by_cases own : use.1 = old <;> cases byNew : use.2.isOperandOf new <;>
    simp [moves, own, byNew, ne.symm]

/-- The new value is used where it was, and wherever the old one was used by others. -/
theorem perm_usesOf_new (ne : old ≠ new) (l : List (ValueId × Use)) :
    (usesOf (l.map (moved old new)) new).Perm
      (usesOf l new ++ (usesOf l old).filter fun use => !use.isOperandOf new) := by
  rw [usesOf_map_moved, filter_usesOf, usesOf, ← List.map_append]
  refine List.Perm.map _ ?_
  -- Those that were uses of the new value before come first, then those that moved.
  refine (List.filter_append_perm (fun use => use.1 == new) _).symm.trans (.of_eq ?_)
  rw [List.filter_filter, List.filter_filter]
  congr 1
  · refine List.filter_congr fun use _ => ?_
    by_cases isNew : use.1 = new <;> simp [moves, isNew]
  · refine List.filter_congr fun use _ => ?_
    by_cases own : use.1 = old
    · cases byNew : use.2.isOperandOf new <;> simp [moves, own, byNew, ne]
    · simp [moves, own]

/-- Other values are used where they were. -/
theorem usesOf_other (notOld : v ≠ old) (notNew : v ≠ new) (l : List (ValueId × Use)) :
    usesOf (l.map (moved old new)) v = usesOf l v := by
  rw [usesOf_map_moved, usesOf]
  refine congrArg (List.map _) (List.filter_congr fun use _ => ?_)
  by_cases own : use.1 = old <;> cases byNew : use.2.isOperandOf new <;>
    simp [moves, own, byNew, notOld.symm, notNew.symm]

/-- Moves are uses of the old value. -/
theorem countP_moves (l : List (ValueId × Use)) :
    l.countP (moves old new) = ((usesOf l old).filter fun use => !use.isOperandOf new).length := by
  rw [filter_usesOf, List.length_map, List.countP_eq_length_filter]
  rfl

/-- What moving all uses of a value to another one does to the uses listed in a procedure, and how many
uses it is that move. -/
structure UsesMoved (old new : ValueId) (before after : List (ValueId × Use)) (count : Nat) : Prop where
  /-- The old value is left with what the new one reads of it. -/
  ofOld : usesOf after old = (usesOf before old).filter (Use.isOperandOf new)
  /-- The new value keeps its uses and gets all others of the old one. -/
  ofNew : (usesOf after new).Perm
    (usesOf before new ++ (usesOf before old).filter fun use => !use.isOperandOf new)
  ofOthers : ∀ v, v ≠ old → v ≠ new → usesOf after v = usesOf before v
  counts : count = ((usesOf before old).filter fun use => !use.isOperandOf new).length

/-- What moving does to uses. -/
theorem usesMoved (ne : old ≠ new) (before : List (ValueId × Use)) :
    UsesMoved old new before (before.map (moved old new)) (before.countP (moves old new)) where
  ofOld := usesOf_old ne before
  ofNew := perm_usesOf_new ne before
  ofOthers _ notOld notNew := usesOf_other notOld notNew before
  counts := countP_moves before

/-- A value that is listed in no block, and the new value, read what they read before. -/
theorem values_moveUses (once : f.listed.Nodup) (run : f.moveUses old new = .ok (g, n))
    (apart : v ∉ f.listed ∨ v = new) : g.values[v]? = f.values[v]? := by
  have kept : ¬(v ∈ f.listed ∧ v ≠ new) := fun both => apart.elim (· both.1) both.2
  rw [(moveUses_renames once run).values]
  simp only [if_neg kept, Opcode.rename_id, Option.map_id']

/-- Moving all uses of a value to another one, in a procedure that lists each value once. What changes
operands visits what lists them, slot by slot, in every opcode and at every terminator. Nothing but
operands changes, and none of a value that is not listed or of the new value. Where the uses can be
listed the move succeeds, and afterwards each value is used as `UsesMoved` says. How the blocks are
numbered plays no part. -/
theorem moveUses_exact (once : f.listed.Nodup) (ne : old ≠ new) :
    (∀ (σ : Type) (act : ValueId → StateM σ ValueId),
      (∀ o : Opcode, Opcode.operands <$> o.mapOperandsM act = o.operands.mapM act) ∧
      ∀ t : Terminator, Terminator.operand <$> t.mapOperandM act = t.operand.mapM act) ∧
    (∀ g n, f.moveUses old new = .ok (g, n) →
      g.shape = f.shape ∧ (∀ v, v ∉ f.listed ∨ v = new → g.values[v]? = f.values[v]?) ∧
      ∀ fault, f.uses = .error fault → g.uses = .error fault) ∧
    ∀ before, f.uses = .ok before → ∃ g n after, f.moveUses old new = .ok (g, n) ∧
      g.uses = .ok after ∧ UsesMoved old new before after n := by
  refine ⟨fun σ act => ⟨Opcode.operands_mapOperandsM act, Terminator.operand_mapOperandM act⟩,
    fun g n run => ⟨shape_moveUses run, fun v => values_moveUses once run, fun fault failed => ?_⟩,
    fun before listed => ?_⟩
  · rw [uses_moveUses once run, failed]
    rfl
  · obtain ⟨own, operands, -⟩ := perm_blockUses listed
    obtain ⟨g, n, run⟩ : ∃ g n, f.moveUses old new = .ok (g, n) :=
      moveUses_defined (exists_of_operandUses operands)
    have after : g.uses = .ok (before.map (moved old new)) := by
      rw [uses_moveUses once run, listed]
      rfl
    have counted := count_moveUses once listed run
    exact ⟨g, n, _, run, after, counted ▸ usesMoved ne before⟩

/-- A loop that doubles a value until it is large enough, and returns it. -/
def doubling : Procedure where
  name := "doubling"
  entry := 0
  blocks := #[⟨0, [], [0], .goto 1, false⟩, ⟨1, [1], [2, 3], .branch 3 1 2, false⟩,
    ⟨2, [], [], .exit (some 2), false⟩]
  values := #[⟨0, .const (.int 1), .int32, some 0, none⟩, ⟨1, .phi [(0, 0), (2, 1)], .int32, some 1, none⟩,
    ⟨2, .binary .add 1 1 ⟨false, true, false, false⟩, .int32, some 1, none⟩,
    ⟨3, .compare .lt 2 0, .boolean, some 1, none⟩]
  unsupported := false
  reasons := []

/-- Moving the uses of the doubled value to the phi that carries it round the loop: the comparison and
the exit read the phi, and the phi still reads the doubled value. -/
theorem doubling_moveUses :
    ∃ g after, doubling.moveUses 2 1 = .ok (g, 2) ∧ g.uses = .ok after ∧ g.shape = doubling.shape ∧
      usesOf after 2 = [.operand 1 1] ∧
      (usesOf after 1).Perm [.operand 2 0, .operand 2 1, .operand 3 0, .terminator 2] ∧
      usesOf after 0 = [.operand 1 0, .operand 3 1] := by
  have once : doubling.listed.Nodup := by decide
  have listed : doubling.uses = .ok [(0, .operand 1 0), (2, .operand 1 1), (1, .operand 2 0),
      (1, .operand 2 1), (2, .operand 3 0), (0, .operand 3 1), (3, .terminator 1), (2, .terminator 2)] := rfl
  obtain ⟨-, kept, moves⟩ := @moveUses_exact doubling 2 1 once (by decide)
  obtain ⟨g, n, after, run, listed', moved⟩ := moves _ listed
  obtain rfl : n = 2 := moved.counts
  exact ⟨g, after, run, listed', (kept g 2 run).1, moved.ofOld, moved.ofNew,
    moved.ofOthers 0 (by decide) (by decide)⟩

end Procedure

end Rangefinder
