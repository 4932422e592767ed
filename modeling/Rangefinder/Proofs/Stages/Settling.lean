import Mathlib.Algebra.BigOperators.Ring.Finset
import Mathlib.Algebra.Order.BigOperators.Group.Finset
import Rangefinder.Proofs.Analysis.NormalRanges
import Rangefinder.Proofs.Stages.Restoration
import Rangefinder.Proofs.Stages.Truncation

/-!
# Truncation comes to rest

A binary instruction is rewritten at most twice: a double one may be narrowed to int32, and one that is
not reduced modulo 2^32 yet may be. The rank of an instruction says how many rewrites are left. No edit
of the truncation raises a rank: conversions that are placed have none, recoding an instruction lowers
its own, moving uses changes operands only, and detaching a value only takes its rank away. Hence the sum
of the ranks bounds the number of rewrites and, since a pass that changes something rewrites at least
once, also the number of passes.

A value that the procedure lists may be detached on the way. `Stands` is what is left of that: the value
stands nowhere, or where it is listed. With it every edit is possible, so no pass meets a fault.
-/

namespace Rangefinder

namespace Procedure

variable {f f' f'' f₁ : Procedure} {g : FlowGraph} {v w x : ValueId} {b : BlockId} {uses : List Use}

/-! ### Ranks -/

/-- The number of rewrites that a placed binary instruction has left: a double may be narrowed and then
reduced, an int32 may be reduced unless it is already. -/
def rank (f : Procedure) (v : ValueId) : Nat :=
  match f.home? v, f.type? v, f.opcode? v with
  | some _, some .double, some (.binary _ _ _ _) => 2
  | some _, some .int32, some (.binary _ _ _ flags) => if flags.wrapping then 0 else 1
  | _, _, _ => 0

/-- The value is a binary instruction that stands in a block. -/
def isPlacedBinary (f : Procedure) (v : ValueId) : Bool :=
  match f.home? v, f.opcode? v with
  | some _, some (.binary _ _ _ _) => true
  | _, _ => false

/-- The number of binary instructions that stand in blocks. -/
def placedBinaries (f : Procedure) : Nat :=
  ((Finset.range f.values.size).filter fun v => f.isPlacedBinary v = true).card

/-- The number of rewrites that all instructions together have left. -/
def slack (f : Procedure) : Nat := ∑ v ∈ Finset.range f.values.size, f.rank v

/-- Only placed arithmetic has a rank. -/
theorem rank_le_two (f : Procedure) (v : ValueId) :
    f.rank v ≤ if f.isPlacedBinary v = true then 2 else 0 := by
  unfold rank isPlacedBinary
  split
  · next home _ code => simp [home, code]
  · next home _ code =>
    simp only [home, code, if_true]
    split <;> omega
  · exact Nat.zero_le _

/-- The slack is bounded by the placed arithmetic. -/
theorem slack_le (f : Procedure) : f.slack ≤ 2 * f.placedBinaries := by
  calc f.slack ≤ ∑ v ∈ Finset.range f.values.size, if f.isPlacedBinary v = true then 2 else 0 :=
        Finset.sum_le_sum fun v _ => f.rank_le_two v
    _ = 2 * f.placedBinaries := by
        rw [placedBinaries, Finset.card_filter, Finset.mul_sum]
        simp only [mul_ite, mul_one, mul_zero]

/-- There is no more arithmetic than values. -/
theorem placedBinaries_le (f : Procedure) : f.placedBinaries ≤ f.values.size :=
  (Finset.card_filter_le _ _).trans (Finset.card_range _).le

/-- A value that keeps its type, is detached at most, and becomes binary only with the flags it had, has
no more rewrites left than before. -/
theorem rank_le (home : ∀ b, f'.home? v = some b → ∃ c, f.home? v = some c) (type : f'.type? v = f.type? v)
    (code : ∀ op l r flags, f'.opcode? v = some (.binary op l r flags) →
      ∃ op l r, f.opcode? v = some (.binary op l r flags)) : f'.rank v ≤ f.rank v := by
  rw [rank]
  split
  · next here typed coded =>
    obtain ⟨c, there⟩ := home _ here
    obtain ⟨_, _, _, was⟩ := code _ _ _ _ coded
    simp [rank, there, ← type, typed, was]
  · next here typed coded =>
    obtain ⟨c, there⟩ := home _ here
    obtain ⟨_, _, _, was⟩ := code _ _ _ _ coded
    simp [rank, there, ← type, typed, was]
  · exact Nat.zero_le _

/-- Place, type and code determine the rank. -/
theorem rank_congr (home : f'.home? v = f.home? v) (type : f'.type? v = f.type? v)
    (code : f'.opcode? v = f.opcode? v) : f'.rank v = f.rank v := by
  rw [rank, rank, home, type, code]

/-- What does not exist has no rank. -/
theorem rank_eq_zero (absent : f.values.size ≤ v) : f.rank v = 0 := by
  have home : f.home? v = none := by rw [home?, Array.getElem?_eq_none absent, Option.bind_none]
  rw [rank, home]

/-! ### What every edit keeps -/

/-- The value stands in no block, or is listed in the block it stands in. -/
def Stands (f : Procedure) (v : ValueId) : Prop := ∀ b, f.home? v = some b → v ∈ f.membersAt b

/-- Truncation can work on the procedure: it is structured, and its ranges are normal. -/
structure Workable (f : Procedure) : Prop where
  structured : f.Structured
  normal : ∀ v r, f.range? v = some r → r.Normal

/-- The second procedure comes from the first one by edits of the truncation. -/
structure Eases (f f' : Procedure) : Prop where
  workable : f'.Workable
  count : f.values.size ≤ f'.values.size
  stands : ∀ v < f.values.size, f.Stands v → f'.Stands v
  rank : ∀ v, f'.rank v ≤ f.rank v

namespace Eases

/-- Nothing is eased. -/
theorem refl (h : f.Workable) : Eases f f := ⟨h, le_rfl, fun _ _ => id, fun _ => le_rfl⟩

/-- Easing twice. -/
theorem trans (h : Eases f f') (h' : Eases f' f'') : Eases f f'' where
  workable := h'.workable
  count := h.count.trans h'.count
  stands v present stood := h'.stands v (present.trans_le h.count) (h.stands v present stood)
  rank v := (h'.rank v).trans (h.rank v)

/-- Values that are added have no rewrites left, so the sum may run over them in both procedures. -/
theorem slack_eq (h : Eases f f') : f.slack = ∑ v ∈ Finset.range f'.values.size, f.rank v := by
  refine Finset.sum_subset (Finset.range_subset_range.mpr h.count) fun v _ new => ?_
  exact rank_eq_zero (not_lt.mp fun old => new (Finset.mem_range.mpr old))

/-- Easing adds no slack. -/
theorem slack_le (h : Eases f f') : f'.slack ≤ f.slack := by
  rw [h.slack_eq]
  exact Finset.sum_le_sum fun v _ => h.rank v

/-- A lower rank leaves less slack. -/
theorem slack_lt (h : Eases f f') (less : f'.rank v < f.rank v) : f'.slack < f.slack := by
  have present : v < f.values.size := by
    by_contra absent
    rw [rank_eq_zero (not_lt.mp absent)] at less
    exact absurd less (Nat.not_lt_zero _)
  rw [h.slack_eq]
  exact Finset.sum_lt_sum (fun w _ => h.rank w)
    ⟨v, Finset.mem_range.mpr (present.trans_le h.count), less⟩

end Eases

/-! ### The edits -/

/-- A conversion may be placed in front of an instruction. -/
theorem Workable.place {before after : List ValueId} (h : f.Workable)
    (placed : f.Placed f' b before after (.unary .toInt32 x) .int32) (present : x < f.values.size) :
    Eases f f' := by
  have structured := h.structured.place placed rfl (by simpa [Opcode.operands] using present)
  refine ⟨⟨structured, fun v r found => ?_⟩, ?_, fun v old stood c home => ?_, fun v => ?_⟩
  · exact h.normal v r (placed.range? v ▸ found)
  · rw [placed.valueCount]
    exact Nat.le_succ _
  · rw [placed.home?, if_neg old.ne] at home
    exact placed.mem_membersAt (stood c home)
  · by_cases new : v = f.values.size
    · rw [rank, placed.opcode?, if_pos new, rank_eq_zero new.ge]
      split
      · simp_all
      · simp_all
      · exact le_rfl
    · refine rank_le (fun c home => ?_) ?_ fun op l r flags code => ?_
      · exact ⟨c, by rwa [placed.home?, if_neg new] at home⟩
      · rw [placed.type?, if_neg new]
      · exact ⟨op, l, r, by rwa [placed.opcode?, if_neg new] at code⟩

/-- A normal range may be noted for any value. -/
theorem Workable.setRange (h : f.Workable) {range : Option Range} (normal : ∀ r ∈ range, r.Normal)
    (v : ValueId) : Eases f (f.setRange v range) := by
  have same := sameCode_setRange (f := f) v range
  refine ⟨⟨same.structured h.structured, fun w s found => ?_⟩, same.layout.valueCount.ge,
    fun w _ stood c home => ?_, fun w => ?_⟩
  · rw [range?_setRange] at found
    split at found
    · obtain ⟨_, -, own⟩ := Option.bind_eq_some_iff.mp found
      exact normal s own
    · exact h.normal w s found
  · rw [same.layout.home?] at home
    rw [same.layout.membersAt]
    exact stood c home
  · refine rank_le (fun c home => ⟨c, same.layout.home? w ▸ home⟩) (same.type? w)
      fun op l r flags code => ⟨op, l, r, same.opcode? w ▸ code⟩

/-- An instruction may be collapsed into a value that exists. -/
theorem Workable.collapse {n : Nat} (h : f.Workable) (hv : v ∈ f.instrsAt b) (present : x < f.values.size)
    (moved : f.moveUses v x = .ok (f₁, n)) (detached : f₁.detach v = .ok f') : Eases f f' := by
  have s := h.structured
  have renamed := moveUses_spec s moved
  have home : f₁.home? v = some b := by rw [renamed.layout.home?, (s.instrs b v hv).2]
  have out := detach_spec home detached
  have s₁ := s.moveUses present moved
  refine ⟨⟨s₁.detach home out, fun w r found => ?_⟩, ?_, fun w _ stood c stands => ?_, fun w => ?_⟩
  · rw [out.range?, renamed.range?] at found
    exact h.normal w r found
  · rw [out.valueCount, renamed.layout.valueCount]
  · rw [out.home?] at stands
    split at stands
    · cases stands
    · next other =>
      rw [renamed.layout.home?] at stands
      rw [out.membersAt s₁ home, renamed.layout.membersAt]
      exact List.mem_filter.mpr ⟨stood c stands, by simpa using other⟩
  · refine rank_le (fun c stands => ?_) ?_ fun op l r flags code => ?_
    · rw [out.home?] at stands
      split at stands
      · cases stands
      · exact ⟨c, renamed.layout.home? w ▸ stands⟩
    · rw [out.type?, renamed.type?]
    · rw [(collapsed s hv present moved detached).opcode?, Option.map_eq_some_iff] at code
      obtain ⟨o, was, same⟩ := code
      cases o <;> simp only [Opcode.rename, Opcode.mapOperands, reduceCtorEq, Opcode.binary.injEq] at same
      obtain ⟨rfl, -, -, rfl⟩ := same
      exact ⟨_, _, _, was⟩

/-- An instruction may be made an int32 one with operands that exist, if that leaves it fewer rewrites. -/
theorem Workable.recode {l r : ValueId} {flags : ArithFlags} (h : f.Workable) (op : BinaryOp)
    (hv : v ∈ f.instrsAt b) (left : l < f.values.size) (right : r < f.values.size)
    (less : (if flags.wrapping then 0 else 1) < f.rank v) :
    Eases f (f.modifyValue v fun value => { value with type := .int32, opcode := .binary op l r flags }) ∧
      (f.modifyValue v fun value =>
        { value with type := .int32, opcode := .binary op l r flags }).rank v < f.rank v := by
  set f' := f.modifyValue v fun value => { value with type := .int32, opcode := .binary op l r flags }
    with made
  obtain ⟨recoded, types⟩ := recoded_int32 h.structured hv (o := .binary op l r flags) rfl
  have own : f'.rank v < f.rank v := by
    rw [rank, recoded.layout.home?, types, if_pos rfl, recoded.opcode?, if_pos rfl,
      (h.structured.instrs b v hv).2]
    exact less
  refine ⟨⟨⟨?_, fun w s found => ?_⟩, recoded.layout.valueCount.ge, fun w _ stood c home => ?_, fun w => ?_⟩,
    own⟩
  · exact h.structured.recode recoded rfl (by simpa [Opcode.operands] using ⟨left, right⟩)
  · have kept : f'.range? w = f.range? w := range?_modifyValue fun _ => rfl
    exact h.normal w s (kept.symm.trans found)
  · rw [recoded.layout.home?] at home
    rw [recoded.layout.membersAt]
    exact stood c home
  · by_cases same : w = v
    · exact same ▸ own.le
    · refine rank_le (fun c home => ⟨c, recoded.layout.home? w ▸ home⟩) ?_ fun op l r flags code => ?_
      · rw [types, if_neg same]
      · exact ⟨op, l, r, by rwa [recoded.opcode?, if_neg same] at code⟩

/-! ### Rewrites -/

/-- Placing at a valid position succeeds. -/
theorem placeAt_yields {block : Block} {position : Nat} {o : Opcode} {t : ValueType}
    (found : f.blocks[b]? = some block) (fits : position ≤ block.instrs.length) :
    Yields (f.placeAt b position o t) fun r => r.2 = f.values.size ∧
      f.Placed r.1 b ((f.instrsAt b).take position) ((f.instrsAt b).drop position) o t := by
  have succeeds : Yields (f.placeAt b position o t) fun _ => True := by
    rw [placeAt, block_eq_ok.mpr found]
    show Yields (if block.instrs.length < position then _ else _) _
    rw [if_neg (not_lt.mpr fits)]
    exact .ok trivial
  refine succeeds.of_run fun r run _ => ?_
  obtain ⟨new, -, placed⟩ := placeAt_spec run
  exact ⟨new, placed⟩

/-- The range of a conversion can be brought up to date. -/
theorem Workable.refresh (h : f.Workable) (code : f.opcode? v = some (.unary .toInt32 x)) :
    Yields (f.refresh g v) fun f' => Eases f f' ∧ SameCode f f' := by
  obtain ⟨value, found, converts⟩ := Option.map_eq_some_iff.mp code
  have operands := h.structured.operands v _ (opcode?_of_value found)
  rw [Procedure.refresh, value_eq_ok.mpr found, ok_bind, converts]
  refine (rangeOf_yields h.normal found operands fun _ _ beta => ?_).bind fun range normal => .ok ?_
  · rw [converts] at beta
    cases beta
  · exact ⟨h.setRange (fun r own => (normal r own).1) v, sameCode_setRange v range⟩

/-- What the choice of an int32 operand for an instruction leaves: the operand exists, and the instruction
is still what it was. -/
structure Chosen (f : Procedure) (b : BlockId) (v : ValueId) (result : Procedure × ValueId) : Prop where
  eases : Eases f result.1
  present : result.2 < result.1.values.size
  member : v ∈ result.1.instrsAt b
  rank : result.1.rank v = f.rank v

/-- Choosing an int32 operand succeeds. -/
theorem int32Operand_yields (h : f.Workable) (hv : v ∈ f.instrsAt b) (present : x < f.values.size) :
    Yields (f.int32Operand g v x) (f.Chosen b v) := by
  have itself : f.Chosen b v (f, x) := ⟨.refl h, present, hv, rfl⟩
  obtain ⟨operand, ofOperand⟩ : ∃ operand, f.values[x]? = some operand :=
    ⟨_, Array.getElem?_eq_getElem present⟩
  obtain ⟨value, found, stands⟩ := Option.bind_eq_some_iff.mp (h.structured.instrs b v hv).2
  obtain ⟨block, here, -⟩ := mem_instrsAt.mp hv
  rw [int32Operand, typeOf, value_eq_ok.mpr ofOperand]
  show Yields (if operand.type = .int32 then _ else _) _
  split
  · exact .ok itself
  rw [value_eq_ok.mpr found, ok_bind, stands]
  dsimp only
  rw [block_eq_ok.mpr here, ok_bind]
  split
  · exact .ok itself
  · next position at_position =>
    have fits : position ≤ block.instrs.length := by
      rw [List.idxOf?, List.findIdx?_eq_some_iff_getElem] at at_position
      exact at_position.1.le
    -- A conversion has nothing left to rewrite, so placing one raises no rank.
    refine (placeAt_yields here fits).bind ?_
    rintro ⟨f₁, new⟩ ⟨isNew, placed⟩
    dsimp only at isNew placed
    subst isNew
    have eased := h.place placed present
    have code : f₁.opcode? f.values.size = some (.unary .toInt32 x) := by
      rw [placed.opcode?, if_pos rfl]
    have old : v ≠ f.values.size := (lt_size_of_home? (h.structured.instrs b v hv).2).ne
    refine (eased.workable.refresh code).bind ?_
    rintro f₂ ⟨eased', same⟩
    refine .ok ⟨eased.trans eased', ?_, ?_, ?_⟩
    · exact (placed.valueCount ▸ Nat.lt_succ_self _ : f.values.size < f₁.values.size).trans_le eased'.count
    · rw [same.layout.instrsAt, placed.instrsAt, if_pos rfl, List.mem_append, List.mem_cons]
      have mem : v ∈ (f.instrsAt b).take position ++ (f.instrsAt b).drop position := placed.listed ▸ hv
      exact (List.mem_append.mp mem).imp id .inr
    · refine (rank_congr (same.layout.home? v) (same.type? v) (same.opcode? v)).trans (rank_congr ?_ ?_ ?_)
      · rw [placed.home?, if_neg old]
      · rw [placed.type?, if_neg old]
      · rw [placed.opcode?, if_neg old]

/-- A binary instruction that is made an int32 one has fewer rewrites left. -/
theorem makeInt32_yields {op : BinaryOp} {lhs rhs : ValueId} {old flags : ArithFlags} (h : f.Workable)
    (hv : v ∈ f.instrsAt b) (code : f.opcode? v = some (.binary op lhs rhs old))
    (less : (if flags.wrapping then 0 else 1) < f.rank v) :
    Yields (f.makeInt32 g v op lhs rhs flags) fun f' => Eases f f' ∧ f'.rank v < f.rank v := by
  have operands := h.structured.operands v _ code
  refine (int32Operand_yields h hv (operands lhs (by simp [Opcode.operands]))).bind ?_
  rintro ⟨f₁, l⟩ first
  have right : rhs < f₁.values.size :=
    (operands rhs (by simp [Opcode.operands])).trans_le first.eases.count
  refine (int32Operand_yields first.eases.workable first.member right).bind ?_
  rintro ⟨f₂, r⟩ second
  have left : l < f₂.values.size := first.present.trans_le second.eases.count
  have same : f₂.rank v = f.rank v := second.rank.trans first.rank
  obtain ⟨eased, lower⟩ := second.eases.workable.recode op second.member left second.present (same ▸ less)
  exact .ok ⟨(first.eases.trans second.eases).trans eased, same ▸ lower⟩

/-- The users in a list of uses exist, and stand where they are listed if they stand anywhere. -/
def HasUsers (f : Procedure) (uses : List Use) : Prop :=
  ∀ user index, Use.operand user index ∈ uses → user < f.values.size ∧ f.Stands user

/-- The users are there still. -/
theorem HasUsers.of_eases (h : f.HasUsers uses) (eased : Eases f f') : f'.HasUsers uses :=
  fun user index mem => ⟨(h user index mem).1.trans_le eased.count,
    eased.stands user (h user index mem).1 (h user index mem).2⟩

/-- The users of a value in the uses that were found in a procedure are listed there. -/
theorem uses_hasUsers (s : f.Structured) {uses : List (ValueId × Use)} (run : f.uses = .ok uses)
    (v : ValueId) : f.HasUsers (usesOf uses v) := by
  intro user index mem
  obtain ⟨listed, -⟩ := blockUses_spec run (mem_usesOf.mp mem)
  obtain ⟨b, member⟩ := mem_listed.mp listed
  refine ⟨s.lt_size_of_mem member, fun c home => ?_⟩
  obtain rfl := Option.some.inj ((s.home_of_mem member).symm.trans home)
  exact member

/-- Conversions among the users of a value can be replaced by the value. -/
theorem absorbConversions_yields (h : f.Workable) (present : v < f.values.size)
    (users : f.HasUsers uses) : Yields (absorbConversions v uses f) (Eases f) := by
  induction uses generalizing f with
  | nil => exact .ok (.refl h)
  | cons use rest ih =>
    have others : f.HasUsers rest := fun user index mem => users user index (List.mem_cons_of_mem _ mem)
    cases use with
    | terminator c => exact ih h present others
    | operand user index =>
      obtain ⟨exists_user, stood⟩ := users user index List.mem_cons_self
      refine (value_yields exists_user).bind fun value found => ?_
      split
      · next input c converts stands =>
        have code : f.opcode? user = some (.unary .toInt32 input) := by
          rw [opcode?_of_value found, converts]
        have listed := stood c ((home?_of_value found).trans stands)
        have hu : user ∈ f.instrsAt c := h.structured.mem_instrsAt_of_mem listed code rfl
        obtain ⟨f₁, n, moved⟩ := moveUses_succeeds h.structured user v
        have hu₁ : user ∈ f₁.instrsAt c := (moveUses_spec h.structured moved).layout.instrsAt c ▸ hu
        obtain ⟨f₂, detached⟩ := detach_succeeds (h.structured.moveUses present moved) hu₁
        have eased := h.collapse hu present moved detached
        rw [moved]
        show Yields (f₁.detach user >>= _) _
        rw [detached]
        exact (ih eased.workable (present.trans_le eased.count) (others.of_eases eased)).mono
          fun _ eased' => eased.trans eased'
      · exact ih h present others

/-- A test of all uses succeeds. -/
theorem allUses_yields {property : Use → Except Fault Bool}
    (each : ∀ use ∈ uses, Yields (property use) fun _ => True) :
    Yields (allUses property uses) fun _ => True := by
  induction uses with
  | nil => exact .ok trivial
  | cons use rest ih =>
    refine (each use List.mem_cons_self).bind fun holds _ => ?_
    split
    · exact ih fun other mem => each other (List.mem_cons_of_mem _ mem)
    · exact .ok trivial

section Uses

variable (users : f.HasUsers uses)

include users

/-- Asking for int32 uses succeeds. -/
theorem takesInt32_yields : ∀ use ∈ uses, Yields (f.takesInt32 use) fun _ => True := by
  intro use mem
  cases use with
  | terminator c => exact .ok trivial
  | operand user index =>
    refine (value_yields (users user index mem).1).bind fun value _ => ?_
    split <;> exact .ok trivial

/-- Asking for reducing uses succeeds. -/
theorem reducesOperand_yields : ∀ use ∈ uses, Yields (f.reducesOperand use) fun _ => True := by
  intro use mem
  cases use with
  | terminator c => exact .ok trivial
  | operand user index =>
    refine (opcode_yields (users user index mem).1).bind fun o _ => ?_
    split <;> exact .ok trivial

/-- Asking for low-bit uses succeeds. -/
theorem ignoresHighBits_yields : ∀ use ∈ uses, Yields (f.ignoresHighBits use) fun _ => True := by
  intro use mem
  cases use with
  | terminator c => exact .ok trivial
  | operand user index =>
    refine (reducesOperand_yields users _ mem).bind fun reduces _ => ?_
    split
    · exact .ok trivial
    · refine (value_yields (users user index mem).1).bind fun value _ => ?_
      split <;> exact .ok trivial

/-- Asking for wrapping succeeds. -/
theorem mayWrap_yields (type : ValueType) (op : BinaryOp) (range : Range) :
    Yields (f.mayWrap type op range uses) fun _ => True := by
  rw [mayWrap]
  split_ifs
  · exact .ok trivial
  · exact .ok trivial
  · exact allUses_yields (ignoresHighBits_yields users)
  · exact allUses_yields (reducesOperand_yields users)
  · exact .ok trivial
  · exact .ok trivial

/-- What a rewrite leaves, if there is one: fewer rewrites for the value, and no more for any other. -/
def Rewritten (f : Procedure) (v : ValueId) (result : Option Procedure) : Prop :=
  ∀ f' ∈ result, Eases f f' ∧ f'.rank v < f.rank v

omit users in
/-- Nothing was rewritten. -/
theorem rewritten_none : f.Rewritten v none := by
  intro f' made
  cases made

/-- Narrowing succeeds. -/
theorem narrow?_yields (h : f.Workable) (home : f.home? v = some b) (stood : f.Stands v) :
    Yields (f.narrow? g v uses) (f.Rewritten v) := by
  refine (value_yields (lt_size_of_home? home)).bind fun value found => ?_
  split
  · next op lhs rhs flags range binary ranged =>
    have code : f.opcode? v = some (.binary op lhs rhs flags) := by
      rw [opcode?_of_value found, binary]
    have hv := h.structured.mem_instrsAt_of_mem (stood b home) code rfl
    have operands := h.structured.operands v _ code
    split
    · next double =>
      refine (rangeRead_yields h.normal (operands lhs (by simp [Opcode.operands]))).bind fun l _ => ?_
      refine (rangeRead_yields h.normal (operands rhs (by simp [Opcode.operands]))).bind fun r _ => ?_
      split
      · exact .ok rewritten_none
      · refine (allUses_yields (takesInt32_yields users)).bind fun accepted _ => ?_
        split
        · have two : f.rank v = 2 := by
            rw [rank, home, type?_of_value found, double.1, code]
          refine (makeInt32_yields h hv code (by rw [two]; decide)).bind fun made eased => .ok ?_
          rintro _ ⟨⟩
          exact eased
        · exact .ok rewritten_none
    · exact .ok rewritten_none
  · exact .ok rewritten_none

/-- Wrapping succeeds. -/
theorem wrap?_yields (h : f.Workable) (home : f.home? v = some b) (stood : f.Stands v) :
    Yields (f.wrap? g v uses) (f.Rewritten v) := by
  refine (value_yields (lt_size_of_home? home)).bind fun value found => ?_
  split
  · next op lhs rhs flags range binary ranged =>
    have code : f.opcode? v = some (.binary op lhs rhs flags) := by
      rw [opcode?_of_value found, binary]
    have hv := h.structured.mem_instrsAt_of_mem (stood b home) code rfl
    split
    · next applies =>
      refine (mayWrap_yields users value.type op range).bind fun accepted _ => ?_
      split
      · have left : (if ArithFlags.wraps.wrapping then 0 else 1) < f.rank v := by
          rw [rank, home, type?_of_value found, code]
          -- A double has both rewrites left, an int32 that does not wrap yet has one.
          cases type : value.type with
          | double => exact Nat.two_pos
          | int32 =>
            show 0 < if flags.wrapping then 0 else 1
            simp [applies.2]
          | _ => simp [type, ValueType.isNumber] at applies
        refine (makeInt32_yields h hv code left).bind ?_
        rintro made ⟨eased, less⟩
        have normal := h.normal v range ((range?_of_value found).trans ranged)
        refine (Range.wrapToInt32_yields normal).bind fun wrapped int32 => ?_
        have noted : Eases made (made.setRange v (some wrapped)) :=
          eased.workable.setRange (fun r own => Option.some.inj own ▸ int32.toNormal) v
        have before := eased.trans noted
        refine (absorbConversions_yields noted.workable
          ((lt_size_of_home? home).trans_le before.count) (users.of_eases before)).bind
            fun absorbed eased' => .ok ?_
        rintro _ ⟨⟩
        exact ⟨before.trans eased', ((eased'.rank v).trans (noted.rank v)).trans_lt less⟩
      · exact .ok rewritten_none
    · exact .ok rewritten_none
  · exact .ok rewritten_none

end Uses

/-- The uses in a structured procedure can be found, and their users are listed. -/
theorem Structured.uses_yields (s : f.Structured) :
    Yields f.uses fun uses => ∀ v, f.HasUsers (usesOf uses v) := by
  have listed : ∀ v ∈ f.listed, ∃ o, f.opcode? v = some o ∧ ∀ x ∈ o.operands, True := by
    intro v mem
    obtain ⟨b, member⟩ := mem_listed.mp mem
    exact ⟨_, opcode?_of_value (Array.getElem?_eq_getElem (s.lt_size_of_mem member)), fun _ _ => trivial⟩
  exact (Procedure.uses_yields listed fun _ _ _ _ _ => trivial).of_run
    fun uses run _ v => uses_hasUsers s run v

/-- The values in a list exist, and stand where they are listed if they stand anywhere. -/
def HasValues (f : Procedure) (l : List ValueId) : Prop := ∀ v ∈ l, v < f.values.size ∧ f.Stands v

/-- The values are there still. -/
theorem HasValues.of_eases {l : List ValueId} (h : f.HasValues l) (eased : Eases f f') : f'.HasValues l :=
  fun v mem => ⟨(h v mem).1.trans_le eased.count, eased.stands v (h v mem).1 (h v mem).2⟩

/-- The order of visits lists values that exist. -/
theorem usersFirst_hasValues (s : f.Structured) (g : FlowGraph) : f.HasValues (f.usersFirst g) := by
  intro v mem
  obtain ⟨b, -, mem⟩ := List.mem_flatMap.mp mem
  have member : v ∈ f.membersAt b := List.mem_append_right _ (List.mem_reverse.mp mem)
  refine ⟨s.lt_size_of_mem member, fun c home => ?_⟩
  obtain rfl := Option.some.inj ((s.home_of_mem member).symm.trans home)
  exact member

end Procedure

namespace Session

open Procedure

variable {s t u : Session} {v : ValueId} {l : List ValueId}

/-- The number of rewrites so far. -/
def rewrites (s : Session) : Nat := s.stats.narrowed + s.stats.truncated

/-- The second session comes from the first one by edits of the truncation, and what it has rewritten in
between is no more than what the instructions had left. -/
structure Spends (s t : Session) : Prop where
  eases : s.procedure.Eases t.procedure
  graph : t.graph = s.graph
  total : t.rewrites + t.procedure.slack ≤ s.rewrites + s.procedure.slack

/-- Nothing is spent. -/
theorem Spends.refl (h : s.procedure.Workable) : s.Spends s := ⟨.refl h, rfl, le_rfl⟩

/-- Spending twice. -/
theorem Spends.trans (h : s.Spends t) (h' : t.Spends u) : s.Spends u :=
  ⟨h.eases.trans h'.eases, h'.graph.trans h.graph, h'.total.trans h.total⟩

/-- A value can be moved to int32 where that is possible, which is one rewrite. -/
theorem toInt32?_yields {b : BlockId} {uses : List Use} (h : s.procedure.Workable)
    (home : s.procedure.home? v = some b) (stood : s.procedure.Stands v)
    (users : s.procedure.HasUsers uses) :
    Yields (s.toInt32? v uses) fun r => ∀ t ∈ r, s.Spends t ∧ t.procedure.slack < s.procedure.slack := by
  refine (narrow?_yields users h home stood).bind fun narrowed rewritten => ?_
  cases narrowed with
  | some f =>
    obtain ⟨eased, less⟩ := rewritten f rfl
    have lower := eased.slack_lt less
    refine .ok ?_
    rintro _ ⟨⟩
    refine ⟨⟨eased, rfl, ?_⟩, lower⟩
    show s.stats.narrowed + 1 + s.stats.truncated + f.slack ≤
      s.stats.narrowed + s.stats.truncated + s.procedure.slack
    omega
  | none =>
    refine (wrap?_yields users h home stood).bind fun wrapped rewritten => ?_
    cases wrapped with
    | some f =>
      obtain ⟨eased, less⟩ := rewritten f rfl
      have lower := eased.slack_lt less
      refine .ok ?_
      rintro _ ⟨⟩
      refine ⟨⟨eased, rfl, ?_⟩, lower⟩
      show s.stats.narrowed + (s.stats.truncated + 1) + f.slack ≤
        s.stats.narrowed + s.stats.truncated + s.procedure.slack
      omega
    | none => exact .ok (by simp)

/-- A pass over given values succeeds, and reports a change only after a rewrite. -/
theorem narrowAll_yields {uses : List (ValueId × Use)} {before : Bool} (h : s.procedure.Workable)
    (values : s.procedure.HasValues l) (users : ∀ v, s.procedure.HasUsers (usesOf uses v)) :
    Yields (narrowAll l uses (s, before)) fun r => s.Spends r.1 ∧
      (r.2 = true → before = true ∨ r.1.procedure.slack < s.procedure.slack) := by
  induction l generalizing s uses before with
  | nil => exact .ok ⟨.refl h, .inl⟩
  | cons v rest ih =>
    have others : s.procedure.HasValues rest := fun w mem => values w (List.mem_cons_of_mem _ mem)
    obtain ⟨present, stood⟩ := values v List.mem_cons_self
    refine (value_yields present).bind fun value found => ?_
    split
    · exact ih h others users
    · next placed =>
      obtain ⟨b, stands⟩ := Option.ne_none_iff_exists'.mp (by simpa using placed)
      have home : s.procedure.home? v = some b := (home?_of_value found).trans stands
      refine (toInt32?_yields h home stood (users v)).bind fun moved rewritten => ?_
      cases moved with
      | none => exact ih h others users
      | some t =>
        obtain ⟨spent, lower⟩ := rewritten t rfl
        have workable := spent.eases.workable
        refine workable.structured.uses_yields.bind fun uses' users' => ?_
        refine (ih workable (others.of_eases spent.eases) users').mono fun r ⟨spent', _⟩ => ?_
        exact ⟨spent.trans spent', fun _ => .inr (spent'.eases.slack_le.trans_lt lower)⟩

/-- A pass succeeds, and spends slack if it changes anything. -/
theorem narrowPass_yields (h : s.procedure.Workable) :
    Yields (narrowPass s) fun r => s.Spends r.1 ∧
      (r.2 = true → r.1.procedure.slack < s.procedure.slack) := by
  refine h.structured.uses_yields.bind fun uses users => ?_
  refine (narrowAll_yields h (usersFirst_hasValues h.structured s.graph) users).mono
    fun r ⟨spent, changed⟩ => ⟨spent, fun reported => ?_⟩
  exact (changed reported).resolve_left nofun

/-- The removal of bitwise identities succeeds and rewrites nothing. -/
theorem foldBitops_yields (h : s.procedure.Workable) (values : s.procedure.HasValues l) :
    Yields (foldBitops l s) fun t => t.rewrites = s.rewrites := by
  induction l generalizing s with
  | nil => exact .ok rfl
  | cons v rest ih =>
    have others : s.procedure.HasValues rest := fun w mem => values w (List.mem_cons_of_mem _ mem)
    obtain ⟨present, stood⟩ := values v List.mem_cons_self
    refine (value_yields present).bind fun value found => ?_
    split
    · next op lhs rhs flags binary =>
      have code : s.procedure.opcode? v = some (.binary op lhs rhs flags) := by
        rw [opcode?_of_value found, binary]
      have operands := h.structured.operands v _ code
      split
      · next placed =>
        refine (constInt?_yields (operands lhs (by simp [Opcode.operands]))).bind fun left _ => ?_
        refine (constInt?_yields (operands rhs (by simp [Opcode.operands]))).bind fun right _ => ?_
        split
        · exact ih h others
        · next x identity =>
          have exists_x := operands x (bitIdentity_mem identity)
          have typed : Yields (s.procedure.typeOf x) fun _ => True :=
            (value_yields exists_x).bind fun _ _ => .ok trivial
          refine typed.bind fun type _ => ?_
          split
          · obtain ⟨b, stands⟩ := Option.isSome_iff_exists.mp placed.2
            have listed := stood b ((home?_of_value found).trans stands)
            have hv := h.structured.mem_instrsAt_of_mem listed code rfl
            -- Moving the uses leaves the blocks alone, so `v` is still there to be taken out.
            obtain ⟨f₁, n, moved⟩ := moveUses_succeeds h.structured v x
            have hv₁ : v ∈ f₁.instrsAt b := (moveUses_spec h.structured moved).layout.instrsAt b ▸ hv
            obtain ⟨f₂, detached⟩ := detach_succeeds (h.structured.moveUses exists_x moved) hv₁
            have eased := h.collapse hv exists_x moved detached
            rw [moved]
            show Yields (f₁.detach v >>= _) _
            rw [detached]
            exact @ih { s with procedure := f₂, stats := _ } eased.workable (others.of_eases eased)
          · exact ih h others
      · exact ih h others
    · exact ih h others

/-- Truncation terminates. In a procedure that is accepted, with normal ranges for its values, the passes
over it come to rest: allowing more than twice as many of them as there are placed binary
instructions changes nothing any more. The whole truncation succeeds, and both kinds of rewrites together
happen at most twice for every placed binary instruction. -/
theorem truncate_terminates (accepted : s.procedure.verify = .ok (.ok ()))
    (normal : ∀ v r, s.procedure.range? v = some r → r.Normal) :
    ∃ t u, (∀ limit, 2 * s.procedure.placedBinaries < limit → settle narrowPass limit s = .ok t) ∧
      s.truncate = .ok u ∧ u.rewrites = t.rewrites ∧
      t.rewrites ≤ s.rewrites + 2 * s.procedure.placedBinaries := by
  have bound := s.procedure.slack_le
  have workable : s.procedure.Workable := ⟨(verify_eq_ok.mp accepted).2.choose_spec.2.structured, normal⟩
  obtain ⟨t, spent, rests⟩ := settle_of_measure (fun t => s.Spends t) (fun t => t.procedure.slack)
    (fun u spent => (narrowPass_yields spent.eases.workable).mono fun r ⟨spent', less⟩ =>
      ⟨spent.trans spent', less⟩) (.refl workable)
  have ends : ∀ limit, 2 * s.procedure.placedBinaries < limit → settle narrowPass limit s = .ok t :=
    fun limit enough => rests limit (bound.trans_lt enough)
  have final := spent.eases.workable
  obtain ⟨u, folded, same⟩ :=
    foldBitops_yields final (usersFirst_hasValues final.structured t.graph)
  refine ⟨t, u, ends, ?_, same, ?_⟩
  · -- The limit that `truncate` sets counts all values, so it is at least as high.
    have few := s.procedure.placedBinaries_le
    rw [truncate, ends _ (by omega)]
    exact folded
  · have total := spent.total
    omega

/-- The low byte of the sum of a double in 0..9 and one, reduced to int32 before it is masked. -/
def maskedSum : Procedure where
  name := "masked_sum"
  entry := 0
  blocks := #[⟨0, [], [0, 1, 2, 3, 4, 5], .exit (some 5), false⟩]
  values := #[⟨0, .param 0, .double, some 0, some ⟨some 0, some 9, false, 3, none, none⟩⟩,
    ⟨1, .const (.int 1), .int32, some 0, none⟩,
    ⟨2, .binary .add 0 1 .checked, .double, some 0, some ⟨some 1, some 10, false, 3, none, none⟩⟩,
    ⟨3, .unary .toInt32 2, .int32, some 0, none⟩,
    ⟨4, .const (.int 255), .int32, some 0, none⟩,
    ⟨5, .binary .bitAnd 3 4 .checked, .int32, some 0, none⟩]
  unsupported := false
  reasons := []

/-- The sum is narrowed, for which its double operand is converted, and then reduced, which makes the
conversion of the sum disappear. -/
theorem maskedSum_terminates :
    ∃ s t u, start maskedSum .standard = .ok s ∧
      (∀ limit, 4 < limit → settle narrowPass limit s = .ok t) ∧ s.truncate = .ok u ∧
      u.rewrites = 2 ∧ t.rewrites = 2 ∧
      u.procedure.opcode? 6 = some (.unary .toInt32 0) ∧ u.procedure.home? 3 = none := by
  have computed : (fun u => decide (u.rewrites = 2 ∧ u.procedure.opcode? 6 = some (.unary .toInt32 0) ∧
      u.procedure.home? 3 = none)) <$> (start maskedSum .standard >>= truncate) = .ok true := by
    decide +kernel
  have accepted : maskedSum.verify = .ok (.ok ()) := by decide +kernel
  have stored : ∀ value ∈ maskedSum.values, ∀ r ∈ value.range, r.Normal := by decide +kernel
  have normal : ∀ v r, maskedSum.range? v = some r → r.Normal := by
    intro v r known
    obtain ⟨value, found, known⟩ := Option.bind_eq_some_iff.mp known
    exact stored value (Array.mem_of_getElem? found) r known
  have few : maskedSum.placedBinaries = 2 := by decide +kernel
  obtain ⟨u', ran, facts⟩ := map_eq_ok.mp computed
  obtain ⟨s, started, truncated⟩ := bind_eq_ok.mp ran
  obtain ⟨rewritten, converted, dropped⟩ := of_decide_eq_true facts
  have same : s.procedure = maskedSum := by
    obtain ⟨g, -, made⟩ := bind_eq_ok.mp started
    rw [← pure_eq_ok.mp made]
  obtain ⟨t, u, rests, whole, counted, -⟩ := truncate_terminates (same ▸ accepted) (same ▸ normal)
  rw [same, few] at rests
  obtain rfl : u = u' := Except.ok.inj (whole.symm.trans truncated)
  exact ⟨s, t, u, started, rests, whole, rewritten, counted ▸ rewritten, converted, dropped⟩

end Session

end Rangefinder
