import Mathlib.Data.List.Basic
import Mathlib.Logic.Relation
import Rangefinder.Proofs.Analysis.Passes
import Rangefinder.Proofs.Stages.Removal

/-!
# Truncation keeps procedures intact

Truncation makes four edits: it places conversions right before the instruction that reads them,
recodes arithmetic in its place, collapses conversions into the value that they convert, and
collapses bitwise identities into one of their operands. `Truncates` lists them with what each requires, and
both passes of the truncation are sequences of them (`truncate_truncated`). Each keeps a procedure intact
and free of betas, so the truncation does.
-/

namespace Rangefinder

/-- Only a unary operation is renamed to one. -/
theorem Opcode.rename_eq_unary {ρ : ValueId → ValueId} {π : BlockId → ValueId → ValueId} {o : Opcode}
    {op : UnaryOp} {x : ValueId} (h : o.rename ρ π = .unary op x) : ∃ y, o = .unary op y ∧ ρ y = x := by
  cases o <;> simp_all [rename, mapOperands]

/-- Sums, differences and products are not bitwise. -/
theorem BinaryOp.isBitwise_of_isRing {op : BinaryOp} (ring : op.isRing = true) :
    op.isBitwise = false := by
  cases op with
  | add | sub | mul => rfl
  | _ => cases ring

namespace Procedure

variable {f f' f₁ : Procedure} {g : FlowGraph} {b : BlockId} {v : ValueId} {before after : List ValueId}
  {o : Opcode} {uses : List (ValueId × Use)} {t : ValueType} {op : BinaryOp} {l : List ValueId}
  {type : ValueType} {index : Nat}

/-- Placing an instruction whose operands can be read at its place keeps a procedure intact. -/
theorem Intact.place (h : f.Intact g) (placed : f.Placed f' b before after o t) (kind : o.isPhi = false)
    (keeps : o.handsOn = none) (operands : ∀ x ∈ o.operands, x < f.values.size)
    (reads : f.WellFormed g → b ∈ g.order →
      ∀ x ∈ o.operands, f.Readable g b (f.phisAt b ++ before) x) : f'.Intact g where
  built := placed.flow.build.trans h.built
  structured := h.structured.place placed kind operands
  listed := placed.allListed h.listed
  uses := h.uses.imp (fun wf => wf.place placed kind operands (reads wf))
    fun fed => fed.place h.structured placed
  testable := h.testable.place h.structured placed operands fun x handed => by
    rw [keeps] at handed
    cases handed

/-- Recoding an instruction with operands that can be read at its place keeps a procedure intact. -/
theorem Intact.recode (h : f.Intact g) (hv : v ∈ f.instrsAt b) (recoded : f.Recoded f' v o)
    (kind : o.isPhi = false) (keeps : o.handsOn = none) (types : ∀ w, f'.isTestable w = f.isTestable w)
    (operands : ∀ x ∈ o.operands, x < f.values.size)
    (reads : f.WellFormed g → b ∈ g.order → ∀ before after, f.instrsAt b = before ++ v :: after →
      ∀ x ∈ o.operands, f.Readable g b (f.phisAt b ++ before) x) : f'.Intact g where
  built := recoded.layout.flow.build.trans h.built
  structured := h.structured.recode recoded kind operands
  listed := recoded.layout.allListed h.listed
  uses := h.uses.imp (fun wf => wf.recode hv recoded kind operands (reads wf))
    fun fed => fed.recode h.structured hv recoded
  testable := h.testable.recode recoded types keeps

/-- A procedure that ends up well-formed was well-formed before an edit that repairs no phi cut off
from its own value. -/
theorem Intact.wellFormed_before (h : f.Intact g) (keep : f.SelfFed g → f'.SelfFed g)
    (wf : f'.WellFormed g) : f.WellFormed g :=
  h.uses.resolve_right fun fed => (keep fed).not_wellFormed wf

/-- The value exists and, if the procedure is well-formed, can be read by the given instruction. -/
def Serves (f : Procedure) (g : FlowGraph) (b : BlockId) (v x : ValueId) : Prop :=
  x < f.values.size ∧ (f.WellFormed g → b ∈ g.order → ∀ before after,
    f.instrsAt b = before ++ v :: after → f.Readable g b (f.phisAt b ++ before) x)

/-- An operand of an instruction serves it. -/
theorem Intact.serves_operand (h : f.Intact g) {v x : ValueId} (op : f.opcode? v = some o)
    (hx : x ∈ o.operands) : f.Serves g b v x :=
  ⟨h.structured.operands v o op x hx, fun wf hb before after split =>
    (wf.uses b hb).reads before v after split o op x hx⟩

/-- Ranges and marks do not matter for what serves an instruction. -/
theorem Serves.of_sameCode {v x : ValueId} (h : f.Serves g b v x) (same : SameCode f f') :
    f'.Serves g b v x := by
  refine ⟨same.layout.valueCount ▸ h.1, fun wf hb before after split => ?_⟩
  rw [same.layout.phisAt]
  rw [same.layout.instrsAt] at split
  exact same.layout.readable.mpr (h.2 (same.symm.wellFormed wf) hb before after split)

/-- Where an instruction stands right after a new one, the new one comes last before it. -/
theorem Placed.before_eq {before after before' after' : List ValueId} (s' : f'.Structured)
    (placed : f.Placed f' b before (v :: after) o t) (split : f'.instrsAt b = before' ++ v :: after') :
    before' = before ++ [f.values.size] := by
  have own : f'.instrsAt b = (before ++ [f.values.size]) ++ v :: after := by
    rw [placed.instrsAt, if_pos rfl, List.append_assoc, List.singleton_append]
  exact (s'.split_unique split own).2.1

/-- What serves an instruction still does when another one is placed before it. -/
theorem Serves.place {v x : ValueId} (serves : f.Serves g b v x)
    (back : f'.WellFormed g → f.WellFormed g) (s' : f'.Structured)
    (placed : f.Placed f' b before (v :: after) o t) : f'.Serves g b v x := by
  refine ⟨placed.valueCount ▸ Nat.lt_succ_of_lt serves.1, fun wf hb before' after' split => ?_⟩
  have read := serves.2 (back wf) hb before after placed.listed
  rw [placed.phisAt, placed.before_eq s' split, ← List.append_assoc]
  exact placed.readable read (List.subset_append_left _ _)

/-- A new instruction serves the one that it is placed before. -/
theorem serves_placed (s' : f'.Structured) (placed : f.Placed f' b before (v :: after) o t) :
    f'.Serves g b v f.values.size := by
  refine ⟨placed.valueCount ▸ Nat.lt_succ_self _, fun _ _ before' after' split => ?_⟩
  refine ⟨b, by rw [placed.home?, if_pos rfl], ?_⟩
  rw [if_pos rfl, placed.before_eq s' split]
  simp

/-- What the choice of an int32 operand for an instruction keeps. -/
structure Prepared (f f' : Procedure) (g : FlowGraph) (b : BlockId) (v : ValueId) : Prop where
  intact : f'.Intact g
  back : f'.WellFormed g → f.WellFormed g
  betaFree : f.BetaFree → f'.BetaFree
  member : v ∈ f'.instrsAt b
  serves : ∀ x, f.Serves g b v x → f'.Serves g b v x
  count : f.values.size ≤ f'.values.size
  opcode? : ∀ w < f.values.size, f'.opcode? w = f.opcode? w
  type? : ∀ w < f.values.size, f'.type? w = f.type? w

/-- Choices of operands one after the other. -/
theorem Prepared.trans {f'' : Procedure} (h : f.Prepared f' g b v) (h' : f'.Prepared f'' g b v) :
    f.Prepared f'' g b v where
  intact := h'.intact
  back wf := h.back (h'.back wf)
  betaFree free := h'.betaFree (h.betaFree free)
  member := h'.member
  serves x served := h'.serves x (h.serves x served)
  count := h.count.trans h'.count
  opcode? w hw := (h'.opcode? w (Nat.lt_of_lt_of_le hw h.count)).trans (h.opcode? w hw)
  type? w hw := (h'.type? w (Nat.lt_of_lt_of_le hw h.count)).trans (h.type? w hw)

/-- A new instruction that is no beta leaves a procedure without betas. -/
theorem BetaFree.place (free : f.BetaFree) (placed : f.Placed f' b before after o t)
    (kind : o.isBeta = false) : f'.BetaFree := by
  intro c w hw
  rw [isBeta, placed.opcode?]
  split
  · exact kind
  · next old =>
    refine free c w ?_
    rw [placed.instrsAt] at hw
    split at hw
    · next own =>
      subst own
      rw [placed.listed]
      simpa [old] using hw
    · exact hw

/-- Ranges and marks do not matter for whether there is a beta. -/
theorem BetaFree.of_sameCode (free : f.BetaFree) (same : SameCode f f') : f'.BetaFree := by
  intro b v hv
  rw [isBeta, same.opcode?]
  exact free b v (same.layout.instrsAt b ▸ hv)

/-- What stands at the index of a value begins with it. -/
theorem drop_of_idxOf? {position : Nat} (found : l.idxOf? v = some position) :
    l.drop position = v :: l.drop (position + 1) := by
  rw [List.idxOf?, List.findIdx?_eq_some_iff_getElem] at found
  obtain ⟨lt, here, -⟩ := found
  rw [List.drop_eq_getElem_cons lt, eq_of_beq here]

/-- An int32 operand is the operand itself, or a conversion of it right before the instruction. -/
theorem int32Operand_cases {v x y : ValueId} (s : f.Structured) (hv : v ∈ f.instrsAt b)
    (run : f.int32Operand g v x = .ok (f', y)) :
    f' = f ∧ y = x ∧ f.type? x = some .int32 ∨
      ∃ f₁ before after, f.Placed f₁ b before (v :: after) (.unary .toInt32 x) .int32 ∧
        SameCode f₁ f' ∧ y = f.values.size := by
  obtain ⟨type, typed, run⟩ := bind_eq_ok.mp run
  obtain ⟨operand, ofOperand, typed⟩ := bind_eq_ok.mp typed
  obtain rfl := pure_eq_ok.mp typed
  split at run
  · next int32 =>
    obtain ⟨rfl, rfl⟩ := Prod.mk.inj (pure_eq_ok.mp run)
    exact .inl ⟨rfl, rfl, int32 ▸ type?_of_value (value_eq_ok.mp ofOperand)⟩
  obtain ⟨value, found, run⟩ := bind_eq_ok.mp run
  have home := (home?_of_value (value_eq_ok.mp found)).symm.trans (s.instrs b v hv).2
  rw [home] at run
  obtain ⟨block, here, run⟩ := bind_eq_ok.mp run
  have instrs : f.instrsAt b = block.instrs := by rw [instrsAt, block_eq_ok.mp here]; rfl
  dsimp only at run
  split at run
  · next absent =>
    rw [List.idxOf?_eq_none_iff, ← instrs] at absent
    exact absurd hv absent
  · next position at_position =>
    simp only [bind_eq_ok, Prod.exists, pure_eq_ok, Prod.mk.injEq] at run
    obtain ⟨f₁, new, placing, f₂, refreshed, rfl, rfl⟩ := run
    obtain ⟨rfl, -, placed⟩ := placeAt_spec placing
    rw [drop_of_idxOf? (instrs ▸ at_position)] at placed
    exact .inr ⟨f₁, _, _, placed, sameCode_refresh refreshed, rfl⟩

/-- An int32 operand serves the instruction, and everything else stays as it is. -/
theorem int32Operand_spec {v x y : ValueId} (h : f.Intact g) (hv : v ∈ f.instrsAt b)
    (served : f.Serves g b v x) (run : f.int32Operand g v x = .ok (f', y)) :
    f.Prepared f' g b v ∧ f'.Serves g b v y := by
  rcases int32Operand_cases h.structured hv run with ⟨rfl, rfl, -⟩ |
    ⟨f₁, before, after, placed, same, rfl⟩
  · exact ⟨⟨h, id, id, hv, fun _ => id, Nat.le_refl _, fun _ _ => rfl, fun _ _ => rfl⟩, served⟩
  · have mine := h.place placed rfl rfl (by simpa [Opcode.operands] using served.1) fun wf hb => by
      simpa [Opcode.operands] using served.2 wf hb _ _ placed.listed
    have member : v ∈ f₁.instrsAt b := by rw [placed.instrsAt, if_pos rfl]; simp
    have back := h.wellFormed_before fun fed => fed.place h.structured placed
    refine ⟨⟨mine.of_sameCode same, fun wf => back (same.symm.wellFormed wf),
      fun free => (free.place placed rfl).of_sameCode same,
      same.layout.instrsAt b ▸ member,
      fun z hz => (hz.place back mine.structured placed).of_sameCode same,
      ?_, fun w hw => ?_, fun w hw => ?_⟩, (serves_placed mine.structured placed).of_sameCode same⟩
    · rw [same.layout.valueCount, placed.valueCount]
      exact Nat.le_succ _
    · rw [same.opcode?, placed.opcode?, if_neg (Nat.ne_of_lt hw)]
    · rw [same.type?, placed.type?, if_neg (Nat.ne_of_lt hw)]

/-- An instruction that is made an int32 one is recoded, and no other type changes. -/
theorem recoded_int32 (s : f.Structured) (hv : v ∈ f.instrsAt b) (kind : o.isPhi = false) :
    f.Recoded (f.modifyValue v fun value => { value with type := .int32, opcode := o }) v o ∧
      ∀ w, (f.modifyValue v fun value => { value with type := .int32, opcode := o }).type? w =
        if w = v then some .int32 else f.type? w := by
  refine ⟨recoded_modifyValue s hv kind (fun _ => rfl) (fun _ => rfl) fun _ => rfl, fun w => ?_⟩
  rw [type?_modifyValue, Array.getElem?_eq_getElem (lt_size_of_home? (s.instrs b v hv).2)]
  rfl

/-- Making a numeric instruction an int32 one keeps a procedure intact, and touches the opcode of no
other value. -/
theorem makeInt32_spec {v lhs rhs : ValueId} {old flags : ArithFlags} (h : f.Intact g)
    (hv : v ∈ f.instrsAt b) (found : f.opcode? v = some (.binary op lhs rhs old))
    (typed : f.type? v = some type) (number : type.isNumber = true)
    (run : f.makeInt32 g v op lhs rhs flags = .ok f') :
    f'.Intact g ∧ (f'.WellFormed g → f.WellFormed g) ∧ (f.BetaFree → f'.BetaFree) ∧
      (∃ l r, f'.opcode? v = some (.binary op l r flags)) ∧ f'.type? v = some .int32 ∧
      f.values.size ≤ f'.values.size ∧ ∀ w < f.values.size, w ≠ v → f'.opcode? w = f.opcode? w := by
  simp only [makeInt32, bind_eq_ok, Prod.exists, pure_eq_ok] at run
  obtain ⟨f₁, l, first, f₂, r, second, rfl⟩ := run
  obtain ⟨prepared₁, served₁⟩ := int32Operand_spec h hv
    (h.serves_operand found (by simp [Opcode.operands])) first
  have servedR := prepared₁.serves rhs (h.serves_operand found (by simp [Opcode.operands]))
  obtain ⟨prepared₂, served₂⟩ :=
    int32Operand_spec prepared₁.intact prepared₁.member servedR second
  have servedL := prepared₂.serves l served₁
  have prepared := prepared₁.trans prepared₂
  obtain ⟨recoded, types⟩ := @recoded_int32 f₂ b v (.binary op l r flags)
    prepared.intact.structured prepared.member rfl
  have exists_v := lt_size_of_home? (h.structured.instrs b v hv).2
  refine ⟨prepared.intact.recode prepared.member recoded rfl rfl (fun w => ?_) ?_
      fun wf hb before after split => ?_,
    fun wf => prepared.back (prepared.intact.wellFormed_before (fun fed => fed.recode
      prepared.intact.structured prepared.member recoded) wf),
    fun free c w hw => ?_, ⟨l, r, ?_⟩, by rw [types, if_pos rfl],
    recoded.layout.valueCount ▸ prepared.count, fun w hw other => ?_⟩
  · by_cases own : w = v
    · rw [isTestable_of_isNumber (by rw [types, if_pos own]) rfl, own,
        isTestable_of_isNumber ((prepared.type? v exists_v).trans typed) number]
    · exact isTestable_congr (by rw [types, if_neg own])
  · simpa [Opcode.operands] using ⟨servedL.1, served₂.1⟩
  · simpa [Opcode.operands] using
      ⟨servedL.2 wf hb before after split, served₂.2 wf hb before after split⟩
  · rw [isBeta, recoded.opcode?]
    split
    · rfl
    · exact prepared.betaFree free c w (recoded.layout.instrsAt c ▸ hw)
  · rw [recoded.opcode?, if_pos rfl]
  · rw [recoded.opcode?, if_neg other, prepared.opcode? w hw]

/-- A bitwise identity amounts to one of its operands. -/
theorem bitIdentity_mem {lhs rhs x : ValueId} {left right : Option Int} {flags : ArithFlags}
    (h : bitIdentity op lhs rhs left right = some x) :
    x ∈ (Opcode.binary op lhs rhs flags).operands := by
  simp only [Opcode.operands, List.mem_cons, List.not_mem_nil, or_false]
  cases op <;> simp only [bitIdentity] at h <;> grind

/-- The operation gives the operand `x` again: it converts it to int32, or it is a bitwise identity. -/
inductive Repeats (f : Procedure) (x : ValueId) : Opcode → Prop
  | conversion : Repeats f x (.unary .toInt32 x)
  | identity {op : BinaryOp} {lhs rhs : ValueId} {flags : ArithFlags} {left right : Option Int} :
    f.constInt? lhs = .ok left → f.constInt? rhs = .ok right → bitIdentity op lhs rhs left right = some x →
    Repeats f x (.binary op lhs rhs flags)

/-- What an operation repeats is an operand of it. -/
theorem Repeats.mem_operands {x : ValueId} (h : f.Repeats x o) : x ∈ o.operands := by
  cases h with
  | conversion => simp [Opcode.operands]
  | identity _ _ identity => exact bitIdentity_mem identity

/-- One edit of the truncation: arithmetic is made an int32 operation, and it wraps around unless it was one
on doubles; a range is noted; or an instruction that repeats an int32 operand is collapsed into it. -/
inductive Truncates (g : FlowGraph) (f f' : Procedure) : Prop
  | makes {b : BlockId} {v lhs rhs : ValueId} {op : BinaryOp} {old flags : ArithFlags} {type : ValueType}
    (hv : v ∈ f.instrsAt b) (code : f.opcode? v = some (.binary op lhs rhs old))
    (typed : f.type? v = some type) (number : type.isNumber = true)
    (kind : type = .double ∨ op.isBitwise = false ∧ old.wrapping = false ∧ flags = .wraps)
    (run : f.makeInt32 g v op lhs rhs flags = .ok f')
  | notes (same : SameCode f f')
  | collapses {b : BlockId} {v x : ValueId} {o : Opcode} {n : Nat} {f₁ : Procedure}
    (hv : v ∈ f.instrsAt b) (code : f.opcode? v = some o) (repeats : f.Repeats x o)
    (int32 : f.type? x = some .int32) (moved : f.moveUses v x = .ok (f₁, n))
    (detached : f₁.detach v = .ok f')

/-- Each edit keeps a procedure intact and without betas, and repairs no phi cut off from its own value. -/
theorem Truncates.intact (edit : Truncates g f f') (h : f.Intact g) :
    f'.Intact g ∧ (f.BetaFree → f'.BetaFree) ∧ (f'.WellFormed g → f.WellFormed g) := by
  cases edit with
  | makes hv code typed number _ run =>
    obtain ⟨intact, back, free, -⟩ := makeInt32_spec h hv code typed number run
    exact ⟨intact, free, back⟩
  | notes same =>
    exact ⟨h.of_sameCode same, fun free => free.of_sameCode same, same.symm.wellFormed⟩
  | collapses hv code repeats int32 moved detached =>
    have exists_x := h.structured.operands _ _ code _ repeats.mem_operands
    exact ⟨h.collapse hv code repeats.mem_operands (fun _ => isTestable_of_isNumber int32 rfl) moved detached,
      (collapsed h.structured hv exists_x moved detached).betaFree,
      h.wellFormed_before fun fed => fed.collapse h.structured hv exists_x moved detached⟩

/-- The second procedure comes from the first one by edits of the truncation. -/
def Truncated (g : FlowGraph) : Procedure → Procedure → Prop := Relation.ReflTransGen (Truncates g)

/-- Edits of the truncation keep a procedure intact and without betas. -/
theorem Truncated.intact (h : Truncated g f f') (was : f.Intact g) :
    f'.Intact g ∧ (f.BetaFree → f'.BetaFree) := by
  induction h with
  | refl => exact ⟨was, id⟩
  | tail _ edit ih =>
    obtain ⟨intact, free, -⟩ := edit.intact ih.1
    exact ⟨intact, fun free₀ => free (ih.2 free₀)⟩

/-- The users of a value exist, and those that convert to int32 convert this value. -/
def ConvertedBy (f : Procedure) (v : ValueId) (uses : List Use) : Prop :=
  ∀ user index, Use.operand user index ∈ uses → user < f.values.size ∧
    ∀ x, f.opcode? user = some (.unary .toInt32 x) → x = v

/-- An operand among the uses that given values make is an operand of its user. -/
theorem operandUses_spec (run : f.operandUses l = .ok uses) {v user : ValueId}
    (mem : (v, Use.operand user index) ∈ uses) :
    user ∈ l ∧ ∃ o, f.opcode? user = some o ∧ v ∈ o.operands := by
  induction l generalizing uses with
  | nil =>
    obtain rfl : [] = uses := by simpa [operandUses] using run
    cases mem
  | cons w rest ih =>
    simp only [operandUses, bind_eq_ok, pure_eq_ok] at run
    obtain ⟨o, op, others, ran, rfl⟩ := run
    rcases List.mem_append.mp mem with own | other
    · simp only [List.mem_map, Prod.exists, Prod.mk.injEq, Use.operand.injEq] at own
      obtain ⟨used, i, zip, rfl, rfl, -⟩ := own
      exact ⟨List.mem_cons_self, o, opcode_eq_ok.mp op, List.fst_mem_of_mem_zipIdx zip⟩
    · obtain ⟨listed, reads⟩ := ih ran other
      exact ⟨List.mem_cons_of_mem _ listed, reads⟩

/-- An operand among the uses in given blocks is an operand of its user, which is listed there. -/
theorem blockUses_spec {blocks : List Block} (run : f.blockUses blocks = .ok uses) {v user : ValueId}
    (mem : (v, Use.operand user index) ∈ uses) :
    user ∈ blocks.flatMap Block.members ∧ ∃ o, f.opcode? user = some o ∧ v ∈ o.operands := by
  induction blocks generalizing uses with
  | nil =>
    obtain rfl : [] = uses := by simpa [blockUses] using run
    cases mem
  | cons block rest ih =>
    simp only [blockUses, bind_eq_ok, pure_eq_ok] at run
    obtain ⟨own, ranOwn, others, ran, rfl⟩ := run
    rw [List.flatMap_cons, List.mem_append]
    rcases List.mem_append.mp mem with here | other
    · rcases List.mem_append.mp here with operand | terminator
      · obtain ⟨listed, reads⟩ := operandUses_spec ranOwn operand
        exact ⟨.inl listed, reads⟩
      · simp at terminator
    · obtain ⟨listed, reads⟩ := ih ran other
      exact ⟨.inr listed, reads⟩

/-- The uses found in a procedure are the uses of what they are listed with. -/
theorem uses_convertedBy (s : f.Structured) (run : f.uses = .ok uses) (v : ValueId) :
    f.ConvertedBy v (usesOf uses v) := by
  intro user index mem
  obtain ⟨listed, o, op, reads⟩ := blockUses_spec run (mem_usesOf.mp mem)
  obtain ⟨b, member⟩ := mem_listed.mp listed
  refine ⟨s.lt_size_of_mem member, fun x converts => ?_⟩
  rw [op, Option.some.injEq] at converts
  subst converts
  exact (List.mem_singleton.mp reads).symm

/-- Replacing conversions of an int32 value by the value collapses them. -/
theorem absorbConversions_truncated {uses : List Use} (h : f.Intact g) (int32 : f.type? v = some .int32)
    (arithmetic : ∃ op l r flags, f.opcode? v = some (.binary op l r flags))
    (converted : f.ConvertedBy v uses) (run : absorbConversions v uses f = .ok f') : Truncated g f f' := by
  induction uses generalizing f with
  | nil =>
    obtain rfl : f = f' := by simpa [absorbConversions] using run
    exact .refl
  | cons use rest ih =>
    have others : f.ConvertedBy v rest := fun user index mem =>
      converted user index (List.mem_cons_of_mem _ mem)
    cases use with
    | terminator b => exact ih h int32 arithmetic others run
    | operand user index =>
      obtain ⟨value, found, run⟩ := bind_eq_ok.mp run
      rw [value_eq_ok] at found
      split at run
      · next input b converts stands =>
        simp only [bind_eq_ok, Prod.exists] at run
        obtain ⟨f₁, n, moved, f₂, detached, run⟩ := run
        have op : f.opcode? user = some (.unary .toInt32 input) := by
          rw [opcode?_of_value found, converts]
        obtain rfl := (converted user index List.mem_cons_self).2 input op
        have hu : user ∈ f.instrsAt b :=
          h.structured.mem_instrsAt_of_home h.listed ((home?_of_value found).trans stands) op rfl
        have edit : Truncates g f f₂ := .collapses hu op .conversion int32 moved detached
        have collapsed := collapsed h.structured hu
          (h.structured.operands user _ op input (Repeats.mem_operands (f := f) .conversion)) moved detached
        obtain ⟨binary, l, r, flags, opV⟩ := arithmetic
        have other : input ≠ user := by
          rintro rfl
          rw [op] at opV
          cases opV
        have left : f₂.ConvertedBy input rest := by
          intro user' index' mem
          obtain ⟨exists_user, only⟩ := others user' index' mem
          refine ⟨collapsed.count ▸ exists_user, fun x op' => ?_⟩
          rw [collapsed.opcode?, Option.map_eq_some_iff] at op'
          obtain ⟨o, was, becomes⟩ := op'
          obtain ⟨y, rfl, rfl⟩ := Opcode.rename_eq_unary becomes
          obtain rfl := only y was
          exact (movedUses_cases f user y user' y).resolve_right fun is_user => other is_user.1
        exact .head edit (ih (edit.intact h).1 ((collapsed.type? input).trans int32)
          ⟨binary, _, _, flags, by rw [collapsed.opcode?, opV]; rfl⟩ left run)
      · exact ih h int32 arithmetic others run

/-- What narrowing does and when: the double sum, difference or product of int32 operands is an int32
by its range, it is no product that may be negative zero, and it is made an int32 operation. -/
theorem narrow?_cases {uses : List Use} (run : f.narrow? g v uses = .ok (some f')) :
    ∃ op lhs rhs flags range l r, f.opcode? v = some (.binary op lhs rhs flags) ∧
      f.type? v = some .double ∧ f.range? v = some range ∧ op.isRing = true ∧ range.isInt32 = true ∧
      f.rangeRead lhs = .ok l ∧ f.rangeRead rhs = .ok r ∧ l.isInt32 = true ∧ r.isInt32 = true ∧
      (op = .mul → l.mayMulToNegativeZero r = false) ∧
      f.makeInt32 g v op lhs rhs .exact = .ok f' := by
  obtain ⟨value, found, run⟩ := bind_eq_ok.mp run
  rw [value_eq_ok] at found
  split at run
  · next op lhs rhs flags range binary ranged =>
    have code : f.opcode? v = some (.binary op lhs rhs flags) := by
      rw [opcode?_of_value found, binary]
    split at run
    · next double =>
      obtain ⟨l, readL, run⟩ := bind_eq_ok.mp run
      obtain ⟨r, readR, run⟩ := bind_eq_ok.mp run
      split at run
      · cases pure_eq_ok.mp run
      · next fits =>
        simp only [Bool.or_eq_true, Bool.not_eq_true', Bool.and_eq_true, beq_iff_eq, not_or,
          Bool.not_eq_false, not_and, Bool.not_eq_true] at fits
        obtain ⟨accepted, -, run⟩ := bind_eq_ok.mp run
        cases accepted with
        | true =>
          obtain ⟨made, making, run⟩ := bind_eq_ok.mp run
          obtain rfl := Option.some.inj (pure_eq_ok.mp run)
          exact ⟨op, lhs, rhs, flags, range, l, r, code, by rw [type?_of_value found, double.1],
            by rw [range?_of_value found, ranged], double.2.1, double.2.2, readL, readR, fits.1.1,
            fits.1.2, fits.2, making⟩
        | false => cases pure_eq_ok.mp run
    · cases pure_eq_ok.mp run
  · cases pure_eq_ok.mp run

/-- Narrowing a value makes it an int32. -/
theorem narrow?_truncates {uses : List Use} (h : f.Intact g) (home : f.home? v = some b)
    (run : f.narrow? g v uses = .ok (some f')) : Truncates g f f' := by
  obtain ⟨op, lhs, rhs, flags, range, l, r, code, typed, -, -, -, -, -, -, -, -, making⟩ :=
    narrow?_cases run
  exact .makes (h.structured.mem_instrsAt_of_home h.listed home code rfl) code typed rfl (.inl rfl) making

/-- Only arithmetic may be reduced modulo 2^32. -/
theorem isBitwise_of_mayWrap {range : Range} {uses : List Use}
    (h : f.mayWrap type op range uses = .ok true) : op.isBitwise = false := by
  rw [mayWrap] at h
  split at h
  · cases h
  split at h
  · next ring => exact BinaryOp.isBitwise_of_isRing ring
  split at h
  · next quotient => rcases quotient with rfl | rfl <;> rfl
  · cases h

/-- Reducing a value modulo 2^32 makes it an int32 that wraps around, and collapses conversions of it. -/
theorem wrap?_truncated {uses : List Use} (h : f.Intact g) (home : f.home? v = some b)
    (converted : f.ConvertedBy v uses) (run : f.wrap? g v uses = .ok (some f')) :
    Truncated g f f' := by
  obtain ⟨value, found, run⟩ := bind_eq_ok.mp run
  rw [value_eq_ok] at found
  split at run
  · next op lhs rhs flags range binary _ =>
    have code : f.opcode? v = some (.binary op lhs rhs flags) := by
      rw [opcode?_of_value found, binary]
    split at run
    · next applies =>
      obtain ⟨accepted, mayWrap, run⟩ := bind_eq_ok.mp run
      cases accepted with
      | true =>
        simp only [if_true, bind_eq_ok, pure_eq_ok, Option.some.injEq] at run
        obtain ⟨made, making, wrapped, -, absorbed, absorbing, rfl⟩ := run
        have hv := h.structured.mem_instrsAt_of_home h.listed home code rfl
        have typed := type?_of_value found
        obtain ⟨intact, -, -, ⟨l, r, recoded⟩, int32, count, rest⟩ :=
          makeInt32_spec h hv code typed applies.1 making
        have same : SameCode made (made.setRange v (some wrapped)) := sameCode_setRange v _
        refine .head (.makes hv code typed applies.1 (.inr ⟨isBitwise_of_mayWrap mayWrap, applies.2, rfl⟩)
          making) (.head (.notes same) (absorbConversions_truncated (intact.of_sameCode same)
            (by rw [same.type?, int32]) ⟨op, l, r, .wraps, by rw [same.opcode?, recoded]⟩ ?_ absorbing))
        intro user index mem
        obtain ⟨exists_user, only⟩ := converted user index mem
        refine ⟨same.layout.valueCount ▸ Nat.lt_of_lt_of_le exists_user count, fun x op' => ?_⟩
        rw [same.opcode?] at op'
        by_cases own : user = v
        · rw [own, recoded] at op'
          cases op'
        · exact only x (rest user exists_user own ▸ op')
      | false => cases pure_eq_ok.mp run
    · cases pure_eq_ok.mp run
  · cases pure_eq_ok.mp run

end Procedure

namespace Session

open Procedure

variable {s t : Session} {l : List ValueId}

/-- Moving one value to int32 consists of edits of the truncation. -/
theorem toInt32?_truncated {b : BlockId} {v : ValueId} {uses : List Use}
    (h : s.procedure.Intact s.graph) (home : s.procedure.home? v = some b)
    (converted : s.procedure.ConvertedBy v uses) (run : s.toInt32? v uses = .ok (some t)) :
    Truncated s.graph s.procedure t.procedure ∧ t.graph = s.graph := by
  obtain ⟨narrowed, narrowing, run⟩ := bind_eq_ok.mp run
  cases narrowed with
  | some f =>
    obtain rfl := Option.some.inj (pure_eq_ok.mp run)
    exact ⟨.single (narrow?_truncates h home narrowing), rfl⟩
  | none =>
    obtain ⟨wrapped, wrapping, run⟩ := bind_eq_ok.mp run
    cases wrapped with
    | some f =>
      obtain rfl := Option.some.inj (pure_eq_ok.mp run)
      exact ⟨wrap?_truncated h home converted wrapping, rfl⟩
    | none => cases pure_eq_ok.mp run

/-- Moving values to int32 in turn consists of edits of the truncation. -/
theorem narrowAll_truncated {uses : List (ValueId × Use)} {before after : Bool}
    (h : s.procedure.Intact s.graph) (converted : ∀ v, s.procedure.ConvertedBy v (usesOf uses v))
    (run : narrowAll l uses (s, before) = .ok (t, after)) :
    Truncated s.graph s.procedure t.procedure ∧ t.graph = s.graph := by
  induction l generalizing s uses before with
  | nil =>
    obtain ⟨rfl, -⟩ := Prod.mk.inj (Except.ok.inj run)
    exact ⟨.refl, rfl⟩
  | cons v rest ih =>
    obtain ⟨value, found, run⟩ := bind_eq_ok.mp run
    rw [value_eq_ok] at found
    split at run
    · exact ih h converted run
    · next placed =>
      obtain ⟨b, stands⟩ := Option.ne_none_iff_exists'.mp (by simpa using placed)
      have home : s.procedure.home? v = some b := by rw [home?_of_value found, stands]
      obtain ⟨moved, moving, run⟩ := bind_eq_ok.mp run
      cases moved with
      | none => exact ih h converted run
      | some u =>
        obtain ⟨uses', finding, run⟩ := bind_eq_ok.mp run
        obtain ⟨edits, graph⟩ := toInt32?_truncated h home (converted v) moving
        have intact : u.procedure.Intact u.graph := graph ▸ (edits.intact h).1
        obtain ⟨later, same⟩ := ih intact (uses_convertedBy intact.structured finding) run
        exact ⟨edits.trans (graph ▸ later), same.trans graph⟩

/-- Removing bitwise identities collapses them. -/
theorem foldBitops_truncated (h : s.procedure.Intact s.graph) (run : foldBitops l s = .ok t) :
    Truncated s.graph s.procedure t.procedure ∧ t.graph = s.graph := by
  induction l generalizing s with
  | nil =>
    obtain rfl := Except.ok.inj run
    exact ⟨.refl, rfl⟩
  | cons v rest ih =>
    obtain ⟨value, found, run⟩ := bind_eq_ok.mp run
    rw [value_eq_ok] at found
    split at run
    · next op lhs rhs flags binary =>
      split at run
      · next placed =>
        obtain ⟨left, constL, run⟩ := bind_eq_ok.mp run
        obtain ⟨right, constR, run⟩ := bind_eq_ok.mp run
        split at run
        · exact ih h run
        · next x identity =>
          obtain ⟨type, typed, run⟩ := bind_eq_ok.mp run
          split at run
          · next int32 =>
            simp only [bind_eq_ok, Prod.exists] at run
            obtain ⟨f₁, n, moved, f₂, detached, run⟩ := run
            obtain ⟨b, stands⟩ := Option.isSome_iff_exists.mp placed.2
            have code : s.procedure.opcode? v = some (.binary op lhs rhs flags) := by
              rw [opcode?_of_value found, binary]
            have hv := h.structured.mem_instrsAt_of_home h.listed
              ((home?_of_value found).trans stands) code rfl
            simp only [typeOf, bind_eq_ok, pure_eq_ok] at typed
            obtain ⟨operand, found', rfl⟩ := typed
            have edit : Truncates s.graph s.procedure f₂ :=
              .collapses hv code (.identity constL constR identity)
                (int32 ▸ type?_of_value (value_eq_ok.mp found')) moved detached
            obtain ⟨later, graph⟩ := @ih { s with procedure := f₂, stats := _ } (edit.intact h).1 run
            exact ⟨.head edit later, graph⟩
          · exact ih h run
      · exact ih h run
    · exact ih h run

/-- Truncation consists of its edits. -/
theorem truncate_truncated (h : s.procedure.Intact s.graph) (run : s.truncate = .ok t) :
    Truncated s.graph s.procedure t.procedure ∧ t.graph = s.graph := by
  obtain ⟨u, settled, run⟩ := bind_eq_ok.mp run
  have keep : ∀ s₁ s₂ changed, (Truncated s.graph s.procedure s₁.procedure ∧ s₁.graph = s.graph) →
      narrowPass s₁ = .ok (s₂, changed) →
      Truncated s.graph s.procedure s₂.procedure ∧ s₂.graph = s.graph := by
    rintro s₁ s₂ changed ⟨edits, graph⟩ step
    obtain ⟨uses, finding, step⟩ := bind_eq_ok.mp step
    have intact : s₁.procedure.Intact s₁.graph := graph ▸ (edits.intact h).1
    obtain ⟨later, same⟩ := narrowAll_truncated intact (uses_convertedBy intact.structured finding) step
    exact ⟨edits.trans (graph ▸ later), same.trans graph⟩
  obtain ⟨last, holds, step⟩ := settle_invariant _ keep ⟨.refl, rfl⟩ settled
  obtain ⟨edits, graph⟩ := keep last u false holds step
  obtain ⟨later, same⟩ := foldBitops_truncated (graph ▸ (edits.intact h).1) run
  exact ⟨edits.trans (graph ▸ later), same.trans graph⟩

/-- Truncation keeps the procedure intact and without betas. -/
theorem truncate_spec (h : s.procedure.Intact s.graph) (free : s.procedure.BetaFree)
    (run : s.truncate = .ok t) :
    t.procedure.Intact t.graph ∧ t.procedure.BetaFree ∧ t.graph = s.graph := by
  obtain ⟨edits, graph⟩ := truncate_truncated h run
  obtain ⟨intact, still⟩ := edits.intact h
  exact ⟨graph ▸ intact, still free, graph⟩

end Session

end Rangefinder
