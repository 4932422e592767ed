import Rangefinder.Analysis.Refinement
import Rangefinder.Proofs.Procedure.Layout
import Rangefinder.Proofs.Procedure.Operands

/-!
# Renaming operands

Betas are put in and taken out by making uses of one value read another one. All these edits are of
one kind: every use of the procedure is given a renaming of its own, and nothing else changes. A
use is an instruction, a phi together with the block that an input comes from, or a terminator.
`Renaming` states that one procedure is the other one with its uses renamed; a renamed procedure is
well-formed when every use reads a value that is computed at its place. `moveUses` and the
redirection to a beta are renamings, and the lemmas about them say which uses they change.
-/

namespace Rangefinder

/-- The opcode with its operands renamed; the inputs of a phi by the block that they come from. -/
def Opcode.rename (ρ : ValueId → ValueId) (π : BlockId → ValueId → ValueId) : Opcode → Opcode
  | phi inputs => phi (inputs.map fun input => (π input.2 input.1, input.2))
  | o => o.mapOperands ρ

namespace Opcode

variable {ρ : ValueId → ValueId} {π : BlockId → ValueId → ValueId} {o : Opcode}

/-- Renaming nothing. -/
theorem rename_id : o.rename id (fun _ => id) = o := by
  cases o <;> simp [rename, mapOperands]

/-- An opcode other than a phi that reads what it read before is what it was. -/
theorem rename_eq_self (kind : o.isPhi = false) (same : ∀ x, ρ x = x) : o.rename ρ π = o := by
  obtain rfl : ρ = id := funext same
  cases o with
  | phi inputs => cases kind
  | _ => simp [rename, mapOperands]

/-- Renaming twice. -/
theorem rename_rename {ρ' : ValueId → ValueId} {π' : BlockId → ValueId → ValueId} :
    (o.rename ρ π).rename ρ' π' = o.rename (ρ' ∘ ρ) (fun q => π' q ∘ π q) := by
  cases o <;> simp [rename, mapOperands]

/-- Mapping operands renames alike. -/
theorem mapOperands_eq_rename : o.mapOperands ρ = o.rename ρ (fun _ => ρ) := by
  cases o <;> rfl

/-- Phis stay phis. -/
theorem isPhi_rename : (o.rename ρ π).isPhi = o.isPhi := by
  cases o <;> rfl

/-- Betas stay betas. -/
theorem isBeta_rename : (o.rename ρ π).isBeta = o.isBeta := by
  cases o <;> rfl

/-- Only phis are renamed to phis. -/
theorem rename_eq_phi {inputs : List (ValueId × BlockId)} (h : o.rename ρ π = .phi inputs) :
    ∃ old, o = .phi old ∧ inputs = old.map fun input => (π input.2 input.1, input.2) := by
  cases o with
  | phi old => exact ⟨old, rfl, by simpa [rename, eq_comm] using h⟩
  | _ => simp [rename, mapOperands] at h

/-- The operands of a renamed opcode that is no phi. -/
theorem operands_rename (h : o.isPhi = false) :
    (o.rename ρ π).operands = o.operands.map ρ := by
  cases o with
  | phi old => simp [isPhi] at h
  | _ => simp [rename, mapOperands, operands]

/-- Where an operand of a renamed opcode comes from. -/
theorem mem_operands_rename {x' : ValueId} (h : x' ∈ (o.rename ρ π).operands) :
    ∃ x ∈ o.operands, x' = ρ x ∨ ∃ q, x' = π q x := by
  cases kind : o.isPhi with
  | false =>
    rw [operands_rename kind] at h
    obtain ⟨x, hx, rfl⟩ := List.mem_map.mp h
    exact ⟨x, hx, .inl rfl⟩
  | true =>
    cases o with
    | phi inputs =>
      simp only [rename, operands, List.map_map, List.mem_map, Function.comp] at h
      obtain ⟨i, hi, rfl⟩ := h
      exact ⟨i.1, List.mem_map_of_mem hi, .inr ⟨i.2, rfl⟩⟩
    | _ => simp [isPhi] at kind

end Opcode

/-- Mapping by the identity. -/
theorem Terminator.mapOperand_id {t : Terminator} : t.mapOperand id = t := by
  cases t <;> simp [mapOperand]

/-- Mapping twice. -/
theorem Terminator.mapOperand_mapOperand {t : Terminator} {τ τ' : ValueId → ValueId} :
    (t.mapOperand τ).mapOperand τ' = t.mapOperand (τ' ∘ τ) := by
  cases t <;> simp [mapOperand]

/-- The operand is mapped. -/
theorem Terminator.operand_mapOperand {t : Terminator} {τ : ValueId → ValueId} :
    (t.mapOperand τ).operand = t.operand.map τ := by
  cases t <;> simp [mapOperand, operand]

/-- Targets are kept. -/
theorem Terminator.successors_mapOperand {t : Terminator} {τ : ValueId → ValueId} :
    (t.mapOperand τ).successors = t.successors := by
  cases t <;> rfl

namespace Procedure

/-- The second procedure is the first one with its uses renamed: those of an instruction by `ρ`,
those of a phi by `π`, and that of a terminator by `τ`. -/
structure Renaming (f f' : Procedure) (ρ : ValueId → ValueId → ValueId)
    (π : ValueId → BlockId → ValueId → ValueId) (τ : BlockId → ValueId → ValueId) : Prop where
  entry : f'.entry = f.entry
  values : ∀ v : ValueId, f'.values[v]? = (f.values[v]?).map fun value =>
    { value with opcode := value.opcode.rename (ρ v) (π v) }
  blocks : ∀ b : BlockId, f'.blocks[b]? = (f.blocks[b]?).map fun block =>
    { block with terminator := block.terminator.mapOperand (τ b) }

namespace Renaming

variable {f f' f'' : Procedure} {g : FlowGraph} {ρ ρ' : ValueId → ValueId → ValueId}
  {π π' : ValueId → BlockId → ValueId → ValueId} {τ τ' : BlockId → ValueId → ValueId} {old new : ValueId}

/-- Nothing is renamed. -/
theorem refl : Renaming f f (fun _ => id) (fun _ _ => id) (fun _ => id) where
  entry := rfl
  values v := by cases f.values[v]? <;> simp [Opcode.rename_id]
  blocks b := by cases f.blocks[b]? <;> simp [Terminator.mapOperand_id]

/-- Renamings compose. -/
theorem trans (h : Renaming f f' ρ π τ) (h' : Renaming f' f'' ρ' π' τ') :
    Renaming f f'' (fun v => ρ' v ∘ ρ v) (fun v q => π' v q ∘ π v q) (fun b => τ' b ∘ τ b) where
  entry := h'.entry.trans h.entry
  values v := by
    rw [h'.values, h.values, Option.map_map]
    simp only [Function.comp_def, Opcode.rename_rename]
  blocks b := by
    rw [h'.blocks, h.blocks, Option.map_map]
    simp only [Function.comp_def, Terminator.mapOperand_mapOperand]

/-- Renaming keeps the layout. -/
theorem layout (h : Renaming f f' ρ π τ) : SameLayout f f' where
  entry := h.entry
  blocks b := by
    rw [h.blocks, Option.map_map]
    cases f.blocks[b]? <;> simp [Block.layout, Terminator.successors_mapOperand]
  values v := by
    rw [h.values, Option.map_map]
    cases f.values[v]? <;> simp [Value.layout, Opcode.isPhi_rename]

/-- Opcodes are renamed. -/
theorem opcode? (h : Renaming f f' ρ π τ) (v : ValueId) :
    f'.opcode? v = (f.opcode? v).map (Opcode.rename (ρ v) (π v)) := by
  rw [Procedure.opcode?, Procedure.opcode?, h.values, Option.map_map, Option.map_map]
  rfl

/-- Types are kept. -/
theorem type? (h : Renaming f f' ρ π τ) (v : ValueId) : f'.type? v = f.type? v := by
  rw [Procedure.type?, Procedure.type?, h.values, Option.map_map]
  rfl

/-- Terminators are renamed. -/
theorem terminator? (h : Renaming f f' ρ π τ) (b : BlockId) :
    f'.terminator? b = (f.terminator? b).map (Terminator.mapOperand (τ b)) := by
  rw [Procedure.terminator?, Procedure.terminator?, h.blocks, Option.map_map, Option.map_map]
  rfl

/-- Renaming the inputs of a phi keeps the blocks that they come from. -/
theorem sources (h : Renaming f f' ρ π τ) {v : ValueId} {inputs' : List (ValueId × BlockId)}
    (found : f'.opcode? v = some (.phi inputs')) :
    ∃ inputs, f.opcode? v = some (.phi inputs) ∧ inputs'.map Prod.snd = inputs.map Prod.snd := by
  rw [h.opcode?, Option.map_eq_some_iff] at found
  obtain ⟨o, found, renamed⟩ := found
  obtain ⟨inputs, rfl, rfl⟩ := Opcode.rename_eq_phi renamed
  exact ⟨inputs, found, by simp⟩

/-- A renaming that sends some uses of `old` to `new` and leaves all other uses alone keeps a
procedure structured. -/
theorem structured (h : Renaming f f' ρ π τ) (s : f.Structured) (exists_new : new < f.values.size)
    (hρ : ∀ v x, ρ v x = x ∨ x = old ∧ ρ v x = new)
    (hπ : ∀ p q x, π p q x = x ∨ x = old ∧ π p q x = new)
    (hτ : ∀ b x, τ b x = x ∨ x = old ∧ τ b x = new) : f'.Structured := by
  refine s.of_sameLayout h.layout ?_ (fun _ _ => h.sources) ?_
  · intro v o' found x' hx'
    rw [h.opcode?, Option.map_eq_some_iff] at found
    obtain ⟨o, found, rfl⟩ := found
    obtain ⟨x, hx, rfl | ⟨q, rfl⟩⟩ := Opcode.mem_operands_rename hx'
    · rcases hρ v x with same | ⟨-, moved⟩
      · rw [same]; exact s.operands v o found x hx
      · rw [moved]; exact exists_new
    · rcases hπ v q x with same | ⟨-, moved⟩
      · rw [same]; exact s.operands v o found x hx
      · rw [moved]; exact exists_new
  · intro b t' found x' hx'
    rw [h.terminator?, Option.map_eq_some_iff] at found
    obtain ⟨t, found, rfl⟩ := found
    rw [Terminator.operand_mapOperand] at hx'
    obtain ⟨x, hx, rfl⟩ := Option.map_eq_some_iff.mp hx'
    rcases hτ b x with same | ⟨-, moved⟩
    · rw [same]; exact s.results b t found x hx
    · rw [moved]; exact exists_new

/-- A renaming that sends some uses of `old` to `new` and leaves all other uses alone keeps a
procedure well-formed, if `new` is computed wherever a use is sent to it. -/
theorem wellFormed (h : Renaming f f' ρ π τ) (wf : f.WellFormed g) (exists_new : new < f.values.size)
    (hρ : ∀ v x, ρ v x = x ∨ x = old ∧ ρ v x = new)
    (hπ : ∀ p q x, π p q x = x ∨ x = old ∧ π p q x = new)
    (hτ : ∀ b x, τ b x = x ∨ x = old ∧ τ b x = new)
    (instr : ∀ b ∈ g.order, ∀ before v after, f.instrsAt b = before ++ v :: after → ρ v old = new →
      f.Readable g b (f.phisAt b ++ before) old → f.Readable g b (f.phisAt b ++ before) new)
    (input : ∀ p q, g.isReachable q = true → π p q old = new → f.DefinedAtEnd g old q →
      f.DefinedAtEnd g new q)
    (result : ∀ b ∈ g.order, τ b old = new → f.Readable g b (f.membersAt b) old →
      f.Readable g b (f.membersAt b) new) : f'.WellFormed g := by
  have s := wf.structured
  refine wf.of_sameLayout h.layout (h.structured s exists_new hρ hπ hτ) (fun _ _ => h.sources)
    ?_ ?_ ?_
  · intro b hb p hp inputs' found i' hi' reachable
    rw [h.opcode?, Option.map_eq_some_iff] at found
    obtain ⟨o, found, renamed⟩ := found
    obtain ⟨inputs, rfl, rfl⟩ := Opcode.rename_eq_phi renamed
    obtain ⟨i, hi, rfl⟩ := List.mem_map.mp hi'
    have defined := ((wf.uses b hb).inputs p hp inputs found i hi).2 reachable
    rcases hπ p i.2 i.1 with same | ⟨isOld, moved⟩
    · simpa only [same] using defined
    · rw [isOld] at moved defined
      simpa only [isOld, moved] using input p i.2 reachable moved defined
  · intro b hb before v after split o' found x' hx'
    rw [h.opcode?, Option.map_eq_some_iff] at found
    obtain ⟨o, found, rfl⟩ := found
    have phi : o.isPhi = false := by
      rw [← isPhi_eq found]
      exact (s.instrs b v (by simp [split])).1
    rw [Opcode.operands_rename phi] at hx'
    obtain ⟨x, hx, rfl⟩ := List.mem_map.mp hx'
    have read := (wf.uses b hb).reads before v after split o found x hx
    rcases hρ v x with same | ⟨rfl, moved⟩
    · rw [same]; exact read
    · rw [moved]; exact instr b hb before v after split moved read
  · intro b hb t' found x' hx'
    rw [h.terminator?, Option.map_eq_some_iff] at found
    obtain ⟨t, found, rfl⟩ := found
    rw [Terminator.operand_mapOperand] at hx'
    obtain ⟨x, hx, rfl⟩ := Option.map_eq_some_iff.mp hx'
    have read := (wf.uses b hb).result t found x hx
    rcases hτ b x with same | ⟨rfl, moved⟩
    · rw [same]; exact read
    · rw [moved]; exact result b hb moved read

/-- Renaming the operands of one value. -/
theorem modifyValue (f : Procedure) (user : ValueId) (σ : ValueId → ValueId) :
    Renaming f
      (f.modifyValue user fun value => { value with opcode := value.opcode.mapOperands σ })
      (fun v => if v = user then σ else id) (fun v _ => if v = user then σ else id)
      (fun _ => id) where
  entry := rfl
  values v := by
    simp only [Procedure.modifyValue, Array.getElem?_modify, eq_comm]
    split
    · simp only [Opcode.mapOperands_eq_rename]
    · simp [Opcode.rename_id]
  blocks b := by simp [Procedure.modifyValue, Terminator.mapOperand_id]

/-- Renaming the operands of one value that is no phi. -/
theorem modifyInstr {user : ValueId} (kind : f.isPhi user = false) (σ : ValueId → ValueId) :
    Renaming f
      (f.modifyValue user fun value => { value with opcode := value.opcode.mapOperands σ })
      (fun v => if v = user then σ else id) (fun _ _ => id) (fun _ => id) where
  entry := rfl
  values v := by
    simp only [Procedure.modifyValue, Array.getElem?_modify, eq_comm]
    split
    · next own =>
      subst own
      cases found : f.values[user]? with
      | none => rfl
      | some value =>
        have : value.opcode.isPhi = false := by simpa [Procedure.isPhi, found] using kind
        cases h : value.opcode <;> simp_all [Opcode.isPhi, Opcode.rename]
    · simp [Opcode.rename_id]
  blocks b := by simp [Procedure.modifyValue, Terminator.mapOperand_id]

/-- Renaming the inputs of one phi. -/
theorem modifyPhi {p : ValueId} {inputs : List (ValueId × BlockId)}
    (op : f.opcode? p = some (.phi inputs)) (σ : BlockId → ValueId → ValueId) :
    Renaming f
      (f.modifyValue p fun value =>
        { value with opcode := .phi (inputs.map fun i => (σ i.2 i.1, i.2)) })
      (fun _ => id) (fun v => if v = p then σ else fun _ => id) (fun _ => id) where
  entry := rfl
  values v := by
    simp only [Procedure.modifyValue, Array.getElem?_modify, eq_comm]
    split
    · next own =>
      subst own
      obtain ⟨value, found, kind⟩ := Option.map_eq_some_iff.mp op
      simp [found, kind, Opcode.rename]
    · simp [Opcode.rename_id]
  blocks b := by simp [Procedure.modifyValue, Terminator.mapOperand_id]

/-- Renaming the operand of one terminator. -/
theorem modifyTerminator (f : Procedure) (c : BlockId) (σ : ValueId → ValueId) :
    Renaming f
      (f.modifyBlock c fun block => { block with terminator := block.terminator.mapOperand σ })
      (fun _ => id) (fun _ _ => id) (fun b => if b = c then σ else id) where
  entry := rfl
  values v := by simp [Procedure.modifyBlock, Opcode.rename_id]
  blocks b := by
    simp only [Procedure.modifyBlock, Array.getElem?_modify, eq_comm]
    split
    · rfl
    · simp [Terminator.mapOperand_id]

/-- All terminators may be renamed at once. -/
theorem mapTerminators (f : Procedure) (σ : ValueId → ValueId) :
    Renaming f
      { f with blocks := f.blocks.map fun block =>
          { block with terminator := block.terminator.mapOperand σ } }
      (fun _ => id) (fun _ _ => id) (fun _ => σ) where
  entry := rfl
  values v := by simp [Opcode.rename_id]
  blocks b := Array.getElem?_map

end Renaming

variable {f f' : Procedure} {g : FlowGraph} {old beta : ValueId} {l : List ValueId} {dom : BlockId}
  {n : Nat} {v : ValueId}

/-- A value is listed when it is a member of a block. -/
theorem mem_listed : v ∈ f.listed ↔ ∃ b, v ∈ f.membersAt b := by
  simp only [listed, List.mem_flatMap, Array.mem_toList_iff, Array.mem_iff_getElem?, membersAt,
    List.mem_append, mem_phisAt, mem_instrsAt, Block.members]
  constructor
  · rintro ⟨block, ⟨b, hb⟩, mem | mem⟩
    · exact ⟨b, .inl ⟨block, hb, mem⟩⟩
    · exact ⟨b, .inr ⟨block, hb, mem⟩⟩
  · rintro ⟨b, ⟨block, hb, mem⟩ | ⟨block, hb, mem⟩⟩
    · exact ⟨block, ⟨b, hb⟩, .inl mem⟩
    · exact ⟨block, ⟨b, hb⟩, .inr mem⟩

/-- The members of a block stand in it. -/
theorem Structured.home_of_mem (s : f.Structured) {b : BlockId} (mem : v ∈ f.membersAt b) :
    f.home? v = some b := by
  rcases List.mem_append.mp mem with mem | mem
  · exact (s.phis b v mem).2
  · exact (s.instrs b v mem).2

/-- No value is listed twice. -/
theorem Structured.nodup_listed (s : f.Structured) : f.listed.Nodup := by
  have members : ∀ (b : Nat) (hb : b < f.blocks.toList.length),
      f.membersAt b = f.blocks.toList[b].members := by
    intro b hb
    have lt : b < f.blocks.size := by simpa using hb
    simp [membersAt, phisAt, instrsAt, Block.members, lt]
  rw [listed, List.nodup_flatMap]
  constructor
  · intro block mem
    obtain ⟨b, hb, rfl⟩ := List.getElem_of_mem mem
    rw [← members b hb]
    exact s.nodup b
  · rw [List.pairwise_iff_getElem]
    intro b c hb hc lt v inB inC
    rw [← members b hb] at inB
    rw [← members c hc] at inC
    have := (s.home_of_mem inB).symm.trans (s.home_of_mem inC)
    exact absurd (Option.some.inj this) (Nat.ne_of_lt lt)

/-- The renaming of one value in the operands of listed values other than the new one. -/
theorem renameOperands_spec {old new : ValueId} {n n' : Nat} (nodup : l.Nodup)
    (h : renameOperands old new l (f, n) = .ok (f', n')) :
    Renaming f f' (fun v => if v ∈ l ∧ v ≠ new then substitute old new else id)
      (fun v _ => if v ∈ l ∧ v ≠ new then substitute old new else id) (fun _ => id) := by
  induction l generalizing f n with
  | nil =>
    obtain ⟨rfl, -⟩ : f = f' ∧ n = n' := by simpa [renameOperands] using h
    simpa using Renaming.refl
  | cons user rest ih =>
    rw [renameOperands_cons] at h
    rw [List.nodup_cons] at nodup
    split at h
    · next isNew =>
      have same : ∀ v, (v ∈ user :: rest ∧ v ≠ new) = (v ∈ rest ∧ v ≠ new) := by
        intro v
        subst isNew
        simp +contextual [List.mem_cons]
      simpa only [same] using ih nodup.2 h
    · next other =>
      obtain ⟨opcode, -, h⟩ := bind_eq_ok.mp h
      have step := (Renaming.modifyValue f user (substitute old new)).trans (ih nodup.2 h)
      have same : ∀ v, ((if v ∈ rest ∧ v ≠ new then substitute old new else id) ∘
          if v = user then substitute old new else id) =
            if v ∈ user :: rest ∧ v ≠ new then substitute old new else id := by
        intro v
        by_cases own : v = user
        · subst own
          simp [nodup.1, other]
        · simp [own]
      simpa only [same, Function.comp_id] using step

/-- Moving all uses of a value is a renaming of every listed value but the new one, and of every
terminator. -/
theorem moveUses_renames {old new : ValueId} (once : f.listed.Nodup)
    (h : f.moveUses old new = .ok (f', n)) :
    Renaming f f' (fun v => if v ∈ f.listed ∧ v ≠ new then substitute old new else id)
      (fun v _ => if v ∈ f.listed ∧ v ≠ new then substitute old new else id)
      (fun _ => substitute old new) := by
  rw [moveUses_eq, map_eq_ok] at h
  obtain ⟨⟨f₁, n₁⟩, renamed, same⟩ := h
  obtain ⟨rfl, -⟩ := Prod.mk.inj same
  have first := renameOperands_spec once renamed
  refine ⟨first.entry, first.values, fun b => ?_⟩
  have := first.blocks b
  simp only [Terminator.mapOperand_id, Option.map_id'] at this
  simp only [Array.getElem?_map, this]
  rfl

/-- Moving uses renames all listed users but the new value. -/
theorem moveUses_spec {old new : ValueId} (s : f.Structured) (h : f.moveUses old new = .ok (f', n)) :
    Renaming f f' (fun v => if v ∈ f.listed ∧ v ≠ new then substitute old new else id)
      (fun v _ => if v ∈ f.listed ∧ v ≠ new then substitute old new else id)
      (fun _ => substitute old new) :=
  moveUses_renames s.nodup_listed h

/-- Renaming existing values succeeds. -/
theorem renameOperands_defined {old new : ValueId} (exist : ∀ v ∈ l, v < f.values.size) :
    ∃ r, renameOperands old new l (f, n) = .ok r := by
  induction l generalizing f n with
  | nil => exact ⟨_, rfl⟩
  | cons user rest ih =>
    rw [List.forall_mem_cons] at exist
    rw [renameOperands_cons]
    split
    · exact ih exist.2
    · have code := opcode_eq_ok.mpr (opcode?_of_value (Array.getElem?_eq_getElem exist.1))
      rw [code]
      exact ih fun v hv => by simpa [modifyValue] using exist.2 v hv

/-- Uses can be moved when all listed values exist. -/
theorem moveUses_defined {old new : ValueId} (exist : ∀ v ∈ f.listed, v < f.values.size) :
    ∃ f' n, f.moveUses old new = .ok (f', n) := by
  obtain ⟨r, renamed⟩ := renameOperands_defined exist
  rw [moveUses_eq, renamed]
  exact ⟨_, _, rfl⟩

/-- The second procedure is the first one with some uses of a value in code that a block dominates
moved to a beta; an input of a phi counts as used at the end of the block that it comes from. Only
listed values are changed. -/
def Redirects (g : FlowGraph) (old beta : ValueId) (dom : BlockId) (f f' : Procedure) : Prop :=
  ∃ ρ π τ, Renaming f f' ρ π τ ∧
    (∀ v x, ρ v x = x ∨ (x = old ∧ ρ v x = beta) ∧ v ≠ beta ∧
      ∃ b, v ∈ f.instrsAt b ∧ g.dominates dom b = true) ∧
    (∀ p q x, π p q x = x ∨ (x = old ∧ π p q x = beta) ∧ g.dominates dom q = true ∧
      ∃ b, p ∈ f.phisAt b) ∧
    ∀ b x, τ b x = x ∨ (x = old ∧ τ b x = beta) ∧ g.dominates dom b = true

namespace Redirects

variable {f'' : Procedure}

/-- Nothing is redirected. -/
theorem refl : Redirects g old beta dom f f :=
  ⟨_, _, _, Renaming.refl, fun _ _ => .inl rfl, fun _ _ _ => .inl rfl, fun _ _ => .inl rfl⟩

/-- Redirections compose. -/
theorem trans (h : Redirects g old beta dom f f') (h' : Redirects g old beta dom f' f'') :
    Redirects g old beta dom f f'' := by
  obtain ⟨ρ, π, τ, first, hρ, hπ, hτ⟩ := h
  obtain ⟨ρ', π', τ', second, hρ', hπ', hτ'⟩ := h'
  refine ⟨_, _, _, first.trans second, fun v x => ?_, fun p q x => ?_, fun b x => ?_⟩
  · have next := hρ' v (ρ v x)
    simp only [first.layout.instrsAt] at next
    grind
  · have next := hπ' p q (π p q x)
    simp only [first.layout.phisAt] at next
    grind
  · have next := hτ' b (τ b x)
    grind

/-- They keep the layout. -/
theorem layout (h : Redirects g old beta dom f f') : SameLayout f f' := by
  obtain ⟨_, _, _, renamed, -⟩ := h
  exact renamed.layout

end Redirects

/-- Phis are redirected at edges below the beta. -/
theorem redirectPhis_spec {dom b : BlockId} (sub : ∀ p ∈ l, p ∈ f.phisAt b)
    (h : redirectPhis g old beta dom l f = .ok f') :
    Redirects g old beta dom f f' := by
  induction l generalizing f with
  | nil =>
    obtain rfl : f = f' := by simpa [redirectPhis] using h
    exact .refl
  | cons p rest ih =>
    rw [List.forall_mem_cons] at sub
    rw [redirectPhis, bind_eq_ok] at h
    obtain ⟨o, op, h⟩ := h
    split at h
    · next inputs =>
      let σ (q : BlockId) (x : ValueId) : ValueId :=
        if x = old ∧ g.dominates dom q = true then beta else x
      have first := Renaming.modifyPhi (opcode_eq_ok.mp op) σ
      refine .trans ?_ (ih (fun w hw => first.layout.phisAt b ▸ sub.2 w hw) h)
      refine ⟨_, _, _, first, fun _ _ => .inl rfl, fun v q x => ?_, fun _ _ => .inl rfl⟩
      by_cases own : v = p
      · simp only [own, if_true, σ]
        split
        · next both => exact .inr ⟨⟨both.1, rfl⟩, both.2, b, sub.1⟩
        · exact .inl rfl
      · simp [own]
    · exact ih sub.2 h

/-- Instructions below the beta are redirected. -/
theorem redirectInstrs_spec {dom b : BlockId} (dominated : g.dominates dom b = true)
    (sub : ∀ v ∈ l, v ∈ f.instrsAt b ∧ f.isPhi v = false) (h : redirectInstrs old beta l f = .ok f') :
    Redirects g old beta dom f f' := by
  induction l generalizing f with
  | nil =>
    obtain rfl : f = f' := by simpa [redirectInstrs] using h
    exact .refl
  | cons v rest ih =>
    rw [List.forall_mem_cons] at sub
    rw [redirectInstrs] at h
    split at h
    · exact ih sub.2 h
    · next other =>
      obtain ⟨-, -, h⟩ := bind_eq_ok.mp h
      have first := Renaming.modifyInstr sub.1.2 (substitute old beta)
      refine .trans ⟨_, _, _, first, fun w x => ?_, fun _ _ _ => .inl rfl, fun _ _ => .inl rfl⟩
        (ih ?_ h)
      · by_cases own : w = v
        · simp only [own, if_true, substitute]
          split
          · next isOld => exact .inr ⟨⟨isOld, rfl⟩, other, b, sub.1.1, dominated⟩
          · exact .inl rfl
        · simp [own]
      · intro w hw
        rw [first.layout.instrsAt, first.layout.isPhi]
        exact sub.2 w hw

/-- Redirection of the uses of a value to a beta moves uses only in code that the block of the beta
dominates. -/
theorem redirectBlocks_spec {l : List BlockId} (kinds : ∀ b, ∀ v ∈ f.instrsAt b, f.isPhi v = false)
    (h : redirectBlocks g old beta dom l f = .ok f') : Redirects g old beta dom f f' := by
  induction l generalizing f with
  | nil =>
    obtain rfl : f = f' := by simpa [redirectBlocks] using h
    exact .refl
  | cons b rest ih =>
    rw [redirectBlocks, bind_eq_ok] at h
    obtain ⟨block, found, h⟩ := h
    obtain ⟨f₁, phis, h⟩ := bind_eq_ok.mp h
    have first := redirectPhis_spec (b := b)
      (fun p hp => mem_phisAt.mpr ⟨block, block_eq_ok.mp found, hp⟩) phis
    have kinds₁ : ∀ b, ∀ v ∈ f₁.instrsAt b, f₁.isPhi v = false := by
      simpa only [first.layout.instrsAt, first.layout.isPhi] using kinds
    split at h
    · next dominated =>
      obtain ⟨f₂, instrs, h⟩ := bind_eq_ok.mp h
      have listed : f₁.instrsAt b = block.instrs := by
        rw [first.layout.instrsAt]
        simp [instrsAt, block_eq_ok.mp found]
      have second := redirectInstrs_spec dominated
        (fun v hv => ⟨listed ▸ hv, kinds₁ b v (listed ▸ hv)⟩) instrs
      have third := Renaming.modifyTerminator f₂ b (substitute old beta)
      have layout := second.layout.trans third.layout
      refine (first.trans second).trans (.trans ⟨_, _, _, third, fun _ _ => .inl rfl,
        fun _ _ _ => .inl rfl, fun c x => ?_⟩ (ih ?_ h))
      · by_cases own : c = b
        · simp only [own, if_true, substitute]
          split
          · next isOld => exact .inr ⟨⟨isOld, rfl⟩, dominated⟩
          · exact .inl rfl
        · simp [own]
      · simpa only [layout.instrsAt, layout.isPhi] using kinds₁
    · exact first.trans (ih kinds₁ h)

/-- Redirecting existing phis succeeds. -/
theorem redirectPhis_yields (exist : ∀ p ∈ l, p < f.values.size) :
    Yields (redirectPhis g old beta dom l f) fun _ => True := by
  induction l generalizing f with
  | nil => exact .ok trivial
  | cons p rest ih =>
    rw [List.forall_mem_cons] at exist
    refine (opcode_yields exist.1).bind fun o _ => ?_
    split
    · exact ih fun q hq => by simpa [modifyValue] using exist.2 q hq
    · exact ih exist.2

/-- So does redirecting instructions. -/
theorem redirectInstrs_yields (exist : ∀ v ∈ l, v < f.values.size) :
    Yields (redirectInstrs old beta l f) fun _ => True := by
  induction l generalizing f with
  | nil => exact .ok trivial
  | cons v rest ih =>
    rw [List.forall_mem_cons] at exist
    rw [redirectInstrs]
    split
    · exact ih exist.2
    · exact (value_yields exist.1).bind fun _ _ =>
        ih fun w hw => by simpa [modifyValue] using exist.2 w hw

/-- Uses can be redirected in all blocks that exist, when all that they list exists. -/
theorem redirectBlocks_yields {l : List BlockId} (kinds : ∀ b, ∀ v ∈ f.instrsAt b, f.isPhi v = false)
    (exist : ∀ b, ∀ v ∈ f.membersAt b, v < f.values.size) (inside : ∀ b ∈ l, b < f.blocks.size) :
    Yields (redirectBlocks g old beta dom l f) fun _ => True := by
  induction l generalizing f with
  | nil => exact .ok trivial
  | cons b rest ih =>
    rw [List.forall_mem_cons] at inside
    have next : ∀ f₁, SameLayout f f₁ → Yields (redirectBlocks g old beta dom rest f₁) fun _ => True := by
      intro f₁ layout
      refine ih ?_ ?_ fun c hc => layout.flow.size ▸ inside.2 c hc
      · simpa only [layout.instrsAt, layout.isPhi] using kinds
      · simpa only [layout.membersAt, layout.valueCount] using exist
    obtain ⟨block, found⟩ : ∃ block, f.blocks[b]? = some block :=
      ⟨_, Array.getElem?_eq_getElem inside.1⟩
    have phis : f.phisAt b = block.phis := by simp [phisAt, found]
    have instrs : f.instrsAt b = block.instrs := by simp [instrsAt, found]
    rw [redirectBlocks, block_eq_ok.mpr found]
    refine ((redirectPhis_yields fun p hp => exist b p ?_).of_run fun f₁ run _ => run).bind
      fun f₁ run => ?_
    · exact List.mem_append_left _ (phis ▸ hp)
    have first := redirectPhis_spec (b := b) (fun p hp => phis ▸ hp) run
    split
    · next dominated =>
      refine ((redirectInstrs_yields fun v hv => ?_).of_run fun f₂ run _ => run).bind
        fun f₂ run => ?_
      · rw [first.layout.valueCount]
        exact exist b v (List.mem_append_right _ (instrs ▸ hv))
      have second := redirectInstrs_spec (f := f₁) (b := b) dominated (fun v hv => ?_) run
      · exact next _ ((first.layout.trans second.layout).trans
          (Renaming.modifyTerminator f₂ b (substitute old beta)).layout)
      · rw [first.layout.instrsAt, first.layout.isPhi]
        exact ⟨instrs ▸ hv, kinds b v (instrs ▸ hv)⟩
    · exact next _ first.layout

end Procedure

end Rangefinder
