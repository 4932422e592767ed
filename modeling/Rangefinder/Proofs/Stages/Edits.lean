import Mathlib.Logic.Relation
import Rangefinder.Proofs.Stages.Hoisting
import Rangefinder.Proofs.Stages.Truncation

/-!
# Stages as sequences of edits

Whatever a stage does to a procedure, it does by a few kinds of edits: it places a new instruction,
renames uses, recodes or detaches something that is no phi, and notes ranges and marks. What every edit
keeps, every stage keeps, so each property of this sort is proved for one edit and holds of all stages.

An edit also leaves the symbolic bounds of every value alone. Only the analysis changes these: it
begins by taking all ranges away, and gives the phis of bounded loops new ones.
-/

namespace Rangefinder

namespace Procedure

variable {f f' f₁ : Procedure} {g : FlowGraph} {v : ValueId} {b : BlockId} {o : Opcode} {old beta : ValueId}
  {l : List ValueId} {uses : List Use} {t : ValueType} {sum : Option ValueId} {position : Nat}
  {dom : BlockId}

/-- One edit. -/
inductive Edit (f f' : Procedure) : Prop
  /-- A new instruction is placed. -/
  | place {b : BlockId} {before after : List ValueId} {o : Opcode} {t : ValueType} :
    f.Placed f' b before after o t → Edit f f'
  /-- Ranges and marks are noted, while every value keeps its symbolic bounds. -/
  | note : SameCode f f' → (∀ v id, f'.Mentions v id ↔ f.Mentions v id) → Edit f f'
  /-- Uses are renamed. -/
  | rename {ρ : ValueId → ValueId → ValueId} {π : ValueId → BlockId → ValueId → ValueId}
    {τ : BlockId → ValueId → ValueId} : Renaming f f' ρ π τ → Edit f f'
  /-- A value that is no phi becomes something else that is none. -/
  | recode {v : ValueId} {m : Value → Value} : f.isPhi v = false →
    (∀ value, (m value).id = value.id ∧ (m value).range = value.range ∧
      (m value).opcode.isPhi = false) → f' = f.modifyValue v m → Edit f f'
  /-- A value that is no phi is detached. -/
  | detach {v : ValueId} {b : BlockId} : f.isPhi v = false → f.Detached f' v b → Edit f f'

namespace Edit

/-- Values are only added. -/
theorem count (h : Edit f f') : f.values.size ≤ f'.values.size := by
  cases h with
  | place placed => exact placed.valueCount ▸ Nat.le_succ _
  | note same _ => exact same.layout.valueCount.ge
  | rename renamed => exact renamed.layout.valueCount.ge
  | recode _ _ same => simp [same, modifyValue]
  | detach _ out => exact out.valueCount.ge

/-- A value that exists is a phi after an edit if it was one before. -/
theorem isPhi (h : Edit f f') (old : v < f.values.size) : f'.isPhi v = f.isPhi v := by
  cases h with
  | place placed => rw [placed.isPhi, if_neg (Nat.ne_of_lt old)]
  | note same _ => exact same.layout.isPhi v
  | rename renamed => exact renamed.layout.isPhi v
  | @recode w m was kind same =>
    subst same
    simp only [Procedure.isPhi, modifyValue, Array.getElem?_modify]
    split
    · next own =>
      subst own
      rw [← Procedure.isPhi, was]
      cases f.values[w]? with
      | none => rfl
      | some value => exact (kind value).2.2
    · rfl
  | detach _ out => exact out.isPhi v

/-- Every value keeps its symbolic bounds. -/
theorem mentions (h : Edit f f') (v : ValueId) (id : Nat) : f'.Mentions v id ↔ f.Mentions v id := by
  have of_same : f'.range? v = f.range? v → (f'.Mentions v id ↔ f.Mentions v id) := by
    intro same
    rw [Mentions, Mentions, same]
  cases h with
  | place placed => exact of_same (placed.range? v)
  | note _ same => exact same v id
  | rename renamed => exact of_same (renamed.range? v)
  | recode _ kind same =>
    subst same
    exact of_same (range?_modifyValue fun value => (kind value).2.1)
  | detach _ out => exact of_same (out.range? v)

end Edit

/-- A sequence of edits. -/
abbrev Edits : Procedure → Procedure → Prop := Relation.ReflTransGen Edit

namespace Edits

/-- Edits remove no value. -/
theorem count (h : Edits f f') : f.values.size ≤ f'.values.size := by
  induction h with
  | refl => exact le_rfl
  | tail _ edit ih => exact ih.trans edit.count

/-- Phis stay phis. -/
theorem isPhi (h : Edits f f') (old : v < f.values.size) : f'.isPhi v = f.isPhi v := by
  induction h with
  | refl => rfl
  | tail before edit ih => exact (edit.isPhi (old.trans_le (count before))).trans ih

/-- Edits touch no symbolic bound. -/
theorem mentions (h : Edits f f') (v : ValueId) (id : Nat) : f'.Mentions v id ↔ f.Mentions v id := by
  induction h with
  | refl => rfl
  | tail _ edit ih => exact (edit.mentions v id).trans ih

end Edits

/-! ### Edits of the stages -/

/-- Placing an instruction is an edit. -/
theorem placeAt_edits (run : f.placeAt b position o t = .ok (f', v)) :
    Edits f f' :=
  .single (.place (placeAt_spec run).2.2)

/-- A new instruction may be placed together with its range. -/
theorem placeAt_refresh_edits (placed : f.placeAt b position o t = .ok (f₁, v))
    (run : f₁.refresh g v = .ok f') :
    Edits f f' := by
  refine (placeAt_edits placed).tail (.note (sameCode_refresh run) fun w id => ?_)
  rw [mentions_refresh run]
  refine ⟨And.right, fun mentions => ⟨?_, mentions⟩⟩
  rintro rfl
  -- The new instruction has no range yet.
  obtain ⟨rfl, -, spec⟩ := placeAt_spec placed
  obtain ⟨r, known, -⟩ := mentions
  rw [spec.range?, range?, Array.getElem?_eq_none le_rfl] at known
  cases known

/-- So is detaching one. -/
theorem detach_edits (kind : f.isPhi v = false) (run : f.detach v = .ok f') :
    Edits f f' := by
  obtain ⟨value, found, stands⟩ := bind_eq_ok.mp run
  cases home : value.block with
  | none =>
    rw [home] at stands
    exact pure_eq_ok.mp stands ▸ .refl
  | some b =>
    exact .single (.detach kind
      (detach_spec ((home?_of_value (value_eq_ok.mp found)).trans home) run))

/-- So is renaming operands. -/
theorem renameOperands_edits {old new : ValueId} {n n' : Nat}
    (run : renameOperands old new l (f, n) = .ok (f', n')) : Edits f f' := by
  induction l generalizing f n with
  | nil => exact (Prod.mk.inj (Except.ok.inj run)).1 ▸ .refl
  | cons user rest ih =>
    rw [renameOperands_cons] at run
    split at run
    · exact ih run
    · obtain ⟨o, -, run⟩ := bind_eq_ok.mp run
      exact .head (.rename (.modifyValue f user (substitute old new))) (ih run)

/-- So is moving uses. -/
theorem moveUses_edits {old new : ValueId} {n : Nat} (run : f.moveUses old new = .ok (f', n)) :
    Edits f f' := by
  rw [moveUses_eq, map_eq_ok] at run
  obtain ⟨⟨f₁, n₁⟩, renamed, same⟩ := run
  obtain ⟨rfl, -⟩ := Prod.mk.inj same
  exact .tail (renameOperands_edits renamed) (.rename (.mapTerminators f₁ (substitute old new)))

/-- The uses of a value that is no phi may be moved before it is detached. -/
theorem collapse_edits {v x : ValueId} {n : Nat} (code : f.opcode? v = some o) (kind : o.isPhi = false)
    (moved : f.moveUses v x = .ok (f₁, n)) (detached : f₁.detach v = .ok f') :
    Edits f f' := by
  have first : Edits f f₁ := moveUses_edits moved
  refine first.trans (detach_edits ?_ detached)
  rw [Edits.isPhi first (lt_size_of_opcode? code), isPhi_eq code, kind]

/-! ### Betas -/

/-- Redirecting phis consists of edits. -/
theorem redirectPhis_edits (run : redirectPhis g old beta dom l f = .ok f') :
    Edits f f' := by
  induction l generalizing f with
  | nil => exact Except.ok.inj run ▸ .refl
  | cons p rest ih =>
    obtain ⟨o, code, run⟩ := bind_eq_ok.mp run
    split at run
    · next inputs =>
      let σ (q : BlockId) (x : ValueId) : ValueId :=
        if x = old ∧ g.dominates dom q = true then beta else x
      exact .head (.rename (.modifyPhi (opcode_eq_ok.mp code) σ)) (ih run)
    · exact ih run

/-- So does redirecting instructions. -/
theorem redirectInstrs_edits (run : redirectInstrs old beta l f = .ok f') :
    Edits f f' := by
  induction l generalizing f with
  | nil => exact Except.ok.inj run ▸ .refl
  | cons v rest ih =>
    rw [redirectInstrs] at run
    split at run
    · exact ih run
    · obtain ⟨value, -, run⟩ := bind_eq_ok.mp run
      exact .head (.rename (.modifyValue f v (substitute old beta))) (ih run)

/-- So does redirecting blocks. -/
theorem redirectBlocks_edits {l : List BlockId} (run : redirectBlocks g old beta dom l f = .ok f') :
    Edits f f' := by
  induction l generalizing f with
  | nil => exact Except.ok.inj run ▸ .refl
  | cons b rest ih =>
    obtain ⟨block, -, run⟩ := bind_eq_ok.mp run
    obtain ⟨f₁, phis, run⟩ := bind_eq_ok.mp run
    refine (redirectPhis_edits phis).trans ?_
    split at run
    · obtain ⟨f₂, instrs, run⟩ := bind_eq_ok.mp run
      exact (redirectInstrs_edits instrs).trans
        (.head (.rename (.modifyTerminator f₂ b (substitute old beta))) (ih run))
    · exact ih run

/-! ### Checks before a loop -/

/-- Emitted instructions are placed. -/
theorem emit_edits (run : f.emit g b o t = .ok (f', v)) :
    Edits f f' := by
  obtain ⟨f₁, appended, refreshed⟩ := emit_eq_ok run
  obtain ⟨block, -, placed⟩ := bind_eq_ok.mp appended
  exact placeAt_refresh_edits placed refreshed

/-- So are those of a term. -/
theorem emitTerm_edits {t : LinearTerm} (run : f.emitTerm g b t sum = .ok (f', v)) :
    Edits f f' := by
  cases sum with
  | none =>
    rw [emitTerm] at run
    split at run
    · exact (Prod.mk.inj (Except.ok.inj run)).1 ▸ .refl
    · split at run
      all_goals
        obtain ⟨⟨f₁, factor⟩, constant, run⟩ := bind_eq_ok.mp run
        exact (emit_edits constant).trans (emit_edits run)
  | some acc =>
    rw [emitTerm] at run
    split at run
    · exact emit_edits run
    · split at run
      · exact emit_edits run
      · obtain ⟨⟨f₁, factor⟩, constant, run⟩ := bind_eq_ok.mp run
        obtain ⟨⟨f₂, product⟩, multiplied, run⟩ := bind_eq_ok.mp run
        exact ((emit_edits constant).trans (emit_edits multiplied)).trans (emit_edits run)

/-- So are those of a sum. -/
theorem emitTerms_edits {l : List LinearTerm} (run : f.emitTerms g b l sum = .ok (f', v)) :
    Edits f f' := by
  induction l generalizing f sum with
  | nil =>
    cases sum with
    | none => exact emit_edits run
    | some acc => exact (Prod.mk.inj (Except.ok.inj run)).1 ▸ .refl
  | cons t rest ih =>
    obtain ⟨⟨f₁, next⟩, first, run⟩ := bind_eq_ok.mp run
    exact (emitTerm_edits first).trans (ih run)

/-- So are hoisted checks. -/
theorem placeChecks_edits {plan : Session.HoistedCheck} (run : Session.placeChecks f g b plan = .ok f') :
    Edits f f' := by
  simp only [Session.placeChecks, bind_eq_ok, Prod.exists, pure_eq_ok] at run
  obtain ⟨f₁, least, emitLower, f₂, greatest, emitUpper, f₃, first, appended, f₄, second, emitted,
    rfl⟩ := run
  obtain ⟨block, -, placed⟩ := bind_eq_ok.mp appended
  exact (((emitTerms_edits emitLower).trans (emitTerms_edits emitUpper)).trans
    (placeAt_edits placed)).trans (emit_edits emitted)

/-! ### Truncation -/

/-- A conversion is placed. -/
theorem int32Operand_edits {user x y : ValueId} (run : f.int32Operand g user x = .ok (f', y)) :
    Edits f f' := by
  have nothing : (pure (f, x) : Except Fault (Procedure × ValueId)) = .ok (f', y) → Edits f f' :=
    fun same => (Prod.mk.inj (pure_eq_ok.mp same)).1 ▸ .refl
  obtain ⟨type, -, run⟩ := bind_eq_ok.mp run
  split at run
  · exact nothing run
  · obtain ⟨value, -, run⟩ := bind_eq_ok.mp run
    split at run
    · exact nothing run
    · obtain ⟨block, -, run⟩ := bind_eq_ok.mp run
      split at run
      · exact nothing run
      · obtain ⟨⟨f₁, v⟩, placed, run⟩ := bind_eq_ok.mp run
        obtain ⟨f₂, refreshed, run⟩ := bind_eq_ok.mp run
        obtain ⟨rfl, -⟩ := Prod.mk.inj (pure_eq_ok.mp run)
        exact placeAt_refresh_edits placed refreshed

/-- Making an int32 places and recodes. -/
theorem makeInt32_edits {v lhs rhs : ValueId} {op : BinaryOp} {flags : ArithFlags}
    (code : f.opcode? v = some o) (kind : o.isPhi = false)
    (run : f.makeInt32 g v op lhs rhs flags = .ok f') : Edits f f' := by
  obtain ⟨⟨f₁, l⟩, first, run⟩ := bind_eq_ok.mp run
  obtain ⟨⟨f₂, r⟩, second, run⟩ := bind_eq_ok.mp run
  obtain rfl := pure_eq_ok.mp run
  have operands : Edits f f₂ := (int32Operand_edits first).trans (int32Operand_edits second)
  refine operands.tail (.recode ?_ (fun value => ?_) rfl)
  · rw [Edits.isPhi operands (lt_size_of_opcode? code), isPhi_eq code, kind]
  · exact ⟨rfl, rfl, rfl⟩

/-- Conversions are detached. -/
theorem absorbConversions_edits (run : absorbConversions v uses f = .ok f') :
    Edits f f' := by
  induction uses generalizing f with
  | nil => exact Except.ok.inj run ▸ .refl
  | cons use rest ih =>
    cases use with
    | terminator b => exact ih run
    | operand user index =>
      obtain ⟨value, found, run⟩ := bind_eq_ok.mp run
      split at run
      · next input b converts stands =>
        obtain ⟨⟨f₁, n⟩, moved, run⟩ := bind_eq_ok.mp run
        obtain ⟨f₂, detached, run⟩ := bind_eq_ok.mp run
        have code := opcode?_of_value (value_eq_ok.mp found)
        exact (collapse_edits (converts ▸ code) rfl moved detached).trans (ih run)
      · exact ih run

/-- Narrowing consists of edits. -/
theorem narrow?_edits (run : f.narrow? g v uses = .ok (some f')) :
    Edits f f' := by
  obtain ⟨op, lhs, rhs, flags, _, _, _, code, -, -, -, -, -, -, -, -, -, made⟩ := narrow?_cases run
  exact makeInt32_edits code rfl made

/-- Reducing an operation keeps the symbolic bounds of its range. -/
theorem wrap?_edits (run : f.wrap? g v uses = .ok (some f')) :
    Edits f f' := by
  obtain ⟨value, found, run⟩ := bind_eq_ok.mp run
  split at run
  · next op lhs rhs flags range binary ranged =>
    split at run
    · obtain ⟨allowed, -, run⟩ := bind_eq_ok.mp run
      cases allowed with
      | true =>
        obtain ⟨f₁, made, run⟩ := bind_eq_ok.mp run
        obtain ⟨wrapped, wrapping, run⟩ := bind_eq_ok.mp run
        obtain ⟨f₂, absorbed, run⟩ := bind_eq_ok.mp run
        obtain rfl := Option.some.inj (pure_eq_ok.mp run)
        have code : f.opcode? v = some (.binary op lhs rhs flags) := by
          rw [opcode?_of_value (value_eq_ok.mp found), binary]
        have first : Edits f f₁ := makeInt32_edits code rfl made
        have exists_v := (lt_size_of_opcode? code).trans_le first.count
        have kept := Range.wrapToInt32_symbolic wrapping
        -- Wrapping keeps the symbolic bounds of the range it is given, which is the one `v` still has.
        have noted : ∀ w id, (f₁.setRange v (some wrapped)).Mentions w id ↔ f₁.Mentions w id := by
          intro w id
          by_cases own : w = v
          · subst own
            rw [mentions_setRange_self exists_v, Edits.mentions first, Mentions,
              range?_of_value (value_eq_ok.mp found), ranged, Range.Mentions, kept.1, kept.2]
            simp [Range.Mentions]
          · exact mentions_setRange_of_ne own
        exact (first.tail (.note (sameCode_setRange v (some wrapped)) noted)).trans
          (absorbConversions_edits absorbed)
      | false => cases pure_eq_ok.mp run
    · cases pure_eq_ok.mp run
  · cases pure_eq_ok.mp run

/-- A sequence of edits, and of notes that may also concern symbolic bounds. -/
abbrev Evolves : Procedure → Procedure → Prop :=
  Relation.ReflTransGen fun f f' => Edit f f' ∨ SameCode f f'

/-- Edits are steps of the evolution. -/
theorem Edits.evolves (h : Edits f f') : Evolves f f' := h.lift id fun _ _ => .inl

end Procedure

/-! ### Stages -/

namespace Session

open Procedure

variable {s t u : Session} {e : Option AnalysisError} {l : SimpleLoop} {v : ValueId} {b : BlockId}

/-- The procedure is edited; the statistics aside, everything else is as before. -/
structure Revises (s t : Session) : Prop where
  edits : Edits s.procedure t.procedure
  graph : t.graph = s.graph
  loops : t.loops = s.loops
  config : t.config = s.config
  arena : t.arena = s.arena

namespace Revises

/-- Nothing is revised. -/
theorem refl : s.Revises s := ⟨.refl, rfl, rfl, rfl, rfl⟩

/-- Revisions one after the other. -/
theorem trans (h : s.Revises t) (h' : t.Revises u) : s.Revises u :=
  ⟨h.edits.trans h'.edits, h'.graph.trans h.graph, h'.loops.trans h.loops, h'.config.trans h.config,
    h'.arena.trans h.arena⟩

/-- Edits of the procedure revise the session. -/
theorem of_edits {f : Procedure} {stats : Stats} (edits : Edits s.procedure f) :
    s.Revises { s with procedure := f, stats := stats } := ⟨edits, rfl, rfl, rfl, rfl⟩

end Revises

/-- Placing a beta revises. -/
theorem placeBeta_revises {refinement : ValueId × Range} (run : s.placeBeta b refinement = .ok (t, e)) :
    s.Revises t := by
  obtain ⟨value, -, run⟩ := bind_eq_ok.mp run
  split at run
  · exact (Prod.mk.inj (pure_eq_ok.mp run)).1 ▸ .refl
  · obtain ⟨⟨f₁, beta⟩, placed, run⟩ := bind_eq_ok.mp run
    obtain ⟨f₂, redirected, run⟩ := bind_eq_ok.mp run
    obtain ⟨rfl, -⟩ := Prod.mk.inj (pure_eq_ok.mp run)
    exact .of_edits ((placeAt_edits placed).trans (redirectBlocks_edits redirected))

/-- Insertion of the betas edits the procedure, also when it gives up. -/
theorem addBetas_revises (run : s.addBetas = .ok (t, e)) : s.Revises t :=
  addBetas_keeps s.Revises (fun _ _ _ _ _ kept step => kept.trans (placeBeta_revises step)) .refl run

/-- So does hoisting checks. -/
theorem hoistChecks_revises {checks hoisted : List ValueId}
    (run : hoistChecks l checks s = .ok (t, hoisted)) : s.Revises t := by
  induction checks generalizing s hoisted with
  | nil => exact (Prod.mk.inj (Except.ok.inj run)).1 ▸ .refl
  | cons check rest ih =>
    obtain ⟨plan, -, run⟩ := bind_eq_ok.mp run
    cases plan with
    | none => exact ih run
    | some plan =>
      obtain ⟨f, placed, run⟩ := bind_eq_ok.mp run
      obtain ⟨⟨u, others⟩, later, run⟩ := bind_eq_ok.mp run
      obtain ⟨rfl, -⟩ := Prod.mk.inj (pure_eq_ok.mp run)
      exact (Revises.of_edits (placeChecks_edits placed)).trans (ih later)

/-- So does dropping them. -/
theorem dropChecks_revises {checks : List ValueId} (run : dropChecks checks s = .ok t) :
    s.Revises t := by
  induction checks generalizing s with
  | nil => exact Except.ok.inj run ▸ .refl
  | cons check rest ih =>
    obtain ⟨o, code, run⟩ := bind_eq_ok.mp run
    split at run
    · obtain ⟨⟨f₁, n⟩, moved, run⟩ := bind_eq_ok.mp run
      obtain ⟨f₂, detached, run⟩ := bind_eq_ok.mp run
      exact (Revises.of_edits (collapse_edits (opcode_eq_ok.mp code) rfl moved detached)).trans
        (ih run)
    · exact ih run

/-- Moving the checks of a loop edits the procedure. -/
theorem hoist_revises (run : s.hoist l = .ok t) : s.Revises t := by
  obtain ⟨checks, -, run⟩ := bind_eq_ok.mp run
  obtain ⟨⟨u, hoisted⟩, hoisting, dropping⟩ := bind_eq_ok.mp run
  exact (hoistChecks_revises hoisting).trans (dropChecks_revises dropping)

/-- So does sharpening flags. -/
theorem sharpenFlags_revises (run : s.sharpenFlags v = .ok t) : s.Revises t := by
  have nothing : (pure s : Except Fault Session) = .ok t → s.Revises t :=
    fun same => pure_eq_ok.mp same ▸ .refl
  obtain ⟨value, found, run⟩ := bind_eq_ok.mp run
  split at run
  · next op lhs rhs flags range binary _ =>
    split at run
    · obtain ⟨l, -, run⟩ := bind_eq_ok.mp run
      obtain ⟨r, -, run⟩ := bind_eq_ok.mp run
      split at run
      · exact nothing run
      · next sharp _ =>
        obtain rfl := pure_eq_ok.mp run
        refine .of_edits (.single (.recode ?_ (fun value => ?_) rfl))
        · rw [isPhi_eq (opcode?_of_value (value_eq_ok.mp found)), binary]
          rfl
        · exact ⟨rfl, rfl, rfl⟩
    · exact nothing run
  · exact nothing run

/-- So does an assertion. -/
theorem assertValue_revises (run : s.assertValue b v = .ok t) :
    s.Revises t := by
  have nothing : (pure s : Except Fault Session) = .ok t → s.Revises t :=
    fun same => pure_eq_ok.mp same ▸ .refl
  obtain ⟨value, -, run⟩ := bind_eq_ok.mp run
  split at run
  · exact nothing run
  · split at run
    · exact nothing run
    · obtain ⟨position, -, run⟩ := bind_eq_ok.mp run
      cases position with
      | none => exact nothing run
      | some position =>
        obtain ⟨⟨f, new⟩, placed, run⟩ := bind_eq_ok.mp run
        obtain rfl := pure_eq_ok.mp run
        exact .of_edits (placeAt_edits placed)

/-- Assertions edit the procedure. -/
theorem addAssertions_revises (run : s.addAssertions = .ok t) : s.Revises t := by
  refine foldlM_invariant s.Revises (fun b _ u w kept step => ?_) .refl run
  rw [assertBlock] at step
  split at step
  · exact pure_eq_ok.mp step ▸ kept
  · obtain ⟨members, -, step⟩ := bind_eq_ok.mp step
    exact foldlM_invariant s.Revises
      (fun v _ u w kept step => kept.trans (assertValue_revises step)) kept step

/-- Removal of the betas edits the procedure. -/
theorem removeBetas_revises (run : s.removeBetas = .ok t) : s.Revises t := by
  have drops : ∀ (l : List ValueId) (s : Session), dropBetas l s = .ok t → s.Revises t := by
    intro l
    induction l with
    | nil => exact fun s run => Except.ok.inj run ▸ .refl
    | cons beta rest ih =>
      intro s run
      obtain ⟨o, code, run⟩ := bind_eq_ok.mp run
      split at run
      · obtain ⟨⟨f₁, n⟩, moved, run⟩ := bind_eq_ok.mp run
        obtain ⟨f₂, detached, run⟩ := bind_eq_ok.mp run
        exact (Revises.of_edits (collapse_edits (opcode_eq_ok.mp code) rfl moved detached)).trans
          (ih _ run)
      · exact ih s run
  obtain ⟨betas, -, run⟩ := bind_eq_ok.mp run
  exact drops betas s run

/-- So does a move to int32. -/
theorem toInt32?_revises {uses : List Use} (run : s.toInt32? v uses = .ok (some t)) :
    s.Revises t := by
  obtain ⟨narrowed, narrowing, run⟩ := bind_eq_ok.mp run
  cases narrowed with
  | some f =>
    obtain rfl := Option.some.inj (pure_eq_ok.mp run)
    exact .of_edits (narrow?_edits narrowing)
  | none =>
    obtain ⟨wrapped, wrapping, run⟩ := bind_eq_ok.mp run
    cases wrapped with
    | some f =>
      obtain rfl := Option.some.inj (pure_eq_ok.mp run)
      exact .of_edits (wrap?_edits wrapping)
    | none => cases pure_eq_ok.mp run

/-- So do all moves to int32. -/
theorem narrowAll_revises {l : List ValueId} {uses : List (ValueId × Use)} {before after : Bool}
    (run : narrowAll l uses (s, before) = .ok (t, after)) : s.Revises t := by
  induction l generalizing s uses before with
  | nil => exact (Prod.mk.inj (Except.ok.inj run)).1 ▸ .refl
  | cons v rest ih =>
    obtain ⟨value, -, run⟩ := bind_eq_ok.mp run
    split at run
    · exact ih run
    · obtain ⟨moved, moving, run⟩ := bind_eq_ok.mp run
      cases moved with
      | none => exact ih run
      | some u =>
        obtain ⟨uses, -, run⟩ := bind_eq_ok.mp run
        exact (toInt32?_revises moving).trans (ih run)

/-- So does folding bitwise identities. -/
theorem foldBitops_revises {l : List ValueId} (run : foldBitops l s = .ok t) : s.Revises t := by
  induction l generalizing s with
  | nil => exact Except.ok.inj run ▸ .refl
  | cons v rest ih =>
    obtain ⟨value, found, run⟩ := bind_eq_ok.mp run
    split at run
    · next op lhs rhs flags binary =>
      split at run
      · obtain ⟨left, -, run⟩ := bind_eq_ok.mp run
        obtain ⟨right, -, run⟩ := bind_eq_ok.mp run
        split at run
        · exact ih run
        · obtain ⟨type, -, run⟩ := bind_eq_ok.mp run
          split at run
          · obtain ⟨⟨f₁, n⟩, moved, run⟩ := bind_eq_ok.mp run
            obtain ⟨f₂, detached, run⟩ := bind_eq_ok.mp run
            have code := opcode?_of_value (value_eq_ok.mp found)
            exact (Revises.of_edits (collapse_edits (binary ▸ code) rfl moved detached)).trans
              (ih run)
          · exact ih run
      · exact ih run
    · exact ih run

/-- Truncation edits the procedure. -/
theorem truncate_revises (run : s.truncate = .ok t) : s.Revises t := by
  have pass : ∀ u w changed, s.Revises u → narrowPass u = .ok (w, changed) → s.Revises w := by
    intro u w changed kept step
    obtain ⟨uses, -, step⟩ := bind_eq_ok.mp step
    exact kept.trans (narrowAll_revises step)
  obtain ⟨u, settled, run⟩ := bind_eq_ok.mp run
  obtain ⟨last, before, step⟩ := settle_invariant s.Revises pass .refl settled
  exact (pass last u false before step).trans (foldBitops_revises run)

/-- What holds after the fixed point and is kept by the treatment of a loop, by the last pass and by
edits holds after the analysis, also when it gives up. -/
theorem analyze_invariant (holds : Session → Prop) (fixed : ∀ u e, s.fixedPoint = .ok (u, e) → holds u)
    (loop : ∀ u w l e, holds u → u.boundLoop l = .ok (w, e) → holds w)
    (pass : ∀ u w changed, holds u → u.pass none = .ok (w, changed) → holds w)
    (revise : ∀ u w, holds u → u.Revises w → holds w) (run : s.analyze = .ok (t, e)) : holds t := by
  obtain ⟨⟨u, gaveUp⟩, first, run⟩ := bind_eq_ok.mp run
  have start := fixed u gaveUp first
  cases gaveUp with
  | some r => exact (Prod.mk.inj (pure_eq_ok.mp run)).1 ▸ start
  | none =>
    obtain ⟨⟨w, gaveUp⟩, bounded, run⟩ := bind_eq_ok.mp run
    have bounding := forEach_keeps holds (fun l _ u w e kept step => loop u w l e kept step) start
      bounded
    cases gaveUp with
    | some r => exact (Prod.mk.inj (pure_eq_ok.mp run)).1 ▸ bounding
    | none =>
      obtain ⟨⟨x, changed⟩, last, run⟩ := bind_eq_ok.mp run
      obtain ⟨y, sharpened, run⟩ := bind_eq_ok.mp run
      obtain ⟨rfl, -⟩ := Prod.mk.inj (pure_eq_ok.mp run)
      refine foldlM_invariant holds
        (fun v _ u w kept step => revise u w kept (sharpenFlags_revises step)) ?_ sharpened
      exact revise x _ (pass w x changed bounding last) (.of_edits .refl)

/-- The procedure is edited and notes are taken, also in the arena and the statistics; everything else
is as before. -/
structure Evolves (s t : Session) : Prop where
  procedure : Procedure.Evolves s.procedure t.procedure
  graph : t.graph = s.graph
  loops : t.loops = s.loops
  config : t.config = s.config

namespace Evolves

/-- Nothing has changed. -/
theorem refl : s.Evolves s := ⟨.refl, rfl, rfl, rfl⟩

/-- Evolutions one after the other. -/
theorem trans (h : s.Evolves t) (h' : t.Evolves u) : s.Evolves u :=
  ⟨h.procedure.trans h'.procedure, h'.graph.trans h.graph, h'.loops.trans h.loops,
    h'.config.trans h.config⟩

end Evolves

/-- Revisions evolve the session. -/
theorem Revises.evolves (h : s.Revises t) : s.Evolves t :=
  ⟨Edits.evolves h.edits, h.graph, h.loops, h.config⟩

/-- So do notes. -/
theorem SameWork.evolves (h : SameWork s t) : s.Evolves t :=
  ⟨.single (.inr h.code), h.graph, h.loops, h.config⟩

/-- Bounding a phi evolves the session. -/
theorem boundPhi_evolves {boundId : Nat} {bound : LinearSum} {phi : ValueId}
    (run : boundPhi l boundId bound s phi = .ok (t, e)) : s.Evolves t := by
  rcases boundPhi_cases run with ⟨rfl, -⟩ | ⟨_, _, -, rfl, -⟩ |
    ⟨bounds, lower, upper, _, _, -, -, -, -, rfl, -⟩
  · exact .refl
  · exact ⟨.refl, rfl, rfl, rfl⟩
  · exact ⟨.single (.inr (sameCode_setRange phi _)), rfl, rfl, rfl⟩

/-- So does bounding a loop. -/
theorem boundLoop_evolves {loop : Loop} (run : s.boundLoop loop = .ok (t, e)) :
    s.Evolves t := by
  rcases boundLoop_cases run with ⟨rfl, -⟩ |
    ⟨l, test, sum, arena, id, stats, block, u, gaveUp, -, -, -, -, -, phis, ends⟩
  · exact .refl
  have noted : s.Evolves u :=
    forEach_keeps (s := { s with arena := arena, stats := stats }) s.Evolves
      (fun phi _ u w e kept step => kept.trans (boundPhi_evolves step)) ⟨.refl, rfl, rfl, rfl⟩ phis
  rcases ends with ⟨rfl, -⟩ | ⟨-, -, -, hoisted⟩
  · exact noted
  · exact noted.trans (hoist_revises hoisted).evolves

/-- The analysis edits the procedure and takes notes, also when it gives up. -/
theorem analyze_evolves (run : s.analyze = .ok (t, e)) : s.Evolves t :=
  analyze_invariant s.Evolves (fun _ _ fixed => (fixedPoint_sameWork fixed).1.evolves)
    (fun _ _ _ _ kept step => kept.trans (boundLoop_evolves step))
    (fun _ _ _ kept step => kept.trans (pass_sameWork step).evolves)
    (fun _ _ kept revised => kept.trans revised.evolves) run

end Session

/-- A call of a stage on a session. -/
inductive Call where
  | addBetas
  | analyze
  | addAssertions
  | removeBetas
  | truncate
deriving DecidableEq

namespace Call

/-- The session that the stage leaves behind, whether it gives up or not. -/
def run (s : Session) : Call → Except Fault Session
  | addBetas => Prod.fst <$> s.addBetas
  | analyze => Prod.fst <$> s.analyze
  | addAssertions => s.addAssertions
  | removeBetas => s.removeBetas
  | truncate => s.truncate

variable {s t : Session} {call : Call}

/-- Every call but that of the analysis edits the procedure. -/
theorem run_revises (other : call ≠ analyze) (h : run s call = .ok t) : s.Revises t := by
  cases call with
  | addBetas =>
    obtain ⟨⟨t, e⟩, added, rfl⟩ := map_eq_ok.mp h
    exact Session.addBetas_revises added
  | analyze => exact absurd rfl other
  | addAssertions => exact Session.addAssertions_revises h
  | removeBetas => exact Session.removeBetas_revises h
  | truncate => exact Session.truncate_revises h

/-- So does any call. -/
theorem run_evolves (h : run s call = .ok t) : s.Evolves t := by
  by_cases analysis : call = analyze
  · subst analysis
    obtain ⟨⟨t, e⟩, analyzed, rfl⟩ := map_eq_ok.mp h
    exact Session.analyze_evolves analyzed
  · exact (run_revises analysis h).evolves

end Call

namespace Session

variable {s t u : Session}

/-- The session that a sequence of calls leaves behind. -/
def after (s : Session) (calls : List Call) : Except Fault Session := calls.foldlM Call.run s

/-- Some sequence of calls leads from one session to the other. -/
def LeadsTo (s t : Session) : Prop := ∃ calls, s.after calls = .ok t

/-- No calls lead to the session itself. -/
theorem LeadsTo.refl : s.LeadsTo s := ⟨[], rfl⟩

/-- One call leads further. -/
theorem LeadsTo.call (h : s.LeadsTo t) (call : Call) (step : call.run t = .ok u) : s.LeadsTo u := by
  obtain ⟨calls, before⟩ := h
  refine ⟨calls ++ [call], ?_⟩
  rw [after, List.foldlM_append]
  exact bind_eq_ok.mpr ⟨t, before, bind_eq_ok.mpr ⟨u, step, rfl⟩⟩

/-- Any calls evolve the session. -/
theorem after_evolves {calls : List Call} (run : s.after calls = .ok t) : s.Evolves t :=
  foldlM_invariant s.Evolves (fun _ _ _ _ kept step => kept.trans (Call.run_evolves step)) .refl run

end Session

end Rangefinder
