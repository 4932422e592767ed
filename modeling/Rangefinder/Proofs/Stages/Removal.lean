import Rangefinder.Analysis.Refinement
import Rangefinder.Analysis.Truncation
import Rangefinder.Proofs.Stages.Insertion

/-!
# Betas and conversions are taken out

The removal of betas and the truncation to int32 collapse instructions into their operands: betas
into what they refine, conversions into what they convert, and bitwise identities into the operand
that they amount to. Truncation also places conversions in front of the instruction that reads
them. `Intact` is what these edits keep: the procedure is structured, every value is listed where
it stands, branches test what can be tested, and either the procedure is well-formed or it has a phi
that was cut off from its own value, which no later edit repairs.
-/

namespace Rangefinder

/-- What betas are. -/
theorem Opcode.isBeta_iff {o : Opcode} : o.isBeta = true ↔ ∃ input range, o = .beta input range := by
  cases o <;> simp [isBeta]

namespace Procedure

variable {f f' f₁ : Procedure} {g : FlowGraph} {v x : ValueId} {b : BlockId}

/-- What holds between two edits that collapse instructions: the procedure is well-formed, or it has
a phi that reads a value which stands nowhere and reads the phi. -/
structure Intact (f : Procedure) (g : FlowGraph) : Prop where
  built : FlowGraph.build f = .ok g
  structured : f.Structured
  listed : f.AllListed
  uses : f.WellFormed g ∨ f.SelfFed g
  testable : f.Testable

/-- The graph describes the procedure. -/
theorem Intact.describes (h : f.Intact g) : g.Describes f :=
  FlowGraph.build_describes h.structured.numbered h.structured.entry h.built

/-- A valid procedure is intact. -/
theorem Valid.intact (h : f.Valid g) : f.Intact g :=
  ⟨h.built, h.wellFormed.structured, h.listed, .inl h.wellFormed, h.testable⟩

/-- The verifier accepts an intact procedure unless a phi is cut off from its own value. -/
theorem Intact.verify_iff (h : f.Intact g) : f.verify = .ok (.ok ()) ↔ ¬f.SelfFed g := by
  rw [verify_eq_ok]
  constructor
  · rintro ⟨-, g', built, wf⟩ fed
    obtain rfl := Except.ok.inj (h.built.symm.trans built)
    exact fed.not_wellFormed wf
  · intro fed
    exact ⟨h.testable.branches, g, h.built, h.uses.resolve_right fed⟩

/-- Ranges and marks do not matter. -/
theorem Intact.of_sameCode (h : f.Intact g) (same : SameCode f f') : f'.Intact g where
  built := same.layout.flow.build.trans h.built
  structured := same.structured h.structured
  listed := same.layout.allListed h.listed
  uses := h.uses.imp same.wellFormed fun fed => fed.of_sameCode same
  testable := h.testable.of_sameCode same

/-- How the operands of a value are renamed when the uses of another one are moved. -/
def movedUses (f : Procedure) (old new w : ValueId) : ValueId → ValueId :=
  if w ∈ f.listed ∧ w ≠ new then substitute old new else id

/-- Moving uses leaves an operand alone, or replaces the old one by the new one. -/
theorem movedUses_cases (f : Procedure) (old new w x : ValueId) :
    movedUses f old new w x = x ∨ x = old ∧ movedUses f old new w x = new := by
  rw [movedUses]
  split
  · by_cases same : x = old <;> simp [substitute, same]
  · exact .inl rfl

/-- The second procedure is the first one without the instruction `v`, and what read that one reads `x`. -/
structure Collapsed (f f' : Procedure) (v x : ValueId) : Prop where
  flow : SameFlow f f'
  count : f'.values.size = f.values.size
  opcode? : ∀ w, f'.opcode? w =
    (f.opcode? w).map (Opcode.rename (movedUses f v x w) fun _ => movedUses f v x w)
  type? : ∀ w, f'.type? w = f.type? w
  home? : ∀ w, f'.home? w = if w = v then none else f.home? w
  phisAt : ∀ c, f'.phisAt c = f.phisAt c
  instrsAt : ∀ c, f'.instrsAt c = (f.instrsAt c).filter (· != v)
  terminator? : ∀ c, f'.terminator? c =
    (f.terminator? c).map (Terminator.mapOperand (substitute v x))

/-- Moving the uses of an instruction and taking it out collapses it. -/
theorem collapsed {n : Nat} (s : f.Structured) (hv : v ∈ f.instrsAt b) (hx : x < f.values.size)
    (moved : f.moveUses v x = .ok (f₁, n)) (detached : f₁.detach v = .ok f') :
    Collapsed f f' v x := by
  have renamed := moveUses_spec s moved
  have home : f₁.home? v = some b := by rw [renamed.layout.home?, (s.instrs b v hv).2]
  have out := detach_spec home detached
  refine ⟨renamed.layout.flow.trans out.flow, out.valueCount.trans renamed.layout.valueCount,
    fun w => ?_, fun w => ?_, fun w => ?_, fun c => ?_, fun c => ?_, fun c => ?_⟩
  · rw [out.opcode?, renamed.opcode?]
    rfl
  · rw [out.type?, renamed.type?]
  · rw [out.home?, renamed.layout.home?]
  · have other : ∀ phi ∈ f.phisAt c, phi ≠ v := by
      rintro phi mem rfl
      have isPhi := (s.phis c phi mem).1
      rw [(s.instrs b phi hv).1] at isPhi
      cases isPhi
    rw [out.phisAt (s.moveUses hx moved) home, renamed.layout.phisAt,
      List.filter_eq_self.mpr (by simpa using other)]
  · rw [out.instrsAt (s.moveUses hx moved) home, renamed.layout.instrsAt]
  · rw [out.terminator?, renamed.terminator?]

/-- Collapsing an instruction into an operand keeps a procedure intact, if the operand can be tested
when the instruction can. -/
theorem Intact.collapse {o : Opcode} {n : Nat} (h : f.Intact g) (hv : v ∈ f.instrsAt b)
    (op : f.opcode? v = some o) (hx : x ∈ o.operands)
    (carries : f.isTestable v = true → f.isTestable x = true) (moved : f.moveUses v x = .ok (f₁, n))
    (detached : f₁.detach v = .ok f') : f'.Intact g := by
  have s := h.structured
  have exists_x := s.operands v o op x hx
  have layout := (moveUses_spec s moved).layout
  have s₁ := s.moveUses exists_x moved
  have home : f₁.home? v = some b := by rw [layout.home?, (s.instrs b v hv).2]
  have out := detach_spec home detached
  refine ⟨?_, s₁.detach home out, out.allListed s₁ home (layout.allListed h.listed), ?_,
    h.testable.collapse s hv moved detached carries⟩
  · exact (layout.flow.trans out.flow).build.trans h.built
  · rcases h.uses with wf | fed
    · exact (wf.collapse h.describes hv op hx moved detached).imp_right And.left
    · exact .inr (fed.collapse s hv exists_x moved detached)

/-- The value is a beta. -/
def isBeta (f : Procedure) (v : ValueId) : Bool := (f.opcode? v).any Opcode.isBeta

/-- Collapsing makes no value a beta. -/
theorem Collapsed.isBeta (h : Collapsed f f' v x) (w : ValueId) :
    f'.isBeta w = f.isBeta w := by
  rw [Procedure.isBeta, h.opcode?, Option.any_map]
  simp only [Opcode.isBeta_rename, Procedure.isBeta]

/-- No instruction is a beta. -/
def BetaFree (f : Procedure) : Prop := ∀ b, ∀ v ∈ f.instrsAt b, f.isBeta v = false

/-- Collapsing leaves no beta where there was none. -/
theorem Collapsed.betaFree (h : Collapsed f f' v x) (free : f.BetaFree) : f'.BetaFree := by
  intro b w hw
  rw [h.instrsAt] at hw
  rw [h.isBeta]
  exact free b w (List.mem_of_mem_filter hw)

/-- The instructions of all blocks, one block after the other. -/
theorem mem_flatMap_instrs :
    v ∈ f.blocks.toList.flatMap Block.instrs ↔ ∃ b, v ∈ f.instrsAt b := by
  simp only [List.mem_flatMap, Array.mem_toList_iff, Array.mem_iff_getElem?,
    mem_instrsAt]
  exact ⟨fun ⟨block, ⟨b, hb⟩, mem⟩ => ⟨b, block, hb, mem⟩,
    fun ⟨b, block, hb, mem⟩ => ⟨block, ⟨b, hb⟩, mem⟩⟩

/-- No instruction is listed twice. -/
theorem nodup_flatMap_instrs (s : f.Structured) :
    (f.blocks.toList.flatMap Block.instrs).Nodup := by
  refine List.Nodup.sublist ?_ s.nodup_listed
  rw [listed]
  induction f.blocks.toList with
  | nil => exact List.nil_sublist _
  | cons block rest ih =>
    rw [List.flatMap_cons, List.flatMap_cons]
    exact (List.sublist_append_right _ _).append ih

/-- The search for a beta finds none when there is none. -/
theorem strayBeta?_eq_none : f.strayBeta? = none ↔ f.BetaFree := by
  rw [strayBeta?, List.find?_eq_none]
  simp only [mem_flatMap_instrs, Bool.not_eq_true, BetaFree, isBeta, opcode?, Option.any_map]
  constructor
  · exact fun h b v hv => h v ⟨b, hv⟩
  · rintro h v ⟨b, hv⟩
    exact h b v hv

end Procedure

namespace Session

variable {s t : Session}

/-- The betas among given instructions are those of them that are betas. -/
theorem betasAmong_spec {f : Procedure} {l betas : List ValueId} (h : betasAmong f l = .ok betas) :
    betas.Sublist l ∧ ∀ v ∈ l, f.isBeta v = true → v ∈ betas := by
  induction l generalizing betas with
  | nil =>
    obtain rfl : [] = betas := by simpa [betasAmong] using h
    exact ⟨List.nil_sublist _, by simp⟩
  | cons v rest ih =>
    simp only [betasAmong, bind_eq_ok, pure_eq_ok] at h
    obtain ⟨o, op, others, found, rfl⟩ := h
    obtain ⟨sub, all⟩ := ih found
    rw [List.forall_mem_cons]
    split
    · exact ⟨sub.cons_cons v, by simp, fun w hw beta => List.mem_cons_of_mem _ (all w hw beta)⟩
    · next other =>
      refine ⟨sub.cons v, fun beta => absurd ?_ other, all⟩
      simpa [Procedure.isBeta, Procedure.opcode_eq_ok.mp op] using beta

/-- Taking out betas keeps the procedure intact, and leaves no other betas than there were
besides. -/
theorem dropBetas_intact {l : List ValueId} (h : s.procedure.Intact s.graph) (nodup : l.Nodup)
    (instrs : ∀ v ∈ l, ∃ b, v ∈ s.procedure.instrsAt b)
    (all : ∀ b, ∀ v ∈ s.procedure.instrsAt b, s.procedure.isBeta v = true → v ∈ l)
    (run : dropBetas l s = .ok t) :
    t.procedure.Intact t.graph ∧ t.graph = s.graph ∧ t.procedure.BetaFree := by
  induction l generalizing s with
  | nil =>
    obtain rfl : s = t := by simpa [dropBetas] using run
    exact ⟨h, rfl, fun b v hv => by simpa using all b v hv⟩
  | cons v rest ih =>
    rw [List.nodup_cons] at nodup
    rw [List.forall_mem_cons] at instrs
    simp only [dropBetas, bind_eq_ok] at run
    obtain ⟨o, op, run⟩ := run
    rw [Procedure.opcode_eq_ok] at op
    split at run
    · next input range =>
      simp only [bind_eq_ok, Prod.exists] at run
      obtain ⟨f₁, n, moved, f₂, detached, run⟩ := run
      obtain ⟨b, hv⟩ := instrs.1
      have hx : input ∈ (Opcode.beta input range).operands := by simp [Opcode.operands]
      have collapsed := Procedure.collapsed h.structured hv (h.structured.operands v _ op input hx) moved
        detached
      have kept := h.collapse hv op hx (h.testable.handedOn v _ input op rfl) moved detached
      refine @ih { s with procedure := f₂, stats := _ } kept nodup.2
        (fun w hw => ?_) (fun c w hw beta => ?_) run
      · obtain ⟨c, hc⟩ := instrs.2 w hw
        refine ⟨c, ?_⟩
        rw [collapsed.instrsAt]
        have other : w ≠ v := fun same => nodup.1 (same ▸ hw)
        exact List.mem_filter.mpr ⟨hc, by simpa using other⟩
      · rw [collapsed.instrsAt, List.mem_filter] at hw
        have other : w ≠ v := by simpa using hw.2
        rw [collapsed.isBeta] at beta
        exact (List.mem_cons.mp (all c w hw.1 beta)).resolve_left other
    · next other =>
      refine ih h nodup.2 instrs.2 (fun c w hw beta => ?_) run
      refine (List.mem_cons.mp (all c w hw beta)).resolve_left ?_
      rintro rfl
      rw [Procedure.isBeta, op, Option.any_some] at beta
      obtain ⟨input, range, rfl⟩ := Opcode.isBeta_iff.mp beta
      exact other input range rfl

/-- Removal of the betas keeps the procedure intact and leaves no beta. -/
theorem removeBetas_intact (h : s.procedure.Intact s.graph) (run : s.removeBetas = .ok t) :
    t.procedure.Intact t.graph ∧ t.graph = s.graph ∧ t.procedure.BetaFree := by
  obtain ⟨betas, found, run⟩ := bind_eq_ok.mp run
  have sub := betasAmong_spec found
  exact dropBetas_intact h ((Procedure.nodup_flatMap_instrs h.structured).sublist sub.1)
    (fun v hv => Procedure.mem_flatMap_instrs.mp (sub.1.subset hv))
    (fun b v hv beta => sub.2 v (Procedure.mem_flatMap_instrs.mpr ⟨b, hv⟩) beta) run

end Session

end Rangefinder
