import Rangefinder.Proofs.Stages.Edits
import Rangefinder.Proofs.Stages.Failure
import Rangefinder.Proofs.Stages.HoistedChecks

/-!
# The control flow is never touched

A session computes the flow graph and the loops of its procedure once, at the start, while the stages
place, rewire, recode and detach instructions. The graph stays right because no edit touches the
skeleton of the procedure: the entry, the blocks with the kinds and targets of their terminators, the
phis of every block and the blocks that their inputs come from. Values are only added.

Of the edits, only one could do harm. Detaching a value would also take it off a list of phis. So it
matters that the lists of phis hold nothing but phis, and that only betas, checks, conversions and
arithmetic are ever detached. Nothing else is asked of the procedure, in particular not that every
value is listed where it stands.
-/

namespace Rangefinder

/-- The blocks that the inputs of a phi come from; nothing for what is no phi. -/
def Opcode.sources? : Opcode → Option (List BlockId)
  | phi inputs => some (inputs.map Prod.snd)
  | _ => none

/-- What the control flow and the phis depend on in a block. -/
def Block.skeleton (block : Block) : BlockId × Terminator × List ValueId :=
  (block.id, block.terminator.shape, block.phis)

/-- The identifier of a value, and where the inputs come from if it is a phi. -/
def Value.skeleton (value : Value) : ValueId × Option (List BlockId) :=
  (value.id, value.opcode.sources?)

/-- Renaming keeps sources. -/
theorem Opcode.sources?_rename {o : Opcode} {ρ : ValueId → ValueId}
    {π : BlockId → ValueId → ValueId} : (o.rename ρ π).sources? = o.sources? := by
  cases o with
  | phi inputs => simp [rename, sources?]
  | _ => rfl

/-- Phis have sources. -/
theorem Opcode.isSome_sources? {o : Opcode} : o.sources?.isSome = o.isPhi := by
  cases o <;> rfl

namespace Procedure

variable {f f' f'' : Procedure} {g : FlowGraph} {v : ValueId} {b : BlockId}

/-- The two procedures have the same entry and the same blocks, as far as their identifiers, the kinds
and targets of their terminators and their phis are concerned. The values of the first one are there
in the second one with their identifiers, and its phis with the blocks that their inputs come from. -/
structure SameSkeleton (f f' : Procedure) : Prop where
  entry : f'.entry = f.entry
  blocks : ∀ b : BlockId, (f'.blocks[b]?).map Block.skeleton = (f.blocks[b]?).map Block.skeleton
  count : f.values.size ≤ f'.values.size
  values : ∀ v < f.values.size,
    (f'.values[v]?).map Value.skeleton = (f.values[v]?).map Value.skeleton

/-- The lists of phis hold nothing but phis. -/
def ListsPhis (f : Procedure) : Prop := ∀ b, ∀ v ∈ f.phisAt b, f.isPhi v = true

namespace SameSkeleton

/-- The skeleton is its own. -/
theorem refl : SameSkeleton f f := ⟨rfl, fun _ => rfl, le_rfl, fun _ _ => rfl⟩

/-- Same skeleton twice. -/
theorem trans (h : SameSkeleton f f') (h' : SameSkeleton f' f'') : SameSkeleton f f'' :=
  ⟨h'.entry.trans h.entry, fun b => (h'.blocks b).trans (h.blocks b), h.count.trans h'.count,
    fun v hv => (h'.values v (hv.trans_le h.count)).trans (h.values v hv)⟩

/-- It fixes the flow. -/
theorem flow (h : SameSkeleton f f') : SameFlow f f' := by
  have view : Block.flow = (fun s => (s.1, s.2.1.successors)) ∘ Block.skeleton := by
    funext block
    exact congrArg (Prod.mk block.id) Terminator.successors_mapOperand.symm
  refine ⟨h.entry, fun b => ?_⟩
  rw [view]
  exact map_eq_of_map_eq (h.blocks b) _

/-- It fixes the phis. -/
theorem phisAt (h : SameSkeleton f f') (b : BlockId) : f'.phisAt b = f.phisAt b :=
  congrArg (fun o => o.getD []) (map_eq_of_map_eq (h.blocks b) fun s => s.2.2)

/-- A value that was there is a phi if it was one. -/
theorem isPhi (h : SameSkeleton f f') (old : v < f.values.size) :
    f'.isPhi v = f.isPhi v := by
  have view : ∀ f : Procedure, f.isPhi v =
      ((f.values[v]?).map ((fun s => s.2.isSome) ∘ Value.skeleton)).getD false := by
    intro f
    rw [Procedure.isPhi]
    cases f.values[v]? with
    | none => rfl
    | some value => exact Opcode.isSome_sources?.symm
  rw [view, view, map_eq_of_map_eq (h.values v old)]

/-- A phi exists. -/
theorem lt_size_of_isPhi (phi : f.isPhi v = true) : v < f.values.size := by
  obtain ⟨inputs, code⟩ := exists_inputs phi
  exact lt_size_of_opcode? code

/-- Lists of phis stay such. -/
theorem listsPhis (h : SameSkeleton f f') (lists : f.ListsPhis) : f'.ListsPhis := by
  intro b v hv
  rw [h.phisAt] at hv
  have phi := lists b v hv
  rw [h.isPhi (lt_size_of_isPhi phi), phi]

/-- The skeleton alone decides the loops of a flow graph. -/
theorem loops (h : SameSkeleton f f') : g.loops f' = g.loops f := by
  have successors : f'.successors = f.successors := funext h.flow.successors
  have at_header : g.loopAt f' = g.loopAt f := by
    funext header
    rw [FlowGraph.loopAt, FlowGraph.loopAt, successors]
  rw [FlowGraph.loops, FlowGraph.loops, at_header]

end SameSkeleton

/-- Structured ones are such. -/
theorem Structured.listsPhis (s : f.Structured) : f.ListsPhis := fun b v hv => (s.phis b v hv).1

/-! ### Edits -/

/-- Ranges and marks are no part of the skeleton. -/
theorem SameCode.sameSkeleton (h : SameCode f f') : SameSkeleton f f' :=
  ⟨h.entry, fun b => map_eq_of_map_eq (h.blocks b) Block.skeleton, h.layout.valueCount.ge,
    fun v _ => map_eq_of_map_eq (h.values v) Value.skeleton⟩

/-- New instructions are no part of the skeleton. -/
theorem Placed.sameSkeleton {before after : List ValueId} {o : Opcode} {t : ValueType}
    (h : f.Placed f' b before after o t) : SameSkeleton f f' := by
  refine ⟨h.entry, fun c => ?_, h.valueCount ▸ Nat.le_succ _, fun v old => ?_⟩
  · rw [h.blocks, Option.map_map]
    congr 1
    funext block
    by_cases own : c = b <;> simp [own, Block.skeleton]
  · rw [h.getElem?_values, if_neg (Nat.ne_of_lt old)]

/-- What is read is no part of the skeleton. -/
theorem Renaming.sameSkeleton {ρ : ValueId → ValueId → ValueId}
    {π : ValueId → BlockId → ValueId → ValueId} {τ : BlockId → ValueId → ValueId}
    (h : Renaming f f' ρ π τ) : SameSkeleton f f' := by
  refine ⟨h.entry, fun b => ?_, h.layout.valueCount.ge, fun v _ => ?_⟩
  · rw [h.blocks, Option.map_map]
    congr 1
    funext block
    simp [Block.skeleton, Terminator.shape_mapOperand]
  · rw [h.values, Option.map_map]
    congr 1
    funext value
    simp [Value.skeleton, Opcode.sources?_rename]

/-- A value that is no phi may become anything else that is no phi. -/
theorem sameSkeleton_recode {m : Value → Value} (was : f.isPhi v = false)
    (kind : ∀ value, (m value).id = value.id ∧ (m value).opcode.isPhi = false) :
    SameSkeleton f (f.modifyValue v m) := by
  have none : ∀ {o : Opcode}, o.isPhi = false → o.sources? = none := by
    intro o notPhi
    rw [← Opcode.isSome_sources?] at notPhi
    exact Option.isSome_eq_false_iff.mp notPhi |> Option.isNone_iff_eq_none.mp
  refine ⟨rfl, fun _ => rfl, by simp [modifyValue], fun w _ => ?_⟩
  simp only [modifyValue, Array.getElem?_modify]
  split
  · next own =>
    subst own
    cases found : f.values[v]? with
    | none => rfl
    | some value =>
      have notPhi : value.opcode.isPhi = false := by
        rw [← isPhi_eq (opcode?_of_value found)]
        exact was
      simp [Value.skeleton, kind value, none notPhi, none (kind value).2]
  · rfl

/-- What is no phi may be detached. -/
theorem Detached.sameSkeleton (out : f.Detached f' v b) (lists : f.ListsPhis) (kind : f.isPhi v = false) :
    SameSkeleton f f' := by
  refine ⟨out.entry, fun c => ?_, out.valueCount.ge, fun w _ => ?_⟩
  · rw [out.blocks, Option.map_map]
    refine Option.map_congr fun block found => ?_
    have phis : block.phis.filter (· != v) = block.phis := by
      refine List.filter_eq_self.mpr fun p hp => ?_
      have phi := lists c p (mem_phisAt.mpr ⟨block, found, hp⟩)
      have other : p ≠ v := by
        rintro rfl
        rw [kind] at phi
        cases phi
      simpa using other
    by_cases own : c = b <;> simp [own, Block.skeleton, phis]
  · rw [out.values, Option.map_map]
    congr 1
    funext value
    by_cases own : w = v <;> simp [own, Value.skeleton]

/-- Edits keep the skeleton. -/
theorem Edit.sameSkeleton (h : Edit f f') (lists : f.ListsPhis) : SameSkeleton f f' := by
  cases h with
  | place placed => exact placed.sameSkeleton
  | note same _ => exact same.sameSkeleton
  | rename renamed => exact renamed.sameSkeleton
  | recode was kind same =>
    exact same ▸ sameSkeleton_recode was fun value => ⟨(kind value).1, (kind value).2.2⟩
  | detach kind out => exact out.sameSkeleton lists kind

/-- Edits and notes keep the skeleton. -/
theorem Evolves.sameSkeleton (h : Evolves f f') (lists : f.ListsPhis) : SameSkeleton f f' := by
  induction h with
  | refl => exact .refl
  | tail _ step ih =>
    refine ih.trans ?_
    rcases step with edit | same
    · exact edit.sameSkeleton (ih.listsPhis lists)
    · exact same.sameSkeleton

end Procedure

/-! ### Stages -/

namespace Session

open Procedure

variable {s t : Session}

/-- The skeleton of the procedure is the same, and so are the graph and the loops of the session. -/
structure KeepsSkeleton (s t : Session) : Prop where
  skeleton : SameSkeleton s.procedure t.procedure
  graph : t.graph = s.graph
  loops : t.loops = s.loops

/-- So do sessions. -/
theorem Evolves.keepsSkeleton (h : s.Evolves t) (lists : s.procedure.ListsPhis) : s.KeepsSkeleton t :=
  ⟨Procedure.Evolves.sameSkeleton h.procedure lists, h.graph, h.loops⟩

end Session

namespace Pipeline

open Procedure

variable {config : Config} {f f' : Procedure} {s t : Session}

/-- The session that the pipeline goes on with, or has ended in, has the property. -/
def StandsAt (here : Session → Prop) : Progress → Prop
  | .ok s => here s
  | .error (f, _) => ∃ s, here s ∧ s.procedure = f

variable {here : Session → Prop} {p p' : Progress}

/-- Checkpoints stay put. -/
theorem checkpoint_standsAt {point : String} (h : here s) (run : checkpoint s point = .ok p) :
    StandsAt here p := by
  rcases checkpoint_cases run with rfl | ⟨d, rfl, -⟩
  · exact h
  · exact ⟨s, h, rfl⟩

/-- So do ends of stages. -/
theorem afterStage_standsAt {pass point : String} {e : Option AnalysisError} (h : here s)
    (run : afterStage pass point (s, e) = .ok p) : StandsAt here p := by
  cases e with
  | none => exact checkpoint_standsAt h run
  | some r => exact Except.ok.inj run ▸ ⟨s, h, rfl⟩

/-- The next stage leads on. -/
theorem next_standsAt {stage : Session → Except Fault Progress} (h : StandsAt here p)
    (step : ∀ s p', here s → stage s = .ok p' → StandsAt here p') (run : next p stage = .ok p') :
    StandsAt here p' := by
  cases p with
  | ok s => exact step s p' h run
  | error e => exact Except.ok.inj run ▸ h

/-- The stages are a sequence of calls, which may end early. -/
theorem stages_leadsTo (run : stages s = .ok p) : StandsAt s.LeadsTo p := by
  obtain ⟨⟨s₁, e₁⟩, betas, run⟩ := bind_eq_ok.mp run
  obtain ⟨p₁, first, run⟩ := bind_eq_ok.mp run
  obtain ⟨p₂, second, run⟩ := bind_eq_ok.mp run
  obtain ⟨p₃, third, run⟩ := bind_eq_ok.mp run
  obtain ⟨p₄, fourth, last⟩ := bind_eq_ok.mp run
  have start : s.LeadsTo s₁ :=
    Session.LeadsTo.refl.call .addBetas (map_eq_ok.mpr ⟨(s₁, e₁), betas, rfl⟩)
  have h₁ := afterStage_standsAt start first
  have h₂ : StandsAt s.LeadsTo p₂ := by
    refine next_standsAt h₁ (fun u p reached step => ?_) second
    obtain ⟨⟨w, e⟩, analyzed, step⟩ := bind_eq_ok.mp step
    have next : s.LeadsTo w := reached.call .analyze (map_eq_ok.mpr ⟨(w, e), analyzed, rfl⟩)
    exact afterStage_standsAt next step
  have h₃ : StandsAt s.LeadsTo p₃ := by
    refine next_standsAt h₂ (fun u p reached step => ?_) third
    split at step
    · obtain ⟨w, asserted, step⟩ := bind_eq_ok.mp step
      exact checkpoint_standsAt (reached.call .addAssertions asserted) step
    · exact Except.ok.inj step ▸ reached
  have h₄ : StandsAt s.LeadsTo p₄ := by
    refine next_standsAt h₃ (fun u p reached step => ?_) fourth
    obtain ⟨w, removed, step⟩ := bind_eq_ok.mp step
    exact checkpoint_standsAt (reached.call .removeBetas removed) step
  refine next_standsAt h₄ (fun u p reached step => ?_) last
  split at step
  · obtain ⟨w, truncated, step⟩ := bind_eq_ok.mp step
    exact checkpoint_standsAt (reached.call .truncate truncated) step
  · exact Except.ok.inj step ▸ reached

/-- What a run of the pipeline leaves behind, apart from the mark of a procedure that is given up: the
procedure that it began with, or that of a session after some calls. -/
theorem run_leadsTo {result : Except Diagnostic Stats} (ran : run config f = .ok (f', result)) :
    ∃ left, (f' = left ∨ ∃ reason, f' = left.giveUp reason) ∧
      (left = f ∨ ∃ s t, Session.start f config = .ok s ∧ s.LeadsTo t ∧ left = t.procedure) := by
  obtain ⟨⟨left, ended⟩, attempted, ran⟩ := bind_eq_ok.mp ran
  refine ⟨left, ?_, ?_⟩
  · cases ended with
    | ok stats => exact .inl (Prod.mk.inj (pure_eq_ok.mp ran)).1.symm
    | error d => exact .inr ⟨_, (Prod.mk.inj (pure_eq_ok.mp ran)).1.symm⟩
  obtain ⟨report, -, attempted⟩ := bind_eq_ok.mp attempted
  cases report with
  | some d => exact .inl (Prod.mk.inj (pure_eq_ok.mp attempted)).1.symm
  | none =>
    obtain ⟨s, started, attempted⟩ := bind_eq_ok.mp attempted
    obtain ⟨p, staged, attempted⟩ := bind_eq_ok.mp attempted
    have stands := stages_leadsTo staged
    refine .inr ?_
    cases p with
    | error ended =>
      obtain ⟨t, reached, own⟩ := stands
      obtain ⟨rfl, -⟩ := Prod.mk.inj (pure_eq_ok.mp attempted)
      exact ⟨s, t, started, reached, own.symm⟩
    | ok t =>
      obtain ⟨verdict, -, attempted⟩ := bind_eq_ok.mp attempted
      refine ⟨s, t, started, stands, ?_⟩
      cases verdict with
      | ok u => exact (Prod.mk.inj (pure_eq_ok.mp attempted)).1.symm
      | error violation => exact (Prod.mk.inj (pure_eq_ok.mp attempted)).1.symm

/-- The start of the work is the only place where the graph and the loops are computed. -/
theorem start_keepsSkeleton (started : Session.start f config = .ok s) :
    s.procedure = f ∧ FlowGraph.build f = .ok s.graph ∧ s.graph.loops f = s.loops := by
  obtain ⟨g, built, started⟩ := bind_eq_ok.mp started
  obtain rfl := pure_eq_ok.mp started
  exact ⟨rfl, built, rfl⟩

/-- A run of the pipeline consists of edits and notes, whatever it ends with. -/
theorem run_evolves {result : Except Diagnostic Stats} (ran : run config f = .ok (f', result)) :
    Evolves f f' := by
  obtain ⟨left, marked, left_eq⟩ := run_leadsTo ran
  have kept : Evolves f left := by
    rcases left_eq with rfl | ⟨s, t, started, ⟨calls, reached⟩, rfl⟩
    · exact .refl
    · exact (start_keepsSkeleton started).1 ▸ (Session.after_evolves reached).procedure
  rcases marked with rfl | ⟨reason, rfl⟩
  · exact kept
  · have mark : SameCode left (left.giveUp reason) := ⟨rfl, fun _ => rfl, fun _ => rfl⟩
    exact kept.tail (.inr mark)

/-- A session that the stages lead to, in whatever order, has evolved from its start. -/
theorem WithBetas.evolves (reached : WithBetas config f s) :
    ∃ s₀, Session.start f config = .ok s₀ ∧ s₀.Evolves s := by
  induction reached with
  | start started => exact ⟨_, started, .refl⟩
  | addBetas _ run ih =>
    exact ih.imp fun _ => And.imp_right (·.trans (Session.addBetas_revises run).evolves)
  | analyze _ run ih => exact ih.imp fun _ => And.imp_right (·.trans (Session.analyze_evolves run))
  | addAssertions _ run ih =>
    exact ih.imp fun _ => And.imp_right (·.trans (Session.addAssertions_revises run).evolves)

/-- All stages evolve the start. -/
theorem WithoutBetas.evolves (reached : WithoutBetas config f s) :
    ∃ s₀, Session.start f config = .ok s₀ ∧ s₀.Evolves s := by
  induction reached with
  | removeBetas before run =>
    exact before.evolves.imp fun _ => And.imp_right (·.trans (Session.removeBetas_revises run).evolves)
  | truncate _ run ih =>
    exact ih.imp fun _ => And.imp_right (·.trans (Session.truncate_revises run).evolves)

/-- The control flow is never touched. Whatever a run ends with, and after each of its stages, the
procedure has the skeleton of the accepted procedure that the run began with, so the graph and the
loops of the session are at all times those of the procedure at hand. -/
theorem run_keepsSkeleton (accepted : f.verify = .ok (.ok ())) :
    (∀ f' result, run config f = .ok (f', result) →
      SameSkeleton f f' ∧ FlowGraph.build f' = FlowGraph.build f) ∧
    ∀ s, WithBetas config f s ∨ WithoutBetas config f s →
      SameSkeleton f s.procedure ∧
        (FlowGraph.build f = .ok s.graph ∧ s.graph.loops f = s.loops) ∧
        FlowGraph.build s.procedure = .ok s.graph ∧ s.graph.loops s.procedure = s.loops := by
  obtain ⟨-, g, built, wf⟩ := verify_eq_ok.mp accepted
  have lists := wf.structured.listsPhis
  refine ⟨fun f' result ran => ?_, fun s reached => ?_⟩
  · have same := Evolves.sameSkeleton (run_evolves ran) lists
    exact ⟨same, same.flow.build⟩
  · obtain ⟨s₀, started, evolved⟩ := reached.elim (·.evolves) (·.evolves)
    obtain ⟨rfl, current, loops⟩ := start_keepsSkeleton started
    have kept := evolved.keepsSkeleton lists
    rw [kept.graph, kept.loops, kept.skeleton.flow.build, kept.skeleton.loops]
    exact ⟨kept.skeleton, ⟨current, loops⟩, current, loops⟩

/-- In `pairMarks` two betas come and go and the check leaves the loop, with new instructions for it
before the loop; its skeleton stays. -/
theorem pairMarks_keepsSkeleton : Session.pairMarks.verify = .ok (.ok ()) ∧
    ∃ f' stats, run .standard Session.pairMarks = .ok (f', .ok stats) ∧ stats.betasInserted = 2 ∧
      stats.hoistedChecks = 1 ∧ Session.pairMarks.values.size < f'.values.size ∧
      SameSkeleton Session.pairMarks f' ∧ FlowGraph.build f' = FlowGraph.build Session.pairMarks := by
  have accepted : Session.pairMarks.verify = .ok (.ok ()) := by decide +kernel
  have computed : (fun p => p.2.toOption.map fun stats => (stats.betasInserted, stats.hoistedChecks,
      decide (Session.pairMarks.values.size < p.1.values.size))) <$>
        run .standard Session.pairMarks = .ok (some (2, 1, true)) := by
    decide +kernel
  obtain ⟨⟨f', result⟩, ran, computed⟩ := map_eq_ok.mp computed
  cases result with
  | error d => cases computed
  | ok stats =>
    have counts := Option.some.inj computed
    simp only [Prod.mk.injEq, decide_eq_true_eq] at counts
    obtain ⟨same, built⟩ := (run_keepsSkeleton accepted).1 f' _ ran
    exact ⟨accepted, f', stats, ran, counts.1, counts.2.1, counts.2.2, same, built⟩

end Pipeline

end Rangefinder
