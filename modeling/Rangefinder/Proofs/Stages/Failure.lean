import Rangefinder.Proofs.Analysis.Convergence
import Rangefinder.Proofs.Stages.Transparency

/-!
# What a failed run leaves behind

The stages change a procedure in place, and a stage that gives up does not take back what was done
before it. A procedure that is rejected by the first verification is left alone. One whose ranges do
not converge keeps the betas that were placed for the analysis: its values, lists and terminators are
the old ones but for new betas, which stand for the values that they refine. Such a procedure still
gives the answers that it gave before. The same is left when the arena is full, unless checks are
moved out of loops; then those of earlier loops have been moved already.
-/

namespace Rangefinder

namespace Procedure

variable {f f' f'' : Procedure} {g : FlowGraph} {n : Nat}

/-- To read the first value is to read the second one: they are the same, or betas among the values
from the `n`-th on lead from the one to the other. -/
inductive ReadsAs (f : Procedure) (n : Nat) : ValueId → ValueId → Prop
  | itself {x : ValueId} : ReadsAs f n x x
  | beta {v x y : ValueId} {r : Range} :
    n ≤ v → f.opcode? v = some (.beta x r) → ReadsAs f n x y → ReadsAs f n v y

/-- The second procedure is the first one with betas: the control flow, the phis and all old values
are where they were and have the types that they had, all new values are betas, and what an old value
or a terminator reads is what it read before, perhaps through new betas. -/
structure GainsBetas (f f' : Procedure) : Prop where
  flow : SameFlow f f'
  phis : ∀ b, f'.phisAt b = f.phisAt b
  instrs : ∀ b, (f'.instrsAt b).filter (fun v => decide (v < f.values.size)) = f.instrsAt b
  count : f.values.size ≤ f'.values.size
  types : ∀ v < f.values.size, f'.type? v = f.type? v
  homes : ∀ v < f.values.size, f'.home? v = f.home? v
  codes : ∀ v o, f.opcode? v = some o → ∃ ρ π, f'.opcode? v = some (o.rename ρ π) ∧
    (∀ x, f'.ReadsAs f.values.size (ρ x) x) ∧ ∀ q x, f'.ReadsAs f.values.size (π q x) x
  terminators : ∀ b t, f.terminator? b = some t → ∃ τ, f'.terminator? b = some (t.mapOperand τ) ∧
    ∀ x, f'.ReadsAs f.values.size (τ x) x
  new : ∀ v o, f'.opcode? v = some o → f.values.size ≤ v → o.isBeta = true

namespace GainsBetas

/-- No beta is gained. -/
theorem refl (s : f.Structured) : GainsBetas f f where
  flow := ⟨rfl, fun _ => rfl⟩
  phis _ := rfl
  instrs b := List.filter_eq_self.mpr fun v hv =>
    decide_eq_true (s.lt_size_of_mem (List.mem_append_right _ hv))
  count := le_rfl
  types _ _ := rfl
  homes _ _ := rfl
  codes v o code := ⟨id, fun _ => id, by rw [Opcode.rename_id, code], fun _ => .itself,
    fun _ _ => .itself⟩
  terminators b t term := ⟨id, by rw [Terminator.mapOperand_id, term], fun _ => .itself⟩
  new v o code late := absurd (lt_size_of_opcode? code) (Nat.not_lt.mpr late)

/-- Ranges and marks do not matter. -/
theorem of_sameCode (h : GainsBetas f f') (same : SameCode f' f'') : GainsBetas f f'' := by
  have reads : ∀ {a x}, f'.ReadsAs f.values.size a x → f''.ReadsAs f.values.size a x := by
    intro a x read
    induction read with
    | itself => exact .itself
    | beta late code _ ih => exact .beta late ((same.opcode? _).trans code) ih
  exact {
    flow := h.flow.trans same.layout.flow
    phis := fun b => (same.layout.phisAt b).trans (h.phis b)
    instrs := fun b => by rw [same.layout.instrsAt, h.instrs]
    count := h.count.trans_eq same.layout.valueCount.symm
    types := fun v old => (same.type? v).trans (h.types v old)
    homes := fun v old => (same.layout.home? v).trans (h.homes v old)
    codes := fun v o code => by
      obtain ⟨ρ, π, code', hρ, hπ⟩ := h.codes v o code
      exact ⟨ρ, π, (same.opcode? v).trans code', fun x => reads (hρ x), fun q x => reads (hπ q x)⟩
    terminators := fun b t term => by
      obtain ⟨τ, term', hτ⟩ := h.terminators b t term
      exact ⟨τ, (same.terminator? b).trans term', fun x => reads (hτ x)⟩
    new := fun v o code => h.new v o (same.opcode? v ▸ code) }

/-- One more beta at the top of a block, with uses redirected to it. -/
theorem place {placed : Procedure} {b : BlockId} {input : ValueId} {range : Range}
    {type : ValueType} (h : GainsBetas f f')
    (place : f'.Placed placed b [] (f'.instrsAt b) (.beta input range) type)
    (redirects : Redirects g input f'.values.size b placed f'') : GainsBetas f f'' := by
  obtain ⟨ρ, π, τ, renamed, hρ, hπ, hτ⟩ := redirects
  have old : ∀ {v o}, f'.opcode? v = some o → f''.opcode? v = some (o.rename (ρ v) (π v)) := by
    intro v o code
    rw [renamed.opcode?, place.opcode?, if_neg (Nat.ne_of_lt (lt_size_of_opcode? code)), code,
      Option.map_some]
  -- The operand of the new beta is the one use that is never redirected to it.
  have new : f''.opcode? f'.values.size = some (.beta input range) := by
    have own : ρ f'.values.size input = input :=
      (hρ f'.values.size input).resolve_right fun moved => moved.2.1 rfl
    rw [renamed.opcode?, place.opcode?, if_pos rfl]
    show some (Opcode.beta (ρ f'.values.size input) range) = _
    rw [own]
  -- A use that was redirected to the new beta reads on through it.
  have moved : ∀ {y z x}, z = y ∨ y = input ∧ z = f'.values.size →
      f''.ReadsAs f.values.size y x → f''.ReadsAs f.values.size z x := by
    rintro y z x (rfl | ⟨rfl, rfl⟩) read
    · exact read
    · exact .beta h.count new read
  have reads : ∀ {a x}, f'.ReadsAs f.values.size a x → f''.ReadsAs f.values.size a x := by
    intro a x read
    induction read with
    | itself => exact .itself
    | @beta v y _ _ late code _ ih =>
      exact .beta late (old code) (moved ((hρ v y).imp_right And.left) ih)
  refine ⟨(h.flow.trans place.flow).trans renamed.layout.flow, fun c => ?_, fun c => ?_, ?_,
    fun v isOld => ?_, fun v isOld => ?_, fun v o code => ?_, fun c t term => ?_,
    fun v o code late => ?_⟩
  · rw [renamed.layout.phisAt, place.phisAt, h.phis]
  · rw [renamed.layout.instrsAt, place.instrsAt]
    split
    · next own =>
      subst own
      rw [List.nil_append, List.filter_cons_of_neg (by simpa using h.count), h.instrs]
    · exact h.instrs c
  · rw [renamed.layout.valueCount, place.valueCount]
    exact h.count.trans (Nat.le_succ _)
  · rw [renamed.type?, place.type?, if_neg (Nat.ne_of_lt (isOld.trans_le h.count)), h.types v isOld]
  · rw [renamed.layout.home?, place.home?, if_neg (Nat.ne_of_lt (isOld.trans_le h.count)),
      h.homes v isOld]
  · obtain ⟨ρ₀, π₀, code', hρ₀, hπ₀⟩ := h.codes v o code
    refine ⟨ρ v ∘ ρ₀, fun q => π v q ∘ π₀ q, by rw [old code', Opcode.rename_rename],
      fun x => moved ((hρ v (ρ₀ x)).imp_right And.left) (reads (hρ₀ x)),
      fun q x => moved ((hπ v q (π₀ q x)).imp_right And.left) (reads (hπ₀ q x))⟩
  · obtain ⟨τ₀, term', hτ₀⟩ := h.terminators c t term
    refine ⟨τ c ∘ τ₀, ?_, fun x => moved ((hτ c (τ₀ x)).imp_right And.left) (reads (hτ₀ x))⟩
    rw [renamed.terminator?, place.terminator?, term', Option.map_some,
      Terminator.mapOperand_mapOperand]
  · rw [renamed.opcode?, place.opcode?] at code
    obtain ⟨o', code', rfl⟩ := Option.map_eq_some_iff.mp code
    rw [Opcode.isBeta_rename]
    split at code'
    · exact Option.some.inj code' ▸ rfl
    · exact h.new v o' code' late

end GainsBetas

end Procedure

namespace Session

open Procedure

variable {s t u : Session} {e : Option AnalysisError}

/-- The procedure of the session is a structured one that has gained betas only. -/
structure Refined (s t : Session) : Prop where
  structured : t.procedure.Structured
  gains : s.procedure.GainsBetas t.procedure
  config : t.config = s.config

/-- Placing a beta adds a beta, if it does not give up. -/
theorem placeBeta_refined {b : BlockId} {refinement : ValueId × Range} (refined : s.Refined t)
    (run : t.placeBeta b refinement = .ok (u, e)) : s.Refined u := by
  rcases placeBeta_cases refined.structured run with ⟨rfl, -, -⟩ |
    ⟨-, ⟨-, -, config, -⟩, placed, type, typed, place, redirects⟩
  · exact refined
  · have first := refined.structured.placeBeta (Procedure.lt_size_of_type? typed) place
    exact ⟨first.redirect (place.valueCount ▸ Nat.lt_succ_self _) redirects,
      refined.gains.place place redirects, config.trans refined.config⟩

/-- Placing all betas adds betas. -/
theorem addBetas_refined (structured : s.procedure.Structured) (run : s.addBetas = .ok (t, e)) :
    s.Refined t :=
  addBetas_keeps s.Refined (fun _ _ _ _ _ => placeBeta_refined)
    ⟨structured, .refl structured, rfl⟩ run

/-- The treatment of a loop leaves the code alone when no checks are moved. -/
theorem boundLoop_sameCode {loop : Loop} (fixed : s.config.hoistChecks = false)
    (run : s.boundLoop loop = .ok (t, e)) :
    SameCode s.procedure t.procedure ∧ t.config = s.config := by
  rcases boundLoop_cases run with ⟨rfl, -⟩ |
    ⟨l, test, sum, arena, id, stats, block, u, gaveUp, -, -, -, -, -, phis, ends⟩
  · exact ⟨.refl, rfl⟩
  have noted : SameCode s.procedure u.procedure ∧ u.config = s.config := by
    refine forEach_keeps (s := { s with arena := arena, stats := stats })
      (fun u => SameCode s.procedure u.procedure ∧ u.config = s.config)
      (fun phi _ u w e kept step => ?_) ⟨.refl, rfl⟩ phis
    rcases boundPhi_cases step with ⟨rfl, -⟩ | ⟨_, _, -, rfl, -⟩ | ⟨_, _, _, _, _, -, -, -, -, rfl, -⟩
    · exact kept
    · exact kept
    · exact ⟨kept.1.trans (sameCode_setRange phi _), kept.2⟩
  rcases ends with ⟨rfl, -⟩ | ⟨-, -, moves, -⟩
  · exact noted
  · rw [noted.2, fixed] at moves
    cases moves

/-- An analysis that gives up leaves the code alone when no checks are moved, and in any case when
the ranges do not converge. -/
theorem analyze_gaveUp_sameCode {e : AnalysisError} (run : s.analyze = .ok (t, some e))
    (fixed : (∃ capacity, e = .arenaFull capacity) → s.config.hoistChecks = false) :
    SameCode s.procedure t.procedure := by
  rcases analyze_gaveUp run with early | ⟨u, reached, loops, full⟩
  · exact (fixedPoint_sameWork early).1.code
  · have same := (fixedPoint_sameWork reached).1
    have start : u.config.hoistChecks = false := by rw [same.config]; exact fixed full
    have kept : SameCode u.procedure t.procedure ∧ t.config = u.config := by
      refine forEach_keeps (fun w => SameCode u.procedure w.procedure ∧ w.config = u.config)
        (fun loop _ w x e kept step => ?_) ⟨.refl, rfl⟩ loops
      obtain ⟨code, config⟩ := boundLoop_sameCode (kept.2 ▸ start) step
      exact ⟨kept.1.trans code, config.trans kept.2⟩
    exact same.code.trans kept.1

end Session

namespace Pipeline

open Procedure

variable {config : Config} {f f' : Procedure} {s t : Session} {d : Diagnostic} {p : Progress}

/-- A verification on the way reports a malformed procedure, or the pipeline goes on as it was. -/
theorem checkpoint_cases {point : String} (run : checkpoint s point = .ok p) :
    p = .ok s ∨ ∃ d, p = .error (s.procedure, d) ∧ d.code = .malformed := by
  rw [checkpoint] at run
  split at run
  · obtain ⟨report, verified, run⟩ := bind_eq_ok.mp run
    cases report with
    | none => exact .inl (pure_eq_ok.mp run).symm
    | some d => exact .inr ⟨d, (pure_eq_ok.mp run).symm, (verifyAt_spec verified d rfl).1⟩
  · exact .inl (pure_eq_ok.mp run).symm

/-- A pipeline that has ended had ended before, or ends in the stage. -/
theorem next_eq_error {stage : Session → Except Fault Progress}
    (run : next p stage = .ok (.error (f, d))) :
    p = .error (f, d) ∨ ∃ s, p = .ok s ∧ stage s = .ok (.error (f, d)) := by
  cases p with
  | ok s => exact .inr ⟨s, rfl, run⟩
  | error e => exact .inl (Except.ok.inj run)

/-- The stages end on a malformed procedure, or because the betas or the analysis give up. -/
theorem stages_gaveUp (run : stages s = .ok (.error (f, d))) :
    d.code = .malformed ∨
    (∃ t e, s.addBetas = .ok (t, some e) ∧ f = t.procedure ∧ d.code = e.diagnostic.code) ∨
    ∃ t u e, s.addBetas = .ok (t, none) ∧ t.analyze = .ok (u, some e) ∧ f = u.procedure ∧
      d.code = e.diagnostic.code := by
  have checked : ∀ {s : Session} {point : String}, checkpoint s point = .ok (.error (f, d)) →
      d.code = .malformed := by
    intro s point run
    rcases checkpoint_cases run with other | ⟨d', same, code⟩
    · cases other
    · exact (Prod.mk.inj (Except.error.inj same)).2 ▸ code
  obtain ⟨⟨s₁, e₁⟩, betas, run⟩ := bind_eq_ok.mp run
  obtain ⟨p₁, first, run⟩ := bind_eq_ok.mp run
  obtain ⟨p₂, second, run⟩ := bind_eq_ok.mp run
  obtain ⟨p₃, third, run⟩ := bind_eq_ok.mp run
  obtain ⟨p₄, fourth, last⟩ := bind_eq_ok.mp run
  rcases next_eq_error last with rfl | ⟨u, -, step⟩
  swap
  · split at step
    · obtain ⟨w, -, step⟩ := bind_eq_ok.mp step
      exact .inl (checked step)
    · cases Except.ok.inj step
  rcases next_eq_error fourth with rfl | ⟨u, -, step⟩
  swap
  · obtain ⟨w, -, step⟩ := bind_eq_ok.mp step
    exact .inl (checked step)
  rcases next_eq_error third with rfl | ⟨u, -, step⟩
  swap
  · split at step
    · obtain ⟨w, -, step⟩ := bind_eq_ok.mp step
      exact .inl (checked step)
    · cases Except.ok.inj step
  rcases next_eq_error second with rfl | ⟨u, rfl, step⟩
  · cases e₁ with
    | some e =>
      obtain ⟨rfl, rfl⟩ := Prod.mk.inj (Except.error.inj (Except.ok.inj first))
      exact .inr (.inl ⟨s₁, e, betas, rfl, rfl⟩)
    | none => exact .inl (checked first)
  · cases e₁ with
    | some e => cases Except.ok.inj first
    | none =>
      obtain rfl : u = s₁ := by
        rcases checkpoint_cases first with same | ⟨_, other, -⟩
        · exact Except.ok.inj same
        · cases other
      obtain ⟨⟨w, e⟩, analyzed, step⟩ := bind_eq_ok.mp step
      cases e with
      | some e =>
        obtain ⟨rfl, rfl⟩ := Prod.mk.inj (Except.error.inj (Except.ok.inj step))
        exact .inr (.inr ⟨u, w, e, betas, analyzed, rfl, rfl⟩)
      | none => exact .inl (checked step)

/-- A procedure that is rejected at the start is not touched, and one that is rejected later is what
the stages left, unless it is malformed by then. -/
theorem run_gaveUp (ran : run config f = .ok (f', .error d)) :
    ∃ left, f' = left.giveUp (rejection d) ∧
      (f.verify ≠ .ok (.ok ()) → left = f) ∧
      (f.verify = .ok (.ok ()) → d.code ≠ .malformed →
        ∃ s, Session.start f config = .ok s ∧ stages s = .ok (.error (left, d))) := by
  obtain ⟨⟨left, result⟩, attempted, ran⟩ := bind_eq_ok.mp ran
  cases result with
  | ok own => cases (Prod.mk.inj (pure_eq_ok.mp ran)).2
  | error report =>
    obtain ⟨rfl, ended⟩ := Prod.mk.inj (pure_eq_ok.mp ran)
    obtain rfl := Except.error.inj ended
    refine ⟨left, rfl, ?_⟩
    obtain ⟨verdict, verified, attempted⟩ := bind_eq_ok.mp attempted
    cases verdict with
    | some d' =>
      obtain ⟨rfl, -⟩ := Prod.mk.inj (pure_eq_ok.mp attempted)
      exact ⟨fun _ => rfl, fun accepted => absurd accepted (verifyAt_spec verified d' rfl).2⟩
    | none =>
      have accepted : f.verify = .ok (.ok ()) := by
        obtain ⟨verdict, accepted, verified⟩ := bind_eq_ok.mp verified
        cases verdict with
        | ok u => exact accepted
        | error violation => cases pure_eq_ok.mp verified
      refine ⟨fun rejected => absurd accepted rejected, fun _ intact => ?_⟩
      obtain ⟨s, started, attempted⟩ := bind_eq_ok.mp attempted
      obtain ⟨p, staged, attempted⟩ := bind_eq_ok.mp attempted
      cases p with
      | error ended =>
        obtain ⟨rfl, same⟩ := Prod.mk.inj (pure_eq_ok.mp attempted)
        exact ⟨s, started, Except.error.inj same ▸ staged⟩
      | ok t =>
        obtain ⟨verdict, -, attempted⟩ := bind_eq_ok.mp attempted
        cases verdict with
        | ok u => cases (Prod.mk.inj (pure_eq_ok.mp attempted)).2
        | error violation =>
          obtain ⟨-, same⟩ := Prod.mk.inj (pure_eq_ok.mp attempted)
          exact absurd (Except.error.inj same ▸ rfl) intact

/-- Unless checks were moved out of loops, an accepted procedure is left with its betas. -/
theorem run_leaves_betas (ran : run config f = .ok (f', .error d))
    (accepted : f.verify = .ok (.ok ())) (intact : d.code ≠ .malformed)
    (unmoved : d.code = .arenaFull → config.hoistChecks = false) :
    ∃ s t e, Session.start f config = .ok s ∧ s.addBetas = .ok (t, e) ∧ s.procedure = f ∧
      s.procedure.Structured ∧ SameCode t.procedure f' := by
  obtain ⟨left, rfl, -, later⟩ := run_gaveUp ran
  obtain ⟨s, started, staged⟩ := later accepted intact
  have mark : SameCode left (left.giveUp (rejection d)) := ⟨rfl, fun _ => rfl, fun _ => rfl⟩
  obtain ⟨own, configured, structured⟩ :
      s.procedure = f ∧ s.config = config ∧ s.procedure.Structured := by
    obtain ⟨-, g, built, wf⟩ := verify_eq_ok.mp accepted
    obtain ⟨g', -, started⟩ := bind_eq_ok.mp started
    obtain rfl := pure_eq_ok.mp started
    exact ⟨rfl, rfl, wf.structured⟩
  rcases stages_gaveUp staged with malformed | ⟨t, e, betas, rfl, -⟩ |
    ⟨t, u, e, betas, analyzed, rfl, code⟩
  · exact absurd malformed intact
  · exact ⟨s, t, some e, started, betas, own, structured, mark⟩
  · refine ⟨s, t, none, started, betas, own, structured, .trans ?_ mark⟩
    refine Session.analyze_gaveUp_sameCode analyzed fun ⟨capacity, full⟩ => ?_
    rw [(Session.addBetas_refined structured betas).config, configured]
    exact unmoved (code.trans (full ▸ rfl))

/-- What a failed run leaves behind. The procedure is marked and the reason noted. A procedure that
the verifier rejects is otherwise left as it was. One that it accepts has gained betas only, and gives
the same answers as before, unless checks were moved out of loops before the arena was full, or a
later verification fails. If none does, it is still accepted, with the control flow that it had. -/
theorem run_failed (ran : run config f = .ok (f', .error d)) :
    (f'.unsupported = true ∧ rejection d ∈ f'.reasons) ∧
    (f.verify ≠ .ok (.ok ()) → f' = f.giveUp (rejection d)) ∧
    (f.verify = .ok (.ok ()) → d.code ≠ .malformed →
      ((d.code = .arenaFull → config.hoistChecks = false) → f.GainsBetas f' ∧
        (f.AllListed → f.phisAt f.entry = [] → ∀ args halt, halt.isAnswer = true →
          (Machine.Ends f args halt ↔ Machine.Ends f' args halt))) ∧
      (f.AllListed → f.HandsOnTestable →
        f'.verify = .ok (.ok ()) ∧ FlowGraph.build f' = FlowGraph.build f)) := by
  obtain ⟨left, own, rejected, later⟩ := run_gaveUp ran
  refine ⟨?_, fun refused => by rw [own, rejected refused], fun accepted intact =>
    ⟨fun unmoved => ?_, fun listed testable => ?_⟩⟩
  · rw [own, giveUp]
    refine ⟨rfl, ?_⟩
    dsimp only
    split
    · next noted => exact noted
    · exact List.mem_append_right _ (List.mem_singleton_self _)
  · obtain ⟨s, t, e, started, betas, rfl, structured, same⟩ :=
      run_leaves_betas ran accepted intact unmoved
    refine ⟨(Session.addBetas_refined structured betas).gains.of_sameCode same,
      fun listed noPhis args halt answer => ?_⟩
    obtain ⟨-, g, built, wf⟩ := verify_eq_ok.mp accepted
    obtain ⟨g', built', started⟩ := bind_eq_ok.mp started
    obtain rfl := Except.ok.inj (built.symm.trans built')
    have consistent : s.procedure.Consistent s.graph := by
      rw [← pure_eq_ok.mp started]
      exact ⟨built, wf, listed⟩
    exact (Session.addBetas_ends_iff consistent noPhis answer betas).trans
      (Machine.runsAs_of_sameCode same).ends_iff
  · obtain ⟨s, started, staged⟩ := later accepted intact
    obtain ⟨valid, loops⟩ := start_valid accepted listed testable started
    have kept : ∃ u, s.Keeps u ∧ left = u.procedure := by
      rcases stages_gaveUp staged with malformed | ⟨t, e, betas, rfl, -⟩ |
        ⟨t, u, e, betas, analyzed, rfl, -⟩
      · exact absurd malformed intact
      · exact ⟨t, (Session.addBetas_valid valid betas).1, rfl⟩
      · have first := (Session.addBetas_valid valid betas).1
        have second := (Session.analyze_keeps first.valid (loops.keeps valid first) analyzed).1
        exact ⟨u, first.trans second, rfl⟩
    obtain ⟨u, keeps, rfl⟩ := kept
    have mark : SameCode u.procedure f' := own ▸ ⟨rfl, fun _ => rfl, fun _ => rfl⟩
    have after := keeps.valid.of_sameCode mark
    refine ⟨after.verify, ?_⟩
    obtain ⟨g, built, started⟩ := bind_eq_ok.mp started
    rw [after.built, built, keeps.graph, ← pure_eq_ok.mp started]

/-- Returns its parameter, but ten at most. -/
def atMostTen : Procedure where
  name := "f"
  entry := 0
  blocks := #[⟨0, [], [0, 1, 2], .branch 2 1 2, false⟩, ⟨1, [], [], .exit (some 0), false⟩,
    ⟨2, [], [], .exit (some 1), false⟩]
  values := #[⟨0, .param 0, .int32, some 0, none⟩, ⟨1, .const (.int 10), .int32, some 0, none⟩,
    ⟨2, .compare .lt 0 1, .boolean, some 0, none⟩]
  unsupported := false
  reasons := []

/-- Without a single pass the ranges of `atMostTen` do not converge; it satisfies the conditions. -/
theorem atMostTen_failed :
    (atMostTen.verify = .ok (.ok ()) ∧ atMostTen.AllListed ∧ atMostTen.HandsOnTestable ∧
      atMostTen.phisAt atMostTen.entry = []) ∧
    ∃ f' d, run { Config.standard with maxIterations := 0 } atMostTen = .ok (f', .error d) ∧
      d.code = .notConverged ∧ atMostTen.GainsBetas f' ∧ f'.verify = .ok (.ok ()) ∧
      ∀ args halt, halt.isAnswer = true →
        (Machine.Ends atMostTen args halt ↔ Machine.Ends f' args halt) := by
  have accepted : atMostTen.verify = .ok (.ok ()) := by decide +kernel
  have listed : atMostTen.AllListed := by decide +kernel
  have testable : atMostTen.HandsOnTestable := by decide +kernel
  have computed : (fun p => p.2.mapError Diagnostic.code) <$>
      run { Config.standard with maxIterations := 0 } atMostTen = .ok (.error .notConverged) := by
    decide +kernel
  obtain ⟨⟨f', result⟩, ran, computed⟩ := map_eq_ok.mp computed
  cases result with
  | ok stats => cases computed
  | error d =>
    have code : d.code = .notConverged := Except.error.inj computed
    have left := (run_failed ran).2.2 accepted (by simp [code])
    obtain ⟨gains, answers⟩ := left.1 (by simp [code])
    exact ⟨⟨accepted, listed, testable, rfl⟩, f', d, ran, code, gains, (left.2 listed testable).1,
      answers listed rfl⟩

/-- A run that fails does not leave the procedure as it was: two betas stand in `atMostTen`, and the
parameter that it returns is read through one of them. -/
theorem atMostTen_keepsBetas :
    ∃ f' d, run { Config.standard with maxIterations := 0 } atMostTen = .ok (f', .error d) ∧
      d.code = .notConverged ∧ atMostTen.values.size = 3 ∧ f'.values.size = 5 ∧
      atMostTen.instrsAt 1 = [] ∧ f'.instrsAt 1 = [4] ∧
      (f'.opcode? 4).map Opcode.isBeta = some true ∧
      atMostTen.terminator? 1 = some (.exit (some 0)) ∧
      f'.terminator? 1 = some (.exit (some 4)) := by
  have computed : (fun p => decide (p.2.mapError Diagnostic.code = .error .notConverged ∧
      atMostTen.values.size = 3 ∧ p.1.values.size = 5 ∧ atMostTen.instrsAt 1 = [] ∧
      p.1.instrsAt 1 = [4] ∧ (p.1.opcode? 4).map Opcode.isBeta = some true ∧
      atMostTen.terminator? 1 = some (.exit (some 0)) ∧
      p.1.terminator? 1 = some (.exit (some 4)))) <$>
        run { Config.standard with maxIterations := 0 } atMostTen = .ok true := by
    decide +kernel
  obtain ⟨⟨f', result⟩, ran, computed⟩ := map_eq_ok.mp computed
  obtain ⟨failed, facts⟩ := of_decide_eq_true computed
  cases result with
  | ok stats => cases failed
  | error d => exact ⟨f', d, ran, Except.error.inj failed, facts⟩

end Pipeline

end Rangefinder
