import Rangefinder.Pipeline
import Rangefinder.Proofs.Stages.Hoisting
import Rangefinder.Proofs.Stages.Truncation

/-!
# Every stage of the pipeline keeps procedures well-formed

The stages before the removal of the betas keep a procedure valid, in whatever order they run, so
the verifier accepts what they leave. The removal of the betas and the truncation collapse
instructions, and there the verifier accepts what they leave exactly when no phi has been cut off
from its own value. A run of the pipeline therefore ends with the report of a malformed procedure
only in that one situation, and it never reports a broken internal promise.

Two properties of the procedure at the start carry this, neither of which the verifier asks for:
every value is listed in the block that it stands in, and what a value of a type that can be tested
hands on is of such a type as well.
-/

namespace Rangefinder

namespace Pipeline

/-- A session that the stages before the removal of the betas lead to. -/
inductive WithBetas (config : Config) (f : Procedure) : Session → Prop
  | start {s : Session} : Session.start f config = .ok s → WithBetas config f s
  | addBetas {s t : Session} {e : Option AnalysisError} :
    WithBetas config f s → s.addBetas = .ok (t, e) → WithBetas config f t
  | analyze {s t : Session} {e : Option AnalysisError} :
    WithBetas config f s → s.analyze = .ok (t, e) → WithBetas config f t
  | addAssertions {s t : Session} :
    WithBetas config f s → s.addAssertions = .ok t → WithBetas config f t

/-- A session that the removal of the betas and the stages after it lead to. -/
inductive WithoutBetas (config : Config) (f : Procedure) : Session → Prop
  | removeBetas {s t : Session} :
    WithBetas config f s → s.removeBetas = .ok t → WithoutBetas config f t
  | truncate {s t : Session} :
    WithoutBetas config f s → s.truncate = .ok t → WithoutBetas config f t

/-- What the verifier and the conditions on the start give: the session starts with a valid
procedure and with its natural loops. -/
theorem start_valid {config : Config} {f : Procedure} {s : Session}
    (accepted : f.verify = .ok (.ok ())) (listed : f.AllListed) (testable : f.HandsOnTestable)
    (start : Session.start f config = .ok s) : s.Valid ∧ s.LoopsNatural := by
  obtain ⟨branches, g, built, wf⟩ := Procedure.verify_eq_ok.mp accepted
  obtain ⟨g', built', started⟩ := bind_eq_ok.mp start
  obtain rfl := Except.ok.inj (built.symm.trans built')
  obtain rfl := pure_eq_ok.mp started
  have valid : f.Valid g := ⟨built, wf, listed, branches, testable⟩
  obtain ⟨natural, ordered⟩ := FlowGraph.loops_spec valid.describes
  exact ⟨valid, natural, ordered⟩

end Pipeline

/-- A stage that keeps the procedure valid keeps its natural loops. -/
theorem Session.LoopsNatural.keeps {s t : Session} (loops : s.LoopsNatural) (valid : s.Valid)
    (kept : s.Keeps t) : t.LoopsNatural where
  natural l hl := by
    rw [kept.graph]
    exact (loops.natural l (kept.loops ▸ hl)).of_describes valid.describes
      (kept.graph ▸ kept.valid.describes)
  ordered := by
    rw [kept.loops]
    exact loops.ordered

namespace Pipeline

variable {config : Config} {f f' : Procedure} {s t : Session} {p : Progress} {point : String}
  {d : Diagnostic}

/-- The procedure is valid as long as it has betas. -/
theorem WithBetas.valid (reached : WithBetas config f s) (accepted : f.verify = .ok (.ok ()))
    (listed : f.AllListed) (testable : f.HandsOnTestable) : s.Valid ∧ s.LoopsNatural := by
  induction reached with
  | start started => exact start_valid accepted listed testable started
  | addBetas _ run ih =>
    obtain ⟨kept, -⟩ := Session.addBetas_valid ih.1 run
    exact ⟨kept.valid, ih.2.keeps ih.1 kept⟩
  | analyze _ run ih =>
    obtain ⟨kept, -⟩ := Session.analyze_keeps ih.1 ih.2 run
    exact ⟨kept.valid, ih.2.keeps ih.1 kept⟩
  | addAssertions _ run ih =>
    have kept := Session.addAssertions_valid ih.1 run
    exact ⟨kept.valid, ih.2.keeps ih.1 kept⟩

/-- The procedure is intact when its betas are gone, and they stay away. -/
theorem WithoutBetas.intact (reached : WithoutBetas config f s)
    (accepted : f.verify = .ok (.ok ())) (listed : f.AllListed) (testable : f.HandsOnTestable) :
    s.procedure.Intact s.graph ∧ s.procedure.BetaFree := by
  induction reached with
  | removeBetas before run =>
    obtain ⟨intact, -, free⟩ :=
      Session.removeBetas_intact (before.valid accepted listed testable).1.intact run
    exact ⟨intact, free⟩
  | truncate _ run ih =>
    obtain ⟨intact, free, -⟩ := Session.truncate_spec ih.1 ih.2 run
    exact ⟨intact, free⟩

/-- A procedure without betas passes the last verification when it passes the verification. -/
theorem verifyBetaFree_iff (free : f.BetaFree) :
    f.verifyBetaFree = .ok (.ok ()) ↔ f.verify = .ok (.ok ()) := by
  rw [Procedure.verifyBetaFree, Procedure.strayBeta?_eq_none.mpr free]
  cases f.verify with
  | error e => simp [bind, Except.bind]
  | ok result => cases result <;> simp [bind, Except.bind, pure, Except.pure]

/-- The report of a stage that gave up on a full arena or on ranges that did not converge, or of a
malformed procedure in which a phi was cut off from its own value. -/
def Excused (f : Procedure) (d : Diagnostic) : Prop :=
  d.code = .arenaFull ∨ d.code = .notConverged ∨
    d.code = .malformed ∧ ∃ g, FlowGraph.build f = .ok g ∧ f.SelfFed g

/-- A pipeline that goes on does so in a session that the stages lead to, and one that ends is
excused. -/
def Proceeds (reached : Session → Prop) : Progress → Prop
  | .ok s => reached s
  | .error (f, d) => Excused f d

/-- A stage continues what has gone well so far. -/
theorem next_proceeds {reached reached' : Session → Prop} {p p' : Progress}
    {stage : Session → Except Fault Progress} (h : Proceeds reached p)
    (step : ∀ s p', reached s → stage s = .ok p' → Proceeds reached' p')
    (run : next p stage = .ok p') : Proceeds reached' p' := by
  cases p with
  | ok s => exact step s p' h run
  | error e => exact Except.ok.inj run ▸ h

/-- A verification reports a malformed procedure only if the verifier rejects it. -/
theorem verifyAt_spec {report : Option Diagnostic} (run : verifyAt f point = .ok report) :
    ∀ d ∈ report, d.code = .malformed ∧ f.verify ≠ .ok (.ok ()) := by
  obtain ⟨result, verified, run⟩ := bind_eq_ok.mp run
  rw [verified]
  cases result with
  | ok u => exact pure_eq_ok.mp run ▸ by simp
  | error violation =>
    obtain rfl := pure_eq_ok.mp run
    rintro d ⟨⟩
    exact ⟨rfl, by simp⟩

/-- The verification after a stage lets procedures pass that the verifier accepts, or else a phi was
cut off from its own value. -/
theorem checkpoint_proceeds {reached : Session → Prop} (here : reached s)
    (intact : s.procedure.Intact s.graph) (run : checkpoint s point = .ok p) :
    Proceeds reached p := by
  rw [checkpoint] at run
  split at run
  · obtain ⟨report, verified, run⟩ := bind_eq_ok.mp run
    have spec := verifyAt_spec verified
    cases report with
    | none => exact pure_eq_ok.mp run ▸ here
    | some d =>
      obtain rfl := pure_eq_ok.mp run
      obtain ⟨code, rejected⟩ := spec d rfl
      exact .inr (.inr ⟨code, s.graph, intact.built,
        not_not.mp fun fed => rejected (intact.verify_iff.mpr fed)⟩)
  · exact pure_eq_ok.mp run ▸ here

/-- A stage that gives up only for an excused reason lets the pipeline proceed. -/
theorem afterStage_proceeds {reached : Session → Prop} {pass point : String} {e : Option AnalysisError}
    (here : reached s) (intact : s.procedure.Intact s.graph)
    (reason : ∀ r ∈ e, (∃ passes, r = .notConverged passes) ∨ ∃ capacity, r = .arenaFull capacity)
    (run : afterStage pass point (s, e) = .ok p) : Proceeds reached p := by
  cases e with
  | none => exact checkpoint_proceeds here intact run
  | some r =>
    obtain rfl := Except.ok.inj run
    rcases reason r rfl with ⟨passes, rfl⟩ | ⟨capacity, rfl⟩
    · exact .inr (.inl rfl)
    · exact .inl rfl

/-- The stages lead to a session without betas, or end with an excuse. -/
theorem stages_proceed (accepted : f.verify = .ok (.ok ())) (listed : f.AllListed)
    (testable : f.HandsOnTestable) (started : Session.start f config = .ok s) (run : stages s = .ok p) :
    Proceeds (WithoutBetas config f) p := by
  have intact : ∀ {u}, WithBetas config f u → u.procedure.Intact u.graph := fun h =>
    (h.valid accepted listed testable).1.intact
  have intact' : ∀ {u}, WithoutBetas config f u → u.procedure.Intact u.graph := fun h =>
    (h.intact accepted listed testable).1
  obtain ⟨⟨s₁, e₁⟩, betas, run⟩ := bind_eq_ok.mp run
  obtain ⟨p₁, first, run⟩ := bind_eq_ok.mp run
  obtain ⟨p₂, second, run⟩ := bind_eq_ok.mp run
  obtain ⟨p₃, third, run⟩ := bind_eq_ok.mp run
  obtain ⟨p₄, fourth, last⟩ := bind_eq_ok.mp run
  have start : WithBetas config f s := .start started
  obtain ⟨-, rfl⟩ := Session.addBetas_valid (start.valid accepted listed testable).1 betas
  have h₁ : Proceeds (WithBetas config f) p₁ :=
    afterStage_proceeds (start.addBetas betas) (intact (start.addBetas betas)) (by simp) first
  have h₂ : Proceeds (WithBetas config f) p₂ := by
    refine next_proceeds h₁ (fun u p here step => ?_) second
    obtain ⟨⟨w, e⟩, analyzed, step⟩ := bind_eq_ok.mp step
    obtain ⟨valid, loops⟩ := here.valid accepted listed testable
    obtain ⟨-, reason⟩ := Session.analyze_keeps valid loops analyzed
    exact afterStage_proceeds (here.analyze analyzed) (intact (here.analyze analyzed)) reason step
  have h₃ : Proceeds (WithBetas config f) p₃ := by
    refine next_proceeds h₂ (fun u p here step => ?_) third
    split at step
    · obtain ⟨w, asserted, step⟩ := bind_eq_ok.mp step
      exact checkpoint_proceeds (here.addAssertions asserted) (intact (here.addAssertions asserted))
        step
    · exact Except.ok.inj step ▸ here
  have h₄ : Proceeds (WithoutBetas config f) p₄ := by
    refine next_proceeds h₃ (fun u p here step => ?_) fourth
    obtain ⟨w, removed, step⟩ := bind_eq_ok.mp step
    have there := WithoutBetas.removeBetas here removed
    exact checkpoint_proceeds there (intact' there) step
  refine next_proceeds h₄ (fun u p here step => ?_) last
  split at step
  · obtain ⟨w, truncated, step⟩ := bind_eq_ok.mp step
    have there := here.truncate truncated
    exact checkpoint_proceeds there (intact' there) step
  · exact Except.ok.inj step ▸ here

/-- An attempt on an accepted procedure succeeds or is excused. -/
theorem attempt_excused (accepted : f.verify = .ok (.ok ())) (listed : f.AllListed)
    (testable : f.HandsOnTestable) (run : attempt config f = .ok (f', .error d)) :
    Excused f' d := by
  obtain ⟨report, verified, run⟩ := bind_eq_ok.mp run
  cases report with
  | some d => exact absurd accepted (verifyAt_spec verified d rfl).2
  | none =>
    obtain ⟨s, started, run⟩ := bind_eq_ok.mp run
    obtain ⟨p, staged, run⟩ := bind_eq_ok.mp run
    have proceeds := stages_proceed accepted listed testable started staged
    cases p with
    | error e =>
      obtain ⟨rfl, ended⟩ := Prod.mk.inj (pure_eq_ok.mp run)
      exact Except.error.inj ended ▸ proceeds
    | ok t =>
      obtain ⟨intact, free⟩ := WithoutBetas.intact proceeds accepted listed testable
      obtain ⟨result, last, run⟩ := bind_eq_ok.mp run
      cases result with
      | ok u => cases (Prod.mk.inj (pure_eq_ok.mp run)).2
      | error violation =>
        obtain ⟨rfl, ended⟩ := Prod.mk.inj (pure_eq_ok.mp run)
        obtain rfl := Except.error.inj ended
        refine .inr (.inr ⟨rfl, t.graph, intact.built, not_not.mp fun fed => ?_⟩)
        have passes := (verifyBetaFree_iff free).mpr (intact.verify_iff.mpr fed)
        rw [last] at passes
        cases Except.ok.inj passes

/-- An attempt that succeeds ends with a procedure that passes the last verification. -/
theorem attempt_verified {stats : Stats} (run : attempt config f = .ok (f', .ok stats)) :
    f'.verifyBetaFree = .ok (.ok ()) := by
  obtain ⟨report, -, run⟩ := bind_eq_ok.mp run
  cases report with
  | some d => cases (Prod.mk.inj (pure_eq_ok.mp run)).2
  | none =>
    obtain ⟨s, -, run⟩ := bind_eq_ok.mp run
    obtain ⟨p, -, run⟩ := bind_eq_ok.mp run
    cases p with
    | error e => cases (Prod.mk.inj (pure_eq_ok.mp run)).2
    | ok t =>
      obtain ⟨result, last, run⟩ := bind_eq_ok.mp run
      cases result with
      | ok u =>
        obtain ⟨rfl, -⟩ := Prod.mk.inj (pure_eq_ok.mp run)
        exact last
      | error violation => cases (Prod.mk.inj (pure_eq_ok.mp run)).2

/-- What a procedure that was given up is excused for is not touched by the mark. -/
theorem Excused.giveUp (h : Excused f d) (reason : String) :
    Excused (f.giveUp reason) d := by
  have same : Procedure.SameCode f (f.giveUp reason) := ⟨rfl, fun _ => rfl, fun _ => rfl⟩
  refine h.imp_right (.imp_right fun ⟨code, g, built, fed⟩ => ⟨code, g, ?_, fed.of_sameCode same⟩)
  exact same.layout.flow.build.trans built

/-- The verifier accepts the procedure after every stage up to the removal of the betas. After the
removal and the truncation the stricter verification accepts it exactly when no phi was cut off from
its own value. So a run ends with a procedure that is accepted, or it gives up on a full arena or on
ranges that do not converge, or such a phi is left; it never reports an internal error. -/
theorem run_verified (accepted : f.verify = .ok (.ok ())) (listed : f.AllListed)
    (testable : f.HandsOnTestable) :
    (∀ s, WithBetas config f s → s.procedure.verify = .ok (.ok ())) ∧
    (∀ s, WithoutBetas config f s →
      (s.procedure.verifyBetaFree = .ok (.ok ()) ↔ ¬s.procedure.SelfFed s.graph)) ∧
    (∀ f' stats, run config f = .ok (f', .ok stats) → f'.verifyBetaFree = .ok (.ok ())) ∧
    ∀ f' d, run config f = .ok (f', .error d) →
      d.code = .arenaFull ∨ d.code = .notConverged ∨
        d.code = .malformed ∧ ∃ g, FlowGraph.build f' = .ok g ∧ f'.SelfFed g := by
  refine ⟨fun s here => (here.valid accepted listed testable).1.verify, fun s here => ?_,
    fun f' stats ran => ?_, fun f' d ran => ?_⟩
  · obtain ⟨intact, free⟩ := here.intact accepted listed testable
    rw [verifyBetaFree_iff free, intact.verify_iff]
  · obtain ⟨⟨f₁, result⟩, attempted, ran⟩ := bind_eq_ok.mp ran
    cases result with
    | ok own =>
      obtain ⟨rfl, -⟩ := Prod.mk.inj (pure_eq_ok.mp ran)
      exact attempt_verified attempted
    | error d => cases (Prod.mk.inj (pure_eq_ok.mp ran)).2
  · obtain ⟨⟨f₁, result⟩, attempted, ran⟩ := bind_eq_ok.mp ran
    cases result with
    | ok own => cases (Prod.mk.inj (pure_eq_ok.mp ran)).2
    | error report =>
      obtain ⟨rfl, ended⟩ := Prod.mk.inj (pure_eq_ok.mp ran)
      obtain rfl := Except.error.inj ended
      exact (attempt_excused accepted listed testable attempted).giveUp _

/-- Counts from 0 to 9 and checks the counter against the length of an array in each round. -/
def countingLoop : Procedure where
  name := "count"
  entry := 0
  blocks := #[⟨0, [], [0, 1, 2, 3, 4], .goto 1, false⟩, ⟨1, [5], [6], .branch 6 2 3, false⟩,
    ⟨2, [], [7, 8], .goto 1, false⟩, ⟨3, [], [], .exit (some 5), false⟩]
  values := #[⟨0, .const (.int 0), .int32, some 0, none⟩, ⟨1, .const (.int 10), .int32, some 0, none⟩,
    ⟨2, .const (.int 1), .int32, some 0, none⟩, ⟨3, .param 0, .object, some 0, none⟩,
    ⟨4, .arrayLength 3, .int32, some 0, none⟩, ⟨5, .phi [(0, 0), (8, 2)], .int32, some 1, none⟩,
    ⟨6, .compare .lt 5 1, .boolean, some 1, none⟩,
    ⟨7, .boundsCheck 5 4 0 0 true, .int32, some 2, none⟩,
    ⟨8, .binary .add 7 2 .checked, .int32, some 2, none⟩]
  unsupported := false
  reasons := []

/-- The code of the report that a run of the pipeline ends with. -/
def reportedCode (config : Config) (f : Procedure) : Option ErrorCode :=
  match run config f with
  | .ok (_, .error d) => some d.code
  | _ => none

/-- The loop that counts satisfies the conditions. It gains values before it loses its betas, no phi of it
is cut off, and a run on it succeeds; with no passes allowed, the run gives up. -/
theorem countingLoop_run_verified :
    (countingLoop.verify = .ok (.ok ()) ∧ countingLoop.AllListed ∧
      countingLoop.HandsOnTestable) ∧
    (∃ s, WithBetas .standard countingLoop s ∧ countingLoop.values.size < s.procedure.values.size ∧
      s.procedure.verify = .ok (.ok ())) ∧
    (∃ s, WithoutBetas .standard countingLoop s ∧ s.procedure.verifyBetaFree = .ok (.ok ()) ∧
      ¬s.procedure.SelfFed s.graph) ∧
    (∃ f' stats, run .standard countingLoop = .ok (f', .ok stats) ∧ f'.verifyBetaFree = .ok (.ok ())) ∧
    reportedCode { Config.standard with maxIterations := 0 } countingLoop = some .notConverged ∧
    ∀ config f' d, run config countingLoop = .ok (f', .error d) →
      d.code = .arenaFull ∨ d.code = .notConverged ∨
        d.code = .malformed ∧ ∃ g, FlowGraph.build f' = .ok g ∧ f'.SelfFed g := by
  have accepted : countingLoop.verify = .ok (.ok ()) := by decide +kernel
  have listed : countingLoop.AllListed := by decide +kernel
  have testable : countingLoop.HandsOnTestable := by decide +kernel
  have computed : (do
      let s ← Session.start countingLoop .standard
      let (t, _) ← s.addBetas
      let (u, _) ← t.analyze
      let w ← u.addAssertions
      let x ← w.removeBetas
      let y ← x.truncate
      return decide (countingLoop.values.size < w.procedure.values.size ∧
        y.procedure.verifyBetaFree = .ok (.ok ()))) = Except.ok true := by
    decide +kernel
  obtain ⟨s, started, computed⟩ := bind_eq_ok.mp computed
  obtain ⟨⟨t, _⟩, betas, computed⟩ := bind_eq_ok.mp computed
  obtain ⟨⟨u, _⟩, analyzed, computed⟩ := bind_eq_ok.mp computed
  obtain ⟨w, asserted, computed⟩ := bind_eq_ok.mp computed
  obtain ⟨x, removed, computed⟩ := bind_eq_ok.mp computed
  obtain ⟨y, truncated, computed⟩ := bind_eq_ok.mp computed
  obtain ⟨gained, free⟩ := of_decide_eq_true (pure_eq_ok.mp computed)
  have last : WithBetas .standard countingLoop w :=
    (((WithBetas.start started).addBetas betas).analyze analyzed).addAssertions asserted
  have final : WithoutBetas .standard countingLoop y := .truncate (.removeBetas last removed) truncated
  have ended : (fun r => r.2.isOk) <$> run .standard countingLoop = .ok true := by decide +kernel
  obtain ⟨⟨f', result⟩, ran, succeeded⟩ := map_eq_ok.mp ended
  obtain ⟨accepts, accepts', delivers, -⟩ := @run_verified .standard _ accepted listed testable
  refine ⟨⟨accepted, listed, testable⟩, ⟨w, last, gained, accepts w last⟩,
    ⟨y, final, free, (accepts' y final).mp free⟩, ?_, by decide +kernel,
    fun config => (run_verified accepted listed testable).2.2.2⟩
  cases result with
  | ok stats => exact ⟨f', stats, ran, delivers f' stats ran⟩
  | error d => cases succeeded

/-- A loop whose phi reads itself in later rounds. -/
def idleLoop : Procedure where
  name := "idle"
  entry := 0
  blocks := #[⟨0, [], [0, 1], .goto 1, false⟩, ⟨1, [2], [3], .branch 3 2 3, false⟩,
    ⟨2, [], [], .goto 1, false⟩, ⟨3, [], [], .exit (some 2), false⟩]
  values := #[⟨0, .const (.int 0), .int32, some 0, none⟩, ⟨1, .const (.int 10), .int32, some 0, none⟩,
    ⟨2, .phi [(0, 0), (2, 2)], .int32, some 1, none⟩, ⟨3, .compare .lt 2 1, .boolean, some 1, none⟩]
  unsupported := false
  reasons := []

/-- A phi that reads itself is cut off from its own value: the pipeline reports a procedure as
malformed that was accepted at the start. -/
theorem idleLoop_malformed :
    idleLoop.verify = .ok (.ok ()) ∧ idleLoop.AllListed ∧ idleLoop.HandsOnTestable ∧
      reportedCode .standard idleLoop = some .malformed := by
  decide +kernel

end Pipeline

end Rangefinder
