import Rangefinder.Proofs.Stages.Skeleton

/-!
# Runs of optimized procedures

A procedure that the pipeline has optimized is run like any other one. No run of it ends because the
procedure is malformed, or because the machine reaches for something that is not there
(`optimized_orderly`). What remains are results, bailouts, and failures that come from the data of the run.

Among these failures are some that the procedure did not have before. The ranges and the flags that the
analysis leaves are not true of every run, so an operation may give what its flags rule out
(`doubledMask_breaches`), a value may lie outside its range (`twoWays_exceeds`), and a procedure with
assertions may fail where the one that it was made from returns (`twoWays_diverges`).
-/

namespace Rangefinder

open Procedure Machine

namespace Procedure

/-- What the pipeline is given: an accepted procedure on int32 numbers, with plain operations. -/
structure Optimizable (f : Procedure) : Prop where
  accepted : f.verify = .ok (.ok ())
  noPhis : f.phisAt f.entry = []
  listed : f.AllListed
  ints : f.Int32Only
  plain : f.Plain

instance {f : Procedure} : Decidable f.Optimizable :=
  decidable_of_iff (f.verify = .ok (.ok ()) ∧ f.phisAt f.entry = [] ∧ f.AllListed ∧ f.Int32Only ∧ f.Plain)
    ⟨fun h => ⟨h.1, h.2.1, h.2.2.1, h.2.2.2.1, h.2.2.2.2⟩,
      fun h => ⟨h.accepted, h.noPhis, h.listed, h.ints, h.plain⟩⟩

end Procedure

namespace Pipeline

variable {config : Config} {f f' : Procedure} {args : List Number}

/-- The procedure that the pipeline leaves if it does not reject the given one. -/
def optimized (config : Config) (f : Procedure) : Option Procedure :=
  match run config f with
  | .ok (f', .ok _) => some f'
  | _ => none

/-- When the pipeline leaves a procedure. -/
theorem optimized_eq_some : optimized config f = some f' ↔ ∃ stats, run config f = .ok (f', .ok stats) := by
  rw [optimized]
  constructor
  · intro found
    split at found
    · next g stats ran =>
      obtain rfl := Option.some.inj found
      exact ⟨stats, ran⟩
    · cases found
  · rintro ⟨stats, ran⟩
    rw [ran]

/-- An optimized procedure is what the stages lead to. -/
theorem withoutBetas_of_attempt {stats : Stats} (accepted : f.verify = .ok (.ok ())) (listed : f.AllListed)
    (testable : f.HandsOnTestable) (run : attempt config f = .ok (f', .ok stats)) :
    ∃ s, WithoutBetas config f s ∧ s.procedure = f' := by
  obtain ⟨report, -, run⟩ := bind_eq_ok.mp run
  cases report with
  | some d => cases (Prod.mk.inj (pure_eq_ok.mp run)).2
  | none =>
    obtain ⟨s, started, run⟩ := bind_eq_ok.mp run
    obtain ⟨p, staged, run⟩ := bind_eq_ok.mp run
    have proceeds := stages_proceed accepted listed testable started staged
    cases p with
    | error e => cases (Prod.mk.inj (pure_eq_ok.mp run)).2
    | ok t =>
      obtain ⟨result, -, run⟩ := bind_eq_ok.mp run
      cases result with
      | ok u => exact ⟨t, proceeds, (Prod.mk.inj (pure_eq_ok.mp run)).1⟩
      | error violation => cases (Prod.mk.inj (pure_eq_ok.mp run)).2

/-- Optimized procedures are consistent, and nothing precedes the instructions of their entry. -/
theorem optimized_consistent (accepted : f.verify = .ok (.ok ())) (listed : f.AllListed)
    (testable : f.HandsOnTestable) (found : optimized config f = some f') :
    (∃ g, f'.Consistent g) ∧ f'.phisAt f'.entry = f.phisAt f.entry := by
  obtain ⟨stats, ran⟩ := optimized_eq_some.mp found
  obtain ⟨-, g, -, wf⟩ := verify_eq_ok.mp accepted
  have skeleton := Evolves.sameSkeleton (run_evolves ran) wf.structured.listsPhis
  obtain ⟨⟨left, result⟩, attempted, ended⟩ := bind_eq_ok.mp ran
  cases result with
  | error d => cases (Prod.mk.inj (pure_eq_ok.mp ended)).2
  | ok own =>
    obtain ⟨rfl, -⟩ := Prod.mk.inj (pure_eq_ok.mp ended)
    obtain ⟨s, reached, rfl⟩ := withoutBetas_of_attempt accepted listed testable attempted
    obtain ⟨intact, free⟩ := reached.intact accepted listed testable
    have verified := (verifyBetaFree_iff free).mp (attempt_verified attempted)
    obtain ⟨-, g, built, wf⟩ := verify_eq_ok.mp verified
    exact ⟨⟨g, built, wf, intact.listed⟩, by rw [skeleton.phisAt, skeleton.flow.entry]⟩

/-- Whatever the configuration, no run of an optimized procedure ends because the procedure is malformed or
because something is not there. -/
theorem optimized_orderly (accepted : f.verify = .ok (.ok ())) (noPhis : f.phisAt f.entry = [])
    (listed : f.AllListed) (testable : f.HandsOnTestable) (found : optimized config f = some f')
    (budget : Nat) : ∀ halt ∈ Machine.run f' args budget, halt.isOrderly = true := by
  obtain ⟨⟨g, consistent⟩, phis⟩ := optimized_consistent accepted listed testable found
  have wf := consistent.wellFormed
  intro halt ended
  rcases run_eq_some ended with failed | ⟨s, reached, failed⟩
  · rw [start_eq_ok wf.structured.entry] at failed
    cases failed
  · have holds := (maintained_isSet wf).reached wf consistent.describes consistent.listed (phis.trans noPhis)
      reached
    exact step_orderly wf consistent.describes consistent.listed holds failed

/-- Doubles the low bits of the argument, and takes the remainder by eight of what is above 16 bits. -/
def doubledMask : Procedure where
  name := "doubledMask"
  entry := 0
  blocks := #[⟨0, [], [0, 1, 2, 3, 4, 5, 6, 7], .exit (some 7), false⟩]
  values := #[⟨0, .param 0, .int32, some 0, none⟩, ⟨1, .const (.int 2147483647), .int32, some 0, none⟩,
    ⟨2, .binary .bitAnd 0 1 .checked, .int32, some 0, none⟩,
    ⟨3, .binary .add 2 2 .checked, .int32, some 0, none⟩, ⟨4, .const (.int 16), .int32, some 0, none⟩,
    ⟨5, .binary .shiftRight 3 4 .checked, .int32, some 0, none⟩,
    ⟨6, .const (.int 8), .int32, some 0, none⟩, ⟨7, .binary .mod 5 6 .checked, .int32, some 0, none⟩]
  unsupported := false
  reasons := []

/-- A flag need not be true of every run. In `doubledMask` the sum is reduced modulo 2^32, though the flags of
the remainder rest on a sum that is not negative. Where the procedure bailed out at the sum, the optimized one
has a remainder of negative zero, which its flags rule out. -/
theorem doubledMask_breaches : doubledMask.Optimizable ∧
    Machine.run doubledMask [.ofInt 1073741824] 10 = some (.bailout 3 .int32Overflow) ∧
    ∃ f', optimized .standard doubledMask = some f' ∧
      Machine.run f' [.ofInt 1073741824] 10 = some (.failed (.unexpectedNegativeZero 7)) := by
  have computed : (optimized .standard doubledMask).map
      (fun f' => decide (Machine.run f' [.ofInt 1073741824] 10 =
        some (.failed (.unexpectedNegativeZero 7)))) = some true := by decide +kernel
  obtain ⟨f', found, fails⟩ := Option.map_eq_some_iff.mp computed
  exact ⟨by decide +kernel, by decide +kernel, f', found, of_decide_eq_true fails⟩

/-- Joins five, from a loop that is entered at two places, with zero. -/
def twoWays : Procedure where
  name := "twoWays"
  entry := 0
  blocks := #[⟨0, [], [0, 1, 2, 3, 4, 5], .branch 4 1 3, false⟩, ⟨1, [], [], .goto 2, false⟩,
    ⟨2, [7], [], .branch 5 4 3, false⟩, ⟨3, [], [6], .branch 5 2 4, false⟩,
    ⟨4, [8], [], .exit (some 8), false⟩]
  values := #[⟨0, .param 0, .int32, some 0, none⟩, ⟨1, .const (.int 255), .int32, some 0, none⟩,
    ⟨2, .binary .bitAnd 0 1 .checked, .int32, some 0, none⟩,
    ⟨3, .const (.int 0), .int32, some 0, none⟩, ⟨4, .compare .lt 2 3, .boolean, some 0, none⟩,
    ⟨5, .param 1, .boolean, some 0, none⟩, ⟨6, .const (.int 5), .int32, some 3, none⟩,
    ⟨7, .phi [(3, 1), (6, 3)], .int32, some 2, none⟩,
    ⟨8, .phi [(7, 2), (3, 3)], .int32, some 4, none⟩]
  unsupported := false
  reasons := []

/-- The session with betas and the one after the analysis. -/
def analysisOf (config : Config) (f : Procedure) : Attempt (Session × Session) := do
  let s ← liftM (Session.start f config)
  let (t, none) ← liftM s.addBetas | failure
  let (u, none) ← liftM t.analyze | failure
  return (t, u)

/-- How the analysis was reached. -/
theorem analysisOf_spec {t u : Session} (run : (analysisOf config f).run = .ok (some (t, u))) :
    ∃ s, Session.start f config = .ok s ∧ s.addBetas = .ok (t, none) ∧ t.analyze = .ok (u, none) := by
  obtain ⟨s, started, run⟩ := attempt_bind.mp run
  obtain ⟨⟨t', given⟩, added, run⟩ := attempt_bind.mp run
  cases given with
  | some r => exact absurd run attempt_failure
  | none =>
    obtain ⟨⟨u', given⟩, analyzed, run⟩ := attempt_bind.mp run
    cases given with
    | some r => exact absurd run attempt_failure
    | none =>
      obtain ⟨rfl, rfl⟩ := Prod.mk.inj (attempt_pure.mp run)
      exact ⟨s, attempt_lift.mp started, attempt_lift.mp added, attempt_lift.mp analyzed⟩

/-- The range of a value need not contain it. In `twoWays` the fixed point leaves the phi of the loop
without a range, and the phi behind it with the range of zero alone, though that phi may be five. -/
theorem twoWays_exceeds : twoWays.Optimizable ∧ ∃ s t u r state,
    Session.start twoWays .standard = .ok s ∧ s.addBetas = .ok (t, none) ∧ t.analyze = .ok (u, none) ∧
    Reached u.procedure [.ofInt 3, .ofInt 1] state ∧ u.procedure.range? 8 = some r ∧
    state.memory.slots[8]? = some (.number (.ofInt 5)) ∧ r.contains (.ofInt 5) = false := by
  have computed : (Option.map fun (_, u) => decide (
      (fun state : State => state.memory.slots[8]?) <$> stateAfter u.procedure [.ofInt 3, .ofInt 1] 10 =
        .ok (some (.number (.ofInt 5))) ∧
      (u.procedure.range? 8).map (fun r => r.contains (.ofInt 5)) = some false)) <$>
        (analysisOf .standard twoWays).run = .ok (some true) := by decide +kernel
  obtain ⟨found, ran, shape⟩ := map_eq_ok.mp computed
  obtain ⟨⟨t, u⟩, rfl, facts⟩ := Option.map_eq_some_iff.mp shape
  obtain ⟨s, started, added, analyzed⟩ := analysisOf_spec ran
  obtain ⟨runs, ranged⟩ := of_decide_eq_true facts
  obtain ⟨r, ranged, misses⟩ := Option.map_eq_some_iff.mp ranged
  obtain ⟨state, standing, slot⟩ := map_eq_ok.mp runs
  exact ⟨by decide +kernel, s, t, u, r, state, started, added, analyzed,
    reached_iff_stateAfter.mpr ⟨10, standing⟩, ranged, slot, misses⟩

/-- A result need not be kept. `twoWays` returns five, and the procedure that is made from it with assertions
fails at the one for the phi behind the loop, with every budget that is large enough. -/
theorem twoWays_diverges : twoWays.Optimizable ∧
    Machine.run twoWays [.ofInt 3, .ofInt 1] 20 = some (.returned (some (.ofInt 5))) ∧
    ∃ f', optimized { Config.standard with checkRanges := true } twoWays = some f' ∧
      ∀ budget, 20 ≤ budget → Machine.run f' [.ofInt 3, .ofInt 1] budget =
        some (.failed (.outsideRange 8 (.ofInt 5) ⟨some 0, some 0, false, 0, none, none⟩)) := by
  have computed : (optimized { Config.standard with checkRanges := true } twoWays).map
      (fun f' => decide (Machine.run f' [.ofInt 3, .ofInt 1] 20 =
        some (.failed (.outsideRange 8 (.ofInt 5) ⟨some 0, some 0, false, 0, none, none⟩)))) = some true := by
    decide +kernel
  obtain ⟨f', found, fails⟩ := Option.map_eq_some_iff.mp computed
  exact ⟨by decide +kernel, by decide +kernel, f', found,
    fun budget enough => run_of_le (of_decide_eq_true fails) enough⟩

end Pipeline

end Rangefinder
