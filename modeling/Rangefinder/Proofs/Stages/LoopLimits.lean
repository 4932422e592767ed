import Rangefinder.Proofs.Stages.HoistedChecks

/-!
# How often loops repeat

The treatment of a loop may note a bound: a branch in the loop, and a sum that limits how often the loop
repeats. `boundLoop_limits` says that the note is right in every run. A stay in the loop repeats it at
most as often as the sum says, counted with the values that the loop was entered with, and the branch
keeps control in the loop only while fewer rounds have passed.

Nothing is asked of the procedure but that its values of type int32 hold integers. Other values may be
anything. If the loop repeats at all, then the values in the sum are integers as well, since the test
compared them.
-/

namespace Rangefinder

open Procedure Machine

namespace SimpleLoop

variable {l : SimpleLoop} {f : Procedure} {g : FlowGraph} {b test : BlockId} {sum : LinearSum}

/-- The exit test stands strictly above all that the block it guards stands above. -/
theorem IsExitTest.above {c : BlockId} (h : l.IsExitTest f g b test sum) (d : g.Describes f)
    (upper : g.Above b c) : g.Above test c ∧ test ≠ c := by
  obtain ⟨-, parent, -⟩ := decidingBranch_spec h.decides
  obtain ⟨-, -, earlier⟩ := d.parent b test parent
  refine ⟨.trans (.up (FlowGraph.idom_eq_some.mp parent) .refl) upper, ?_⟩
  rintro rfl
  have := d.idxOf_le_of_above upper
  omega

end SimpleLoop

namespace Machine

open SimpleLoop

variable {f : Procedure} {g : FlowGraph} {args : List Number} {l : SimpleLoop} {origin s : State}
  {k : Nat} {b test : BlockId} {sum : LinearSum}

/-- A stay in a loop repeats it at most as often as the bound of the loop says. -/
theorem Activation.le_bound (h : Activation l f args origin k s) (approach : Approaches l f args origin)
    (keeps : f.KeepsIntegers g) (simple : l.IsSimple g f) (exit : l.IsExitTest f g b test sum)
    (hb : b ∈ l.loop.body) (ne : b ≠ l.header) (upper : g.Above b l.backedge) :
    k ≤ max 0 (sum.eval (f.valueIn origin.memory)) := by
  have wf := keeps.consistent.wellFormed
  have d := keeps.consistent.describes
  induction h with
  | enter => exact le_max_left _ _
  | inner _ _ _ _ ih => exact ih
  | @back k s t before run last header _ =>
    -- The round that ends here has passed the test.
    have entered := step_enters (nodup_phisAt wf) last run
    obtain ⟨above, below⟩ := exit.above d upper
    rw [← before.source_eq simple entered header] at above below
    have enough := before.bound approach keeps simple exit hb ne above below
    rw [before.eval_eq approach wf d simple.natural exit.outside] at enough
    push_cast
    omega

end Machine

namespace Session

variable {s t : Session} {l : SimpleLoop}

/-- The arena is kept. -/
theorem hoistChecks_arena {checks hoisted : List ValueId}
    (run : hoistChecks l checks s = .ok (t, hoisted)) : t.arena = s.arena := by
  induction checks generalizing s hoisted with
  | nil =>
    obtain ⟨rfl, -⟩ := Prod.mk.inj (Except.ok.inj run)
    rfl
  | cons check rest ih =>
    obtain ⟨plan, -, run⟩ := bind_eq_ok.mp run
    cases plan with
    | none => exact ih run
    | some plan =>
      obtain ⟨f, -, run⟩ := bind_eq_ok.mp run
      obtain ⟨⟨u, others⟩, later, run⟩ := bind_eq_ok.mp run
      obtain ⟨rfl, -⟩ := Prod.mk.inj (pure_eq_ok.mp run)
      exact @ih { s with procedure := f } others later

/-- The arena is kept. -/
theorem dropChecks_arena {hoisted : List ValueId} (run : dropChecks hoisted s = .ok t) :
    t.arena = s.arena := by
  induction hoisted generalizing s with
  | nil => rw [Except.ok.inj run]
  | cons check rest ih =>
    obtain ⟨o, -, run⟩ := bind_eq_ok.mp run
    split at run
    · obtain ⟨⟨f, _⟩, -, run⟩ := bind_eq_ok.mp run
      obtain ⟨f', -, run⟩ := bind_eq_ok.mp run
      exact (ih run).trans rfl
    · exact ih run

/-- Moving checks takes no note of bounds. -/
theorem hoist_arena (run : s.hoist l = .ok t) : t.arena = s.arena := by
  obtain ⟨checks, -, run⟩ := bind_eq_ok.mp run
  obtain ⟨⟨u, hoisted⟩, placed, dropped⟩ := bind_eq_ok.mp run
  exact (dropChecks_arena dropped).trans (hoistChecks_arena placed)

/-- What the treatment of a loop adds to the bounds of loops: nothing, or what was found at a branch
that every round passes. -/
theorem boundLoop_notes {loop : Loop} {e : Option AnalysisError} (d : s.graph.Describes s.procedure)
    (natural : loop.IsNatural s.graph s.procedure) (run : s.boundLoop loop = .ok (t, e)) :
    t.arena.loopBounds = s.arena.loopBounds ∨
    ∃ l limit b, SimpleLoop.ofLoop? loop = some l ∧ l.IsSimple s.graph s.procedure ∧
      t.arena.loopBounds = s.arena.loopBounds.push limit ∧ limit.header = loop.header ∧
      b ∈ l.loop.body ∧ b ≠ l.header ∧ s.graph.Above b l.backedge ∧
      l.IsExitTest s.procedure s.graph b limit.test limit.sum := by
  rcases boundLoop_natural d natural run with rfl | ⟨l, test, sum, b, arena, id, stats, block, u, gaveUp,
    found, rfl, simple, ⟨hb, ne, upper⟩, exit, added, -, phis, ends⟩
  · exact .inl rfl
  refine .inr ⟨l, ⟨l.header, test, sum⟩, b, found, simple, ?_, rfl, hb, ne, upper, exit⟩
  have pushed : arena.loopBounds = s.arena.loopBounds.push ⟨l.header, test, sum⟩ := by
    rw [Arena.addLoopBound?] at added
    split at added
    · obtain ⟨rfl, -⟩ := Prod.mk.inj (Option.some.inj added)
      rfl
    · cases added
  have noted : u.arena.loopBounds = arena.loopBounds :=
    forEach_keeps (fun u => u.arena.loopBounds = arena.loopBounds)
      (fun phi _ u v e kept run => (boundPhi_takesNotes run).arena.loopBounds.trans kept) rfl phis
  rcases ends with rfl | hoisting
  · exact noted.trans pushed
  · rw [hoist_arena hoisting]
    exact noted.trans pushed

/-- Bounds of loops hold. When the treatment of a loop notes a bound, then every stay in the loop, in
every run, repeats the loop at most as often as the sum says, and the branch of the test keeps control in
the loop only while fewer rounds have passed; the values in the sum are integers then. -/
theorem boundLoop_limits {loop : Loop} {e : Option AnalysisError}
    (accepted : s.procedure.verify = .ok (.ok ())) (built : FlowGraph.build s.procedure = .ok s.graph)
    (noPhis : s.procedure.phisAt s.procedure.entry = []) (listed : s.procedure.AllListed)
    (integers : ∀ args state v, Reached s.procedure args state →
      Available s.procedure s.graph state v → s.procedure.type? v = some .int32 →
      ∃ n, state.memory.HoldsInt v n)
    (mem : loop ∈ s.graph.loops s.procedure) (run : s.boundLoop loop = .ok (t, e)) :
    t.arena.loopBounds = s.arena.loopBounds ∨
    ∃ l limit, SimpleLoop.ofLoop? loop = some l ∧
      t.arena.loopBounds = s.arena.loopBounds.push limit ∧ limit.header = loop.header ∧
      limit.test ∈ loop.body ∧ ∀ args origin, Approaches l s.procedure args origin →
        (∀ k state, Activation l s.procedure args origin k state →
          k ≤ max 0 (limit.sum.eval (s.procedure.valueIn origin.memory))) ∧
        ∀ k state next, Activation l s.procedure args origin k state → state.block = limit.test →
          state.pending = [] → step s.procedure args state = .ok next → next.block ∈ loop.body →
          k < limit.sum.eval (s.procedure.valueIn origin.memory) ∧
            limit.sum.TermsSatisfy fun x => ∃ n, origin.memory.HoldsInt x n := by
  obtain ⟨-, g, built', wf⟩ := verify_eq_ok.mp accepted
  obtain rfl := Except.ok.inj (built.symm.trans built')
  have consistent : s.procedure.Consistent s.graph := ⟨built, wf, listed⟩
  have keeps : s.procedure.KeepsIntegers s.graph := ⟨consistent, noPhis, integers⟩
  have d := consistent.describes
  refine (boundLoop_notes d ((FlowGraph.loops_spec d).1 loop mem) run).imp_right ?_
  rintro ⟨l, limit, b, found, simple, noted, header, hb, ne, upper, exit⟩
  obtain ⟨rfl, -⟩ := SimpleLoop.ofLoop?_eq_some found
  refine ⟨l, limit, found, noted, header, exit.test_mem simple d hb ne,
    fun args origin approach => ⟨fun k state stay => ?_,
      fun k state next stay here last moves inside => ?_⟩⟩
  · exact stay.le_bound approach keeps simple exit hb ne upper
  · obtain ⟨known, enough⟩ := stay.passes approach keeps simple exit here last moves inside
    rw [stay.eval_eq approach wf d simple.natural exit.outside] at enough
    refine ⟨by omega, fun x hx => ?_⟩
    obtain ⟨n, holds⟩ := known x hx
    exact ⟨n, holds.congr (stay.slots approach wf d simple.natural (exit.outside x hx)).symm⟩

/-- An analysis of an int32-only procedure begins with one that runs on int32 numbers, with or without
betas. -/
theorem start_onInt32 {config : Config} {f : Procedure} (accepted : f.verify = .ok (.ok ()))
    (noPhis : f.phisAt f.entry = []) (listed : f.AllListed) (ints : f.Int32Only)
    (started : start f config = .ok s) (betas : t = s ∨ s.addBetas = .ok (t, none)) :
    t.Valid ∧ t.LoopsNatural ∧ t.procedure.OnInt32 t.graph := by
  obtain ⟨branches, -⟩ := Procedure.verify_eq_ok.mp accepted
  obtain ⟨valid, loops⟩ :=
    Pipeline.start_valid accepted listed (ints.testable branches).handedOn started
  have procedure : s.procedure = f := by
    obtain ⟨g, -, same⟩ := bind_eq_ok.mp started
    rw [← pure_eq_ok.mp same]
  have on : s.procedure.OnInt32 s.graph :=
    ⟨valid.consistent, procedure ▸ noPhis, procedure ▸ ints.integral⟩
  rcases betas with rfl | added
  · exact ⟨valid, loops, on⟩
  · obtain ⟨kept, -⟩ := addBetas_valid valid added
    exact ⟨kept.valid, loops.keeps valid kept,
      addBetas_onInt32 on (procedure ▸ ints.noDoubles) added⟩

/-- The loop of `pairMarks` is bounded by the number that its counter is compared with. A run with the
number 3 stands before the branch in the last round, and less than three rounds have passed. -/
theorem pairMarks_limits : ∃ s t u loop e, start pairMarks .standard = .ok s ∧
    s.addBetas = .ok (t, none) ∧ t.procedure.verify = .ok (.ok ()) ∧
    t.graph.loops t.procedure = [loop] ∧ t.boundLoop loop = .ok (u, e) ∧
    u.arena.loopBounds = #[⟨1, 1, ⟨[⟨5, 1⟩], 0⟩⟩] ∧
    ∃ l origin k state next, SimpleLoop.ofLoop? loop = some l ∧
      Approaches l t.procedure [.ofInt 10, .ofInt 3] origin ∧
      Activation l t.procedure [.ofInt 10, .ofInt 3] origin k state ∧ state.block = 1 ∧
      state.pending = [] ∧ step t.procedure [.ofInt 10, .ofInt 3] state = .ok next ∧
      next.block = 2 ∧ k < 3 := by
  have betas : (fun r : StageResult => (r.2.isNone, r.1.procedure.verify,
      (r.1.graph.loops r.1.procedure).map fun l => (l.header, l.body))) <$>
      (start pairMarks .standard >>= addBetas) = .ok (true, .ok (.ok ()), [(1, [1, 2])]) := by
    decide +kernel
  have bounds : (start pairMarks .standard >>= addBetas >>= fun r =>
      (fun r' : StageResult => (r.1.arena.loopBounds, r'.1.arena.loopBounds)) <$>
        forEach boundLoop (r.1.graph.loops r.1.procedure) r.1) =
          .ok (#[], #[⟨1, 1, ⟨[⟨5, 1⟩], 0⟩⟩]) := by decide +kernel
  have runs : (fun r : StageResult =>
      stateAfter r.1.procedure [.ofInt 10, .ofInt 3] 26 >>= fun state =>
        (fun next : State => (state.block, state.pending, state.memory.slots[5]?, next.block)) <$>
          step r.1.procedure [.ofInt 10, .ofInt 3] state) <$>
      (start pairMarks .standard >>= addBetas) =
        .ok (.ok ((1 : BlockId), [], some (.number (.ofInt 3)), (2 : BlockId))) := by decide +kernel
  have counted : (fun r : StageResult =>
      (r.1.procedure.opcode? 5, r.1.procedure.home? 5, r.1.procedure.phisAt 1)) <$>
      (start pairMarks .standard >>= addBetas) = .ok (some (.param 1), some 0, [6, 7]) := by
    decide +kernel
  obtain ⟨⟨t, given⟩, added, shape⟩ := map_eq_ok.mp betas
  obtain ⟨given', shape⟩ := Prod.mk.inj shape
  obtain ⟨accepted, shape⟩ := Prod.mk.inj shape
  obtain rfl := Option.isNone_iff_eq_none.mp given'
  obtain ⟨loop, loops, shape⟩ := List.map_eq_singleton_iff.mp shape
  obtain ⟨header, body⟩ := Prod.mk.inj shape
  rw [added] at bounds runs counted
  obtain ⟨⟨u, e⟩, bounded, noted⟩ := map_eq_ok.mp bounds
  obtain ⟨before, after⟩ := Prod.mk.inj noted
  dsimp only at loops bounded before after
  rw [loops] at bounded
  replace bounded := forEach_singleton bounded
  obtain ⟨s, started, adding⟩ := bind_eq_ok.mp added
  obtain ⟨state, standing, moving⟩ := bind_eq_ok.mp (Except.ok.inj runs)
  obtain ⟨next, moves, shape⟩ := map_eq_ok.mp moving
  obtain ⟨block, shape⟩ := Prod.mk.inj shape
  obtain ⟨pending, shape⟩ := Prod.mk.inj shape
  obtain ⟨number, target⟩ := Prod.mk.inj shape
  obtain ⟨code, shape⟩ := Prod.mk.inj (Except.ok.inj counted)
  obtain ⟨home, phis⟩ := Prod.mk.inj shape
  obtain ⟨-, -, on⟩ := start_onInt32 (f := pairMarks) (by decide +kernel) rfl (by decide +kernel)
    (by decide +kernel) started (.inr adding)
  have consistent := on.consistent
  have reached := reached_iff_stateAfter.mpr ⟨26, standing⟩
  rcases boundLoop_limits accepted consistent.built on.noPhis consistent.listed
    on.keepsIntegers.holds (by simp [loops]) bounded with none | ⟨l, limit, found, pushed, -, -, limits⟩
  · rw [after, before] at none
    cases none
  obtain ⟨rfl, backedges, preheaders⟩ := SimpleLoop.ofLoop?_eq_some found
  have simple : l.IsSimple t.graph t.procedure :=
    ⟨(FlowGraph.loops_spec consistent.describes).1 l.loop (by simp [loops]), backedges, preheaders⟩
  have inside : state.block ∈ l.loop.body := by rw [block, body]; decide
  obtain ⟨origin, k, approach, stay⟩ := reached.activation on simple
    (by rw [SimpleLoop.header, header, phis]; simp) inside
  rw [after, before] at pushed
  obtain rfl : ⟨1, 1, ⟨[⟨5, 1⟩], 0⟩⟩ = limit := by simpa using pushed
  have fewer := ((limits _ origin approach).2 k state next stay block pending moves
    (by rw [target, body]; decide)).1
  have outside : l.Outside t.procedure 5 := by
    intro b here
    obtain rfl := Option.some.inj (home.symm.trans here)
    rw [body]
    decide
  have same := stay.slots approach consistent.wellFormed consistent.describes simple.natural outside
  have three : t.procedure.valueIn origin.memory 5 = 3 := by
    rw [valueIn, code]
    exact Memory.HoldsInt.intAt_eq ⟨_, same.symm.trans number, rfl⟩
  have value : (⟨[⟨5, 1⟩], 0⟩ : LinearSum).eval (t.procedure.valueIn origin.memory) = 3 := by
    simp [LinearSum.eval, LinearSum.evalTerms, three]
  refine ⟨s, t, u, l.loop, e, started, adding, accepted, loops, bounded, after, l, origin, k,
    state, next, found, approach, stay, block, pending, moves, target, ?_⟩
  rw [value] at fewer
  omega

end Session

end Rangefinder
