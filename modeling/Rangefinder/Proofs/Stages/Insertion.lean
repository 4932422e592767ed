import Rangefinder.Analysis.Assertions
import Rangefinder.Analysis.Refinement
import Rangefinder.Proofs.Procedure.Testing

/-!
# Betas and assertions are placed where they can read

Betas and range assertions are the instructions that the pipeline adds to look at values. A beta
stands at the top of a block whose only predecessor decides on a comparison, and what it refines
was compared before that decision, so it is computed there. An assertion stands behind the value it
is about, or behind the betas at the top of the block when the value is a phi. Both stages keep
procedures well-formed, and the insertion of betas never meets a comparison of a value that stands
nowhere, as long as every value is listed in the block it stands in.
-/

namespace Rangefinder

/-- The flow graph is up to date, the procedure is well-formed, and every value is listed where it
stands. -/
structure Procedure.Consistent (f : Procedure) (g : FlowGraph) : Prop where
  built : FlowGraph.build f = .ok g
  wellFormed : f.WellFormed g
  listed : f.AllListed

/-- The flow graph of a consistent procedure describes it. -/
theorem Procedure.Consistent.describes {f : Procedure} {g : FlowGraph} (h : f.Consistent g) :
    g.Describes f :=
  FlowGraph.build_describes h.wellFormed.structured.numbered h.wellFormed.structured.entry h.built

/-- What holds between two edits: the flow graph is up to date, the procedure is well-formed, every
value is listed where it stands, and branches test what can be tested. -/
structure Procedure.Valid (f : Procedure) (g : FlowGraph) : Prop where
  built : FlowGraph.build f = .ok g
  wellFormed : f.WellFormed g
  listed : f.AllListed
  testable : f.Testable

/-- The procedure at work is valid. -/
abbrev Session.Valid (s : Session) : Prop := s.procedure.Valid s.graph

namespace Procedure.Valid

variable {f f' : Procedure} {g : FlowGraph}

/-- Valid procedures are consistent. -/
theorem consistent (h : f.Valid g) : f.Consistent g := ⟨h.built, h.wellFormed, h.listed⟩

/-- The flow graph of a valid procedure describes it. -/
theorem describes (h : f.Valid g) : g.Describes f := h.consistent.describes

/-- A procedure stays valid when nothing changes but what the analysis notes on the side. -/
theorem of_sameCode (h : f.Valid g) (same : SameCode f f') : f'.Valid g where
  built := same.layout.flow.build.trans h.built
  wellFormed := same.wellFormed h.wellFormed
  listed := same.layout.allListed h.listed
  testable := h.testable.of_sameCode same

/-- The verifier accepts valid procedures. -/
theorem verify (h : f.Valid g) : f.verify = .ok (.ok ()) :=
  verify_eq_ok.mpr ⟨h.testable.branches, g, h.built, h.wellFormed⟩

end Procedure.Valid

/-- Reversal and negation commute. -/
theorem CompareOp.reverse_negate (op : CompareOp) : op.negate.reverse = op.reverse.negate := by
  cases op <;> rfl

namespace Procedure

variable {f f' : Procedure} {g : FlowGraph} {old beta : ValueId} {type : ValueType} {dom : BlockId}
  {b : BlockId}

/-- The value stands in a block strictly above the given one. -/
def DefinedAbove (f : Procedure) (g : FlowGraph) (x : ValueId) (b : BlockId) : Prop :=
  ∃ home, f.home? x = some home ∧ home ≠ b ∧ g.dominates home b = true

/-- A value that stands above a block can be read anywhere in it. -/
theorem DefinedAbove.readable {x : ValueId} (h : f.DefinedAbove g x b) (before : List ValueId) :
    f.Readable g b before x := by
  obtain ⟨home, stands, ne, dominates⟩ := h
  exact ⟨home, stands, by rw [if_neg ne]; exact dominates⟩

/-- A beta of a value that exists keeps a procedure structured. -/
theorem Structured.placeBeta {before after : List ValueId} {input : ValueId} {range : Range}
    (s : f.Structured) (present : input < f.values.size)
    (placed : f.Placed f' b before after (.beta input range) type) : f'.Structured :=
  s.place placed rfl (by simpa [Opcode.operands] using present)

/-- Uses redirected to a value that exists leave a procedure structured. -/
theorem Structured.redirect (s : f.Structured) (present : beta < f.values.size)
    (h : Redirects g old beta dom f f') : f'.Structured := by
  obtain ⟨ρ, π, τ, renamed, hρ, hπ, hτ⟩ := h
  exact renamed.structured s present (fun v x => (hρ v x).imp_right And.left)
    (fun p q x => (hπ p q x).imp_right And.left) fun b x => (hτ b x).imp_right And.left

/-- Uses of a value may be redirected to a beta of it at the top of a block. -/
theorem WellFormed.redirect {rest : List ValueId} (wf : f.WellFormed g)
    (top : f.instrsAt dom = beta :: rest) (h : Redirects g old beta dom f f') :
    f'.WellFormed g := by
  obtain ⟨ρ, π, τ, renamed, hρ, hπ, hτ⟩ := h
  have mem : beta ∈ f.instrsAt dom := by simp [top]
  obtain ⟨-, home⟩ := wf.structured.instrs dom beta mem
  refine renamed.wellFormed wf (lt_size_of_home? home) (fun v x => (hρ v x).imp_right And.left)
    (fun p q x => (hπ p q x).imp_right And.left) (fun b x => (hτ b x).imp_right And.left) ?_ ?_ ?_
  · intro c hc before v after split moved read
    rcases hρ v old with same | ⟨-, other, b, hv, dominates⟩
    · rwa [← moved, same]
    · obtain rfl : b = c := Option.some.inj
        ((wf.structured.instrs b v hv).2.symm.trans
          (wf.structured.instrs c v (by simp [split])).2)
      refine ⟨dom, home, ?_⟩
      split
      · next own =>
        subst own
        rw [top] at split
        cases before with
        | nil => exact absurd (List.cons.inj split).1.symm other
        | cons first before =>
          obtain ⟨rfl, -⟩ := List.cons.inj split
          simp
      · exact dominates
  · intro p q _ moved defined
    rcases hπ p q old with same | ⟨-, dominates, -⟩
    · rwa [← moved, same]
    · exact ⟨dom, home, dominates⟩
  · intro c hc moved read
    rcases hτ c old with same | ⟨-, dominates⟩
    · rwa [← moved, same]
    · refine ⟨dom, home, ?_⟩
      split
      · next own =>
        subst own
        exact List.mem_append_right _ mem
      · exact dominates

/-! ### What a comparison refines -/

/-- The type of the value is int32 or double. -/
def IsNumeric (f : Procedure) (v : ValueId) : Prop :=
  ∃ type, f.type? v = some type ∧ type.isNumber = true

/-- The type is found. -/
theorem typeOf_eq_ok {v : ValueId} :
    f.typeOf v = .ok type ↔ f.type? v = some type := by
  rw [typeOf, type?, Procedure.value]
  cases f.values[v]? <;> simp [bind, Except.bind, pure, Except.pure]

/-- What a comparison refines: nothing; one side, when the other one is a constant; or both sides,
when int32 values are compared strictly. -/
theorem refinements_cases {op : CompareOp} {lhs rhs : ValueId} {taken : Bool}
    {l : List (ValueId × Range)} (run : f.refinements op lhs rhs taken = .ok l) :
    l = [] ∨
    (∃ v w op' type c r, (v = lhs ∧ w = rhs ∧ op' = op ∨ v = rhs ∧ w = lhs ∧ op' = op.reverse) ∧
      f.type? v = some type ∧ type.isNumber = true ∧ f.IsNumeric w ∧
      f.constNumber? w = .ok (some c) ∧
      (if taken then op' else op'.negate).refinement (type == .int32) c = .ok (some r) ∧
      l = [(v, if !taken && !(type == .int32) then r.withNaN else r)]) ∨
    ∃ x y below above, (x = lhs ∧ y = rhs ∧ (if taken then op else op.negate) = .lt ∨
        x = rhs ∧ y = lhs ∧ (if taken then op else op.negate) = .gt) ∧
      f.type? x = some .int32 ∧ f.type? y = some .int32 ∧
      Range.int32 int32Min (int32Max - 1) = .ok below ∧
      Range.int32 (int32Min + 1) int32Max = .ok above ∧ l = [(x, below), (y, above)] := by
  obtain ⟨left, ofLeft, run⟩ := bind_eq_ok.mp run
  obtain ⟨right, ofRight, run⟩ := bind_eq_ok.mp run
  rw [typeOf_eq_ok] at ofLeft ofRight
  split at run
  · exact .inl (pure_eq_ok.mp run).symm
  · next numbers =>
    simp only [Bool.or_eq_true, Bool.not_eq_true', not_or, Bool.not_eq_false] at numbers
    have leftNumber : f.IsNumeric lhs := ⟨left, ofLeft, numbers.1⟩
    have rightNumber : f.IsNumeric rhs := ⟨right, ofRight, numbers.2⟩
    obtain ⟨leftConst, constLeft, run⟩ := bind_eq_ok.mp run
    cases leftConst with
    | some c =>
      obtain ⟨type, typed, run⟩ := bind_eq_ok.mp run
      obtain ⟨result, refined, run⟩ := bind_eq_ok.mp run
      rw [typeOf_eq_ok] at typed
      obtain rfl := Option.some.inj (ofRight.symm.trans typed)
      cases result with
      | none => exact .inl (pure_eq_ok.mp run).symm
      | some r =>
        refine .inr (.inl ⟨rhs, lhs, op.reverse, right, c, r, .inr ⟨rfl, rfl, rfl⟩, ofRight, numbers.2,
          leftNumber, constLeft, ?_, (pure_eq_ok.mp run).symm⟩)
        cases taken with
        | true => exact refined
        | false => exact op.reverse_negate ▸ refined
    | none =>
      obtain ⟨rightConst, constRight, run⟩ := bind_eq_ok.mp run
      cases rightConst with
      | some c =>
        obtain ⟨type, typed, run⟩ := bind_eq_ok.mp run
        obtain ⟨result, refined, run⟩ := bind_eq_ok.mp run
        rw [typeOf_eq_ok] at typed
        obtain rfl := Option.some.inj (ofLeft.symm.trans typed)
        cases result with
        | none => exact .inl (pure_eq_ok.mp run).symm
        | some r =>
          exact .inr (.inl ⟨lhs, rhs, op, left, c, r, .inl ⟨rfl, rfl, rfl⟩, ofLeft, numbers.1,
            rightNumber, constRight, refined, (pure_eq_ok.mp run).symm⟩)
      | none =>
        obtain ⟨below, ofBelow, run⟩ := bind_eq_ok.mp run
        obtain ⟨above, ofAbove, run⟩ := bind_eq_ok.mp run
        split at run
        · next both =>
          have typedLeft : f.type? lhs = some .int32 := both.1 ▸ ofLeft
          have typedRight : f.type? rhs = some .int32 := both.2 ▸ ofRight
          split at run
          · next strict =>
            exact .inr (.inr ⟨lhs, rhs, below, above, .inl ⟨rfl, rfl, strict⟩, typedLeft, typedRight,
              ofBelow, ofAbove, (pure_eq_ok.mp run).symm⟩)
          · next strict =>
            exact .inr (.inr ⟨rhs, lhs, below, above, .inr ⟨rfl, rfl, strict⟩, typedRight, typedLeft,
              ofBelow, ofAbove, (pure_eq_ok.mp run).symm⟩)
          · exact .inl (pure_eq_ok.mp run).symm
        · exact .inl (pure_eq_ok.mp run).symm

end Procedure

namespace Session

variable {s t : Session} {e : Option AnalysisError} {b : BlockId} {f : Procedure}
  {l : List (ValueId × Range)} {range : Range} {v : ValueId} {input : ValueId} {op : CompareOp}
  {taken : Bool}

/-- A stage keeps the procedure valid, and everything about the control flow as it is. -/
structure Keeps (s t : Session) : Prop where
  valid : t.Valid
  graph : t.graph = s.graph
  loops : t.loops = s.loops
  config : t.config = s.config

/-- Nothing has changed. -/
theorem Keeps.refl (h : s.Valid) : s.Keeps s := ⟨h, rfl, rfl, rfl⟩

/-- Keeping twice. -/
theorem Keeps.trans {u : Session} (h : s.Keeps t) (h' : t.Keeps u) : s.Keeps u :=
  ⟨h'.valid, h'.graph.trans h.graph, h'.loops.trans h.loops, h'.config.trans h.config⟩

/-- The value is a number that stands above the block. -/
structure Refinable (s : Session) (x : ValueId) (b : BlockId) : Prop where
  above : s.procedure.DefinedAbove s.graph x b
  number : ∃ type, s.procedure.type? x = some type ∧ type.isNumber = true

/-- The second session is the first one with a new beta at the top of a block: it refines a number that
stands above the block and takes over uses of it in code that the block dominates. -/
structure PlacesBeta (s t : Session) (b : BlockId) (input : ValueId) (range : Range) : Prop extends
    s.Refinable input b where
  graph : t.graph = s.graph
  loops : t.loops = s.loops
  config : t.config = s.config
  stats : t.stats = { s.stats with betasInserted := s.stats.betasInserted + 1 }
  edit : ∃ f type, s.procedure.type? input = some type ∧
    s.procedure.Placed f b [] (s.procedure.instrsAt b) (.beta input range) type ∧
    Procedure.Redirects s.graph input s.procedure.values.size b f t.procedure

/-- What placing a beta can do: give up on a value that stands nowhere, or put the beta at the top of
the block and redirect uses to it. -/
theorem placeBeta_cases (h : s.procedure.Structured) (run : s.placeBeta b (input, range) = .ok (t, e)) :
    (t = s ∧ e = some (.detachedTest b input) ∧ s.procedure.home? input = none) ∨
    e = none ∧ (t.graph = s.graph ∧ t.loops = s.loops ∧ t.config = s.config ∧
        t.stats = { s.stats with betasInserted := s.stats.betasInserted + 1 }) ∧
      ∃ f type, s.procedure.type? input = some type ∧
        s.procedure.Placed f b [] (s.procedure.instrsAt b) (.beta input range) type ∧
        Procedure.Redirects s.graph input s.procedure.values.size b f t.procedure := by
  obtain ⟨value, found, run⟩ := bind_eq_ok.mp run
  rw [Procedure.value_eq_ok] at found
  split at run
  · next detached =>
    obtain ⟨rfl, rfl⟩ := Prod.mk.inj (pure_eq_ok.mp run)
    rw [Option.isNone_iff_eq_none] at detached
    exact .inl ⟨rfl, rfl, (Procedure.home?_of_value found).trans detached⟩
  · obtain ⟨⟨f₁, beta⟩, placed, run⟩ := bind_eq_ok.mp run
    obtain ⟨f₂, redirected, run⟩ := bind_eq_ok.mp run
    obtain ⟨rfl, rfl⟩ := Prod.mk.inj (pure_eq_ok.mp run)
    obtain ⟨rfl, -, placed⟩ := Procedure.placeAt_spec placed
    rw [List.take_zero, List.drop_zero] at placed
    have kinds : ∀ c, ∀ v ∈ f₁.instrsAt c, f₁.isPhi v = false := by
      intro c v hv
      rw [placed.instrsAt] at hv
      rw [placed.isPhi]
      split
      · rfl
      · next old =>
        split at hv
        · next own =>
          subst own
          rw [List.nil_append, List.mem_cons] at hv
          exact (h.instrs c v (hv.resolve_left old)).1
        · exact (h.instrs c v hv).1
    exact .inr ⟨rfl, ⟨rfl, rfl, rfl, rfl⟩, f₁, value.type, Procedure.type?_of_value found, placed,
      Procedure.redirectBlocks_spec kinds redirected⟩

/-- What placing a beta keeps, whether it gives up or not, placing all betas keeps. -/
theorem addBetas_keeps (holds : Session → Prop)
    (keep : ∀ u v b refinement e, holds u → u.placeBeta b refinement = .ok (v, e) → holds v)
    (start : holds s) (run : s.addBetas = .ok (t, e)) : holds t := by
  refine forEach_keeps holds (fun b _ u v e kept run => ?_) start run
  have nothing : (pure (u, none) : Except Fault StageResult) = .ok (v, e) → holds v :=
    fun same => (Prod.mk.inj (pure_eq_ok.mp same)).1 ▸ kept
  rw [refineBlock] at run
  split at run
  · exact nothing run
  · obtain ⟨block, -, run⟩ := bind_eq_ok.mp run
    split at run
    · obtain ⟨o, -, run⟩ := bind_eq_ok.mp run
      split at run
      · obtain ⟨refinements, -, run⟩ := bind_eq_ok.mp run
        exact forEach_keeps holds (fun r _ u v e kept => keep u v b r e kept) kept run
      · exact nothing run
    · exact nothing run

/-- A beta of a number that stands above the block is placed without giving up. -/
theorem placeBeta_spec (h : s.procedure.Consistent s.graph) (refinable : s.Refinable input b)
    (run : s.placeBeta b (input, range) = .ok (t, e)) :
    s.PlacesBeta t b input range ∧ e = none := by
  obtain ⟨home, stands, -⟩ := refinable.above
  rcases placeBeta_cases h.wellFormed.structured run with ⟨-, -, detached⟩ |
    ⟨rfl, ⟨graph, loops, config, stats⟩, edit⟩
  · rw [stands] at detached
    cases detached
  · exact ⟨⟨refinable, graph, loops, config, stats, edit⟩, rfl⟩

namespace PlacesBeta

variable {x : ValueId} {type : ValueType}

/-- Values stay in place. -/
theorem home? (h : s.PlacesBeta t b input range) {home : BlockId}
    (stands : s.procedure.home? x = some home) : t.procedure.home? x = some home := by
  obtain ⟨f, type, -, placed, redirects⟩ := h.edit
  rw [redirects.layout.home?, placed.home?,
    if_neg (Nat.ne_of_lt (Procedure.lt_size_of_home? stands)), stands]

/-- Types are kept. -/
theorem type? (h : s.PlacesBeta t b input range) (typed : s.procedure.type? x = some type) :
    t.procedure.type? x = some type := by
  obtain ⟨f, _, -, placed, ρ, π, τ, renamed, -⟩ := h.edit
  rw [renamed.type?, placed.type?, if_neg (Nat.ne_of_lt (Procedure.lt_size_of_type? typed)), typed]

/-- Refinable values stay such. -/
theorem refinable (h : s.PlacesBeta t b input range) {c : BlockId} (before : s.Refinable x c) :
    t.Refinable x c := by
  obtain ⟨⟨home, stands, ne, dominates⟩, type, typed, number⟩ := before
  exact ⟨⟨home, h.home? stands, ne, h.graph ▸ dominates⟩, type, h.type? typed, number⟩

/-- The beta has the type of its input. -/
theorem type?_beta (typed : s.procedure.type? input = some type)
    (placed : s.procedure.Placed f b [] (s.procedure.instrsAt b) (.beta input range) type) :
    f.type? s.procedure.values.size = f.type? input := by
  rw [placed.type?, placed.type?, if_pos rfl,
    if_neg (Nat.ne_of_lt (Procedure.lt_size_of_type? typed)), typed]

/-- The beta reads a value that is computed, so the procedure without the redirection is consistent. -/
theorem consistent_placed (consistent : s.procedure.Consistent s.graph)
    (above : s.procedure.DefinedAbove s.graph input b)
    (placed : s.procedure.Placed f b [] (s.procedure.instrsAt b) (.beta input range) type) :
    f.Consistent s.graph := by
  obtain ⟨home, stands, -⟩ := id above
  refine ⟨placed.flow.build.trans consistent.built, ?_, placed.allListed consistent.listed⟩
  refine consistent.wellFormed.place placed rfl ?_ fun _ x hx => ?_
  · simpa [Opcode.operands] using Procedure.lt_size_of_home? stands
  · obtain rfl : x = input := by simpa [Opcode.operands] using hx
    exact above.readable _

/-- A beta keeps the procedure consistent. -/
theorem consistent (h : s.PlacesBeta t b input range)
    (consistent : s.procedure.Consistent s.graph) : t.procedure.Consistent t.graph := by
  obtain ⟨f, type, -, placed, redirects⟩ := h.edit
  have first := consistent_placed consistent h.above placed
  have top : f.instrsAt b = s.procedure.values.size :: s.procedure.instrsAt b := by
    rw [placed.instrsAt, if_pos rfl, List.nil_append]
  rw [h.graph]
  exact ⟨redirects.layout.flow.build.trans first.built, first.wellFormed.redirect top redirects,
    redirects.layout.allListed first.listed⟩

/-- A beta keeps it valid. -/
theorem keeps (h : s.PlacesBeta t b input range) (valid : s.Valid) : s.Keeps t := by
  obtain ⟨built, wellFormed, listed⟩ := h.consistent valid.consistent
  obtain ⟨f, type, typed, placed, redirects⟩ := h.edit
  obtain ⟨home, stands, -⟩ := h.above
  have testable : f.Testable := by
    refine valid.testable.place valid.wellFormed.structured placed ?_ fun x handed => ?_
    · simpa [Opcode.operands] using Procedure.lt_size_of_home? stands
    · obtain rfl := Option.some.inj handed
      exact typed
  exact ⟨⟨built, wellFormed, listed, testable.redirect redirects (type?_beta typed placed)⟩, h.graph,
    h.loops, h.config⟩

end PlacesBeta

/-- What is compared before a decision stands above the block that the decision leads to. -/
theorem definedAbove_of_decidingBranch {g : FlowGraph} {b test : BlockId} {cond x : ValueId}
    {onTrue onFalse : BlockId} {o : Opcode} (h : f.Consistent g) (hb : b ∈ g.order)
    (decides : g.decidingBranch f b = some test)
    (term : f.terminator? test = some (.branch cond onTrue onFalse)) (op : f.opcode? cond = some o)
    (kind : o.isPhi = false) (hx : x ∈ o.operands) :
    f.DefinedAbove g x b := by
  have d := h.describes
  obtain ⟨-, parent, -⟩ := Procedure.decidingBranch_spec decides
  obtain ⟨-, htest, earlier⟩ := d.parent b test parent
  have read := (h.wellFormed.uses test htest).result _ term cond rfl
  obtain ⟨place, stands, -⟩ := id read
  have hv : cond ∈ f.instrsAt place := h.wellFormed.structured.mem_instrsAt_of_home h.listed stands
    op kind
  obtain ⟨home, standsX, here⟩ :=
    h.wellFormed.readable_operand d hv op hx htest (List.append_nil _).symm read
  have above : g.Above home test := by
    split at here
    · next own => exact own ▸ .refl
    · exact (d.dominates_iff.mp here).2
  have le := d.idxOf_le_of_above above
  refine ⟨home, standsX, fun same => ?_, d.dominates_iff.mpr ⟨hb, above.trans ?_⟩⟩
  · subst same
    omega
  · exact .up (FlowGraph.idom_eq_some.mp parent) .refl

/-- A comparison refines only the values that it compares. -/
theorem mem_refinements {lhs rhs : ValueId} (h : f.refinements op lhs rhs taken = .ok l) :
    ∀ r ∈ l, r.1 = lhs ∨ r.1 = rhs := by
  rcases Procedure.refinements_cases h with rfl | ⟨v, w, op', type, c, r, sides, -, -, -, -, -, rfl⟩ |
    ⟨x, y, below, above, sides, -, -, -, -, rfl⟩
  · simp
  · rcases sides with ⟨rfl, rfl, -⟩ | ⟨rfl, rfl, -⟩ <;> simp
  · rcases sides with ⟨rfl, rfl, -⟩ | ⟨rfl, rfl, -⟩ <;> simp

/-- A comparison refines something only if it compares numbers. -/
theorem isNumber_of_refinements {lhs rhs x : ValueId} (h : f.refinements op lhs rhs taken = .ok l)
    (ne : l ≠ []) (side : x = lhs ∨ x = rhs) :
    f.IsNumeric x := by
  rcases Procedure.refinements_cases h with rfl |
    ⟨v, w, op', type, c, r, sides, typed, number, other, -, -, rfl⟩ |
    ⟨v, w, below, above, sides, typedV, typedW, -, -, rfl⟩
  · exact absurd rfl ne
  · have mine : f.IsNumeric v := ⟨type, typed, number⟩
    rcases sides with ⟨rfl, rfl, -⟩ | ⟨rfl, rfl, -⟩ <;> rcases side with rfl | rfl <;> assumption
  · have first : f.IsNumeric v := ⟨.int32, typedV, rfl⟩
    have second : f.IsNumeric w := ⟨.int32, typedW, rfl⟩
    rcases sides with ⟨rfl, rfl, -⟩ | ⟨rfl, rfl, -⟩ <;> rcases side with rfl | rfl <;> assumption

section Invariant

variable (holds : Session → Prop) (consistent : ∀ u, holds u → u.procedure.Consistent u.graph)
  (keep : ∀ u v b input range, holds u → u.PlacesBeta v b input range → holds v)

include consistent keep

/-- What placing a beta keeps, placing the betas of a block keeps. -/
theorem refineBlock_invariant (start : holds s) (hb : b ∈ s.graph.order)
    (run : s.refineBlock b = .ok (t, e)) :
    (holds t ∧ t.graph = s.graph) ∧ e = none := by
  have nothing : (pure (s, none) : Except Fault StageResult) = .ok (t, e) →
      (holds t ∧ t.graph = s.graph) ∧ e = none := by
    intro same
    obtain ⟨rfl, rfl⟩ : s = t ∧ none = e := by simpa using same
    exact ⟨⟨start, rfl⟩, rfl⟩
  rw [refineBlock] at run
  split at run
  · exact nothing run
  · next test decides =>
    obtain ⟨block, found, run⟩ := bind_eq_ok.mp run
    split at run
    · next c onTrue onFalse term =>
      obtain ⟨o, op, run⟩ := bind_eq_ok.mp run
      split at run
      · next op' lhs rhs =>
        obtain ⟨refinements, refined, run⟩ := bind_eq_ok.mp run
        have term' : s.procedure.terminator? test = some (.branch c onTrue onFalse) := by
          rw [Procedure.terminator?, Procedure.block_eq_ok.mp found, Option.map_some, term]
        have refinable : ∀ r ∈ refinements, s.Refinable r.1 b := by
          intro r hr
          have side := mem_refinements refined r hr
          refine ⟨definedAbove_of_decidingBranch (consistent s start) hb decides term'
            (Procedure.opcode_eq_ok.mp op) rfl ?_,
            isNumber_of_refinements refined (List.ne_nil_of_mem hr) side⟩
          rcases side with same | same <;> simp [Opcode.operands, same]
        obtain ⟨⟨kept, graph, -⟩, none⟩ := forEach_invariant (fun u => holds u ∧ u.graph = s.graph ∧
            ∀ x, s.Refinable x b → u.Refinable x b)
          (fun _ => False)
          (fun r hr u v e kept run => by
            obtain ⟨kept, graph, lasts⟩ := kept
            obtain ⟨places, rfl⟩ :=
              placeBeta_spec (consistent u kept) (lasts r.1 (refinable r hr)) run
            refine ⟨⟨keep u v b r.1 r.2 kept places, places.graph.trans graph, fun x hx => ?_⟩,
              by simp⟩
            exact places.refinable (lasts x hx))
          ⟨start, rfl, fun _ => id⟩ run
        exact ⟨⟨kept, graph⟩, Option.eq_none_iff_forall_not_mem.mpr none⟩
      · exact nothing run
    · exact nothing run

/-- What placing a beta keeps, placing all betas keeps. -/
theorem addBetas_invariant (start : holds s) (run : s.addBetas = .ok (t, e)) :
    holds t ∧ e = none := by
  obtain ⟨⟨kept, -⟩, none⟩ := forEach_invariant (fun u => holds u ∧ u.graph = s.graph)
    (fun _ => False)
    (fun b hb u v e kept run => by
      obtain ⟨⟨kept', graph⟩, rfl⟩ :=
        refineBlock_invariant holds consistent keep kept.1 (kept.2 ▸ hb) run
      exact ⟨⟨kept', graph.trans kept.2⟩, by simp⟩) ⟨start, rfl⟩ run
  exact ⟨kept, Option.eq_none_iff_forall_not_mem.mpr none⟩

end Invariant

/-- Betas are placed without giving up, and keep the work valid. -/
theorem addBetas_valid (h : s.Valid) (run : s.addBetas = .ok (t, e)) :
    s.Keeps t ∧ e = none :=
  addBetas_invariant (fun u => s.Keeps u) (fun _ keeps => keeps.valid.consistent)
    (fun _ _ _ _ _ keeps places => keeps.trans (places.keeps keeps.valid)) (.refl h) run

/-- The position of an assertion lies behind the value that it is about. -/
theorem mem_take_of_assertionPosition {value : Value} {position : Nat}
    (kind : value.opcode.isPhi = false) (h : f.assertionPosition b v value = .ok (some position)) :
    v ∈ (f.instrsAt b).take position := by
  simp only [Procedure.assertionPosition, kind, Bool.false_eq_true, if_false, bind_eq_ok,
    pure_eq_ok, Option.map_eq_some_iff] at h
  obtain ⟨block, found, i, at_i, rfl⟩ := h
  obtain ⟨lt, rfl, -⟩ := List.idxOf?_eq_some_iff.mp at_i
  rw [Procedure.instrsAt, Procedure.block_eq_ok.mp found, Option.map_some, Option.getD_some]
  exact List.mem_take_iff_getElem.mpr ⟨i, by omega, rfl⟩

/-- The second session is the first one with a new assertion about a member of the same block that
comes before it. -/
structure PlacesAssertion (s t : Session) : Prop where
  graph : t.graph = s.graph
  loops : t.loops = s.loops
  config : t.config = s.config
  edit : ∃ b before after v range, v ∈ s.procedure.phisAt b ++ before ∧
    s.procedure.Placed t.procedure b before after (.assertRange v range) .effect

/-- An assertion about a member of a block, if one is placed, comes after the member. -/
theorem assertValue_spec (h : s.procedure.Consistent s.graph) (mem : v ∈ s.procedure.membersAt b)
    (run : s.assertValue b v = .ok t) :
    t = s ∨ s.PlacesAssertion t := by
  have nothing : (pure s : Except Fault Session) = .ok t → t = s ∨ s.PlacesAssertion t :=
    fun same => .inl (pure_eq_ok.mp same).symm
  simp only [assertValue, bind_eq_ok] at run
  obtain ⟨value, found, run⟩ := run
  split at run
  · exact nothing run
  · next range _ =>
    split at run
    · exact nothing run
    · obtain ⟨position?, where_, run⟩ := bind_eq_ok.mp run
      split at run
      · exact nothing run
      · next position =>
        simp only [bind_eq_ok, pure_eq_ok, Prod.exists] at run
        obtain ⟨f', new, placed, rfl⟩ := run
        obtain ⟨-, -, placed⟩ := Procedure.placeAt_spec placed
        have op := Procedure.opcode?_of_value (Procedure.value_eq_ok.mp found)
        refine .inr ⟨rfl, rfl, rfl, b, _, _, v, range.numeric, ?_, placed⟩
        cases phi : value.opcode.isPhi with
        | false => exact List.mem_append_right _ (mem_take_of_assertionPosition phi where_)
        | true =>
          refine List.mem_append_left _ ((List.mem_append.mp mem).resolve_right fun instr => ?_)
          have kind := (h.wellFormed.structured.instrs b v instr).1
          rw [Procedure.isPhi_eq op, phi] at kind
          cases kind

namespace PlacesAssertion

/-- The operand of an assertion exists and is computed before it. -/
theorem readable {before after : List ValueId} {f' : Procedure} {type : ValueType}
    (h : s.procedure.Consistent s.graph) (mem : v ∈ s.procedure.phisAt b ++ before)
    (placed : s.procedure.Placed f' b before after (.assertRange v range) type) :
    ∀ x ∈ (Opcode.assertRange v range).operands, x < s.procedure.values.size ∧
      s.procedure.Readable s.graph b (s.procedure.phisAt b ++ before) x := by
  intro x hx
  obtain rfl : x = v := by simpa [Opcode.operands] using hx
  have member : x ∈ s.procedure.membersAt b := by
    rw [Procedure.membersAt, placed.listed, ← List.append_assoc]
    exact List.mem_append_left _ mem
  have home := h.wellFormed.structured.home_of_mem member
  exact ⟨Procedure.lt_size_of_home? home, b, home, by rw [if_pos rfl]; exact mem⟩

/-- Members stay members. -/
theorem mem_membersAt (h : s.PlacesAssertion t) {c : BlockId} {w : ValueId}
    (mem : w ∈ s.procedure.membersAt c) : w ∈ t.procedure.membersAt c := by
  obtain ⟨b, before, after, v, range, -, placed⟩ := h.edit
  exact placed.mem_membersAt mem

/-- An assertion keeps it consistent. -/
theorem consistent (h : s.PlacesAssertion t) (consistent : s.procedure.Consistent s.graph) :
    t.procedure.Consistent t.graph := by
  obtain ⟨b, before, after, v, range, mem, placed⟩ := h.edit
  have reads := readable consistent mem placed
  rw [h.graph]
  exact ⟨placed.flow.build.trans consistent.built,
    consistent.wellFormed.place placed rfl (fun x hx => (reads x hx).1) fun _ x hx => (reads x hx).2,
    placed.allListed consistent.listed⟩

/-- An assertion keeps it valid. -/
theorem keeps (h : s.PlacesAssertion t) (valid : s.Valid) : s.Keeps t := by
  obtain ⟨built, wellFormed, listed⟩ := h.consistent valid.consistent
  obtain ⟨b, before, after, v, range, mem, placed⟩ := h.edit
  have reads := readable valid.consistent mem placed
  exact ⟨⟨built, wellFormed, listed, valid.testable.place valid.wellFormed.structured placed
    (fun x hx => (reads x hx).1) fun x handed => nomatch handed⟩, h.graph, h.loops, h.config⟩

end PlacesAssertion

/-- What placing an assertion keeps, asserting all ranges keeps. -/
theorem addAssertions_invariant (holds : Session → Prop)
    (consistent : ∀ u, holds u → u.procedure.Consistent u.graph)
    (keep : ∀ u v, holds u → u.PlacesAssertion v → holds v) (start : holds s)
    (run : s.addAssertions = .ok t) : holds t := by
  refine foldlM_invariant holds (fun b _ u v kept run => ?_) start run
  rw [assertBlock] at run
  split at run
  · obtain rfl := pure_eq_ok.mp run
    exact kept
  · obtain ⟨members, found, run⟩ := bind_eq_ok.mp run
    have members_eq : u.procedure.membersAt b = members := by
      simp only [Procedure.members, bind_eq_ok, pure_eq_ok] at found
      obtain ⟨block, found, rfl⟩ := found
      simp [Procedure.membersAt, Procedure.phisAt, Procedure.instrsAt,
        Procedure.block_eq_ok.mp found, Block.members]
    have step := foldlM_invariant (fun w => holds w ∧ ∀ x ∈ members, x ∈ w.procedure.membersAt b)
      (fun x hx w w' kept run => by
        rcases assertValue_spec (consistent w kept.1) (kept.2 x hx) run with rfl | places
        · exact kept
        · exact ⟨keep w w' kept.1 places, fun y hy => places.mem_membersAt (kept.2 y hy)⟩)
      ⟨kept, fun x hx => members_eq ▸ hx⟩ run
    exact step.1

/-- Asserting ranges keeps the work valid. -/
theorem addAssertions_valid (h : s.Valid) (run : s.addAssertions = .ok t) : s.Keeps t :=
  addAssertions_invariant (fun u => s.Keeps u) (fun _ keeps => keeps.valid.consistent)
    (fun _ _ keeps places => keeps.trans (places.keeps keeps.valid)) (.refl h) run

end Session

end Rangefinder
