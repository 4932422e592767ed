import Rangefinder.Proofs.Analysis.Offsets
import Rangefinder.Proofs.Flow.NaturalLoops
import Rangefinder.Proofs.Linear.Sums

/-!
# What bounds a loop

A loop is bounded by reading, in the procedure, a test that every round passes, a phi of the header
that the test compares, and the way in which that phi moves. This module says what has been read
when a bound is found: `IsCounter` for the phi that counts the rounds, `Moves` for any phi of the
header that moves by a constant step. All values that enter the bounds are computed before the loop
is entered.
-/

namespace Rangefinder

namespace SimpleLoop

variable {l : SimpleLoop} {f : Procedure} {g : FlowGraph} {sum : LinearSum} {i : LinearInequality}
  {phi initial next : ValueId} {b test : BlockId} {step : Int} {truth : Bool} {bounds : PhiBounds}
  {cond : ValueId} {boundId : Nat} {loop : Loop} {v : ValueId} {t : ValueId}

/-- The loop is a natural one that is entered over one edge and repeated over one edge. -/
structure IsSimple (l : SimpleLoop) (g : FlowGraph) (f : Procedure) : Prop where
  natural : l.loop.IsNatural g f
  backedges : l.loop.backedges = [l.backedge]
  preheaders : l.loop.preheaders = [l.preheader]

/-- The flow graph alone decides whether a loop is such a loop. -/
theorem IsSimple.of_describes {f' : Procedure} (h : l.IsSimple g f) (d : g.Describes f)
    (d' : g.Describes f') : l.IsSimple g f' :=
  ⟨h.natural.of_describes d d', h.backedges, h.preheaders⟩

/-- Which loops are simple. -/
theorem ofLoop?_eq_some (h : ofLoop? loop = some l) :
    l.loop = loop ∧ loop.backedges = [l.backedge] ∧ loop.preheaders = [l.preheader] := by
  simp only [ofLoop?, Loop.backedge, Loop.preheader] at h
  split at h
  · next b p back pre =>
    obtain rfl := Option.some.inj h
    refine ⟨rfl, ?_, ?_⟩
    · split at back <;> simp_all
    · split at pre <;> simp_all
  · cases h

/-- The block that enters the loop is reachable, leads to the header and lies outside. -/
theorem IsSimple.preheader_spec (h : l.IsSimple g f) :
    l.preheader ∈ g.order ∧ l.header ∈ f.successors l.preheader ∧ l.preheader ∉ l.loop.body :=
  (h.natural.enter l.preheader).mp (by simp [h.preheaders])

/-- The block that repeats the loop leads to the header and lies inside. -/
theorem IsSimple.backedge_spec (h : l.IsSimple g f) :
    l.header ∈ f.successors l.backedge ∧ l.backedge ∈ l.loop.body :=
  (h.natural.back l.backedge).mp (by simp [h.backedges])

/-- The value stands in no block of the loop. -/
def Outside (l : SimpleLoop) (f : Procedure) (v : ValueId) : Prop :=
  ∀ b, f.home? v = some b → b ∉ l.loop.body

/-- Values defined in the loop. -/
theorem defines_eq_ok {inside : Bool} (h : loop.defines f v = .ok inside) (home : f.home? v = some b) :
    inside = true ↔ b ∈ loop.body := by
  simp only [Loop.defines, Procedure.definitionBlock, bind_eq_ok, pure_eq_ok] at h
  obtain ⟨block, ⟨value, found, rfl⟩, rfl⟩ := h
  rw [Procedure.value_eq_ok] at found
  rw [Procedure.home?_of_value found] at home
  rw [home, Option.getD_some, Loop.contains, List.contains_iff_mem]

/-- Values defined elsewhere. -/
theorem outside_of_defines (h : l.loop.defines f v = .ok false) : l.Outside f v :=
  fun _ home mem => Bool.noConfusion ((defines_eq_ok h home).mpr mem)

/-- A phi of the header with its first input and the one of later rounds. -/
def HasInputs (l : SimpleLoop) (f : Procedure) (phi initial next : ValueId) : Prop :=
  ∃ inputs, f.opcode? phi = some (.phi inputs) ∧ inputs.length = 2 ∧
    (initial, l.preheader) ∈ inputs ∧ (next, l.backedge) ∈ inputs

/-- The two inputs are found. -/
theorem inputsOf_spec (h : (l.inputsOf f phi).run = .ok (some (initial, next))) :
    l.HasInputs f phi initial next := by
  rw [inputsOf, attempt_bind] at h
  obtain ⟨o, op, h⟩ := h
  rw [attempt_lift, Procedure.opcode_eq_ok] at op
  split at h
  · next inputs =>
    simp only [attempt_bind, attempt_require, attempt_some?, attempt_pure, Prod.mk.injEq,
      Prod.exists, beq_iff_eq] at h
    obtain ⟨_, two, first, p, enters, later, b, repeats, rfl, rfl⟩ := h
    obtain rfl : p = l.preheader := by simpa using List.find?_some enters
    obtain rfl : b = l.backedge := by simpa using List.find?_some repeats
    exact ⟨inputs, op, two, List.mem_of_find?_eq_some enters, List.mem_of_find?_eq_some repeats⟩
  · exact absurd h attempt_failure

/-- A phi with two inputs has no others. -/
theorem HasInputs.eq_or_eq {inputs : List (ValueId × BlockId)} (h : l.HasInputs f phi initial next)
    (simple : l.IsSimple g f) (op : f.opcode? phi = some (.phi inputs)) {i : ValueId × BlockId}
    (hi : i ∈ inputs) :
    i = (initial, l.preheader) ∨ i = (next, l.backedge) := by
  obtain ⟨inputs', op', two, enters, repeats⟩ := h
  obtain rfl : inputs = inputs' := Opcode.phi.inj (Option.some.inj (op.symm.trans op'))
  have ne : (initial, l.preheader) ≠ (next, l.backedge) := by
    intro same
    exact simple.preheader_spec.2.2 ((Prod.mk.inj same).2 ▸ simple.backedge_spec.2)
  match inputs, two with
  | [x, y], _ =>
    simp only [List.mem_cons, List.not_mem_nil, or_false] at hi enters repeats
    grind

/-- The next value of a phi is computed in every round, without wrap-around, as the phi plus the
step. -/
def IsSteady (l : SimpleLoop) (f : Procedure) (g : FlowGraph) (phi next : ValueId) (step : Int) :
    Prop :=
  ∃ write op a b flags home, f.Refines next write ∧
    f.opcode? write = some (.binary op a b flags) ∧ (op = .add ∨ op = .sub) ∧
    flags.wrapping = false ∧ f.home? write = some home ∧ home ∈ l.loop.body ∧
    g.dominates home l.backedge = true ∧ f.IsOffset write ⟨some phi, step⟩

/-- The step is found. -/
theorem steadyStep_spec (h : (l.steadyStep f g phi next).run = .ok (some step)) :
    l.IsSteady f g phi next step := by
  rw [steadyStep, attempt_bind] at h
  obtain ⟨write, follow, h⟩ := h
  rw [attempt_bind] at h
  obtain ⟨value, found, h⟩ := h
  rw [attempt_lift, Procedure.value_eq_ok] at found
  rw [attempt_lift] at follow
  split at h
  · next op a b flags binary =>
    simp only [attempt_bind, attempt_require, attempt_some?, attempt_pure, attempt_lift,
      Bool.and_eq_true, Bool.or_eq_true, beq_iff_eq, Bool.not_eq_true', Loop.contains,
      List.contains_iff_mem] at h
    obtain ⟨_, ⟨sum, steady⟩, home, stands, _, ⟨inside, every⟩, ⟨term, constant⟩, reading, _, rfl,
      rfl⟩ := h
    exact ⟨write, op, a, b, flags, home, (Procedure.throughBetas_spec follow).1,
      by rw [Procedure.opcode?_of_value found, binary], sum, steady,
      by rw [Procedure.home?_of_value found, stands], inside, every,
      Procedure.offset_spec reading⟩
  · exact absurd h attempt_failure

/-- The inequality is what a comparison of int32 values says when it has the given truth value. -/
def Tests (f : Procedure) (cond : ValueId) (truth : Bool) (i : LinearInequality) : Prop :=
  ∃ op lhs rhs left right, f.opcode? cond = some (.compare op lhs rhs) ∧
    f.type? lhs = some .int32 ∧ f.type? rhs = some .int32 ∧ f.IsOffset lhs left ∧
    f.IsOffset rhs right ∧
    Procedure.inequalityOf (if truth then op else op.negate) left right = some i

/-- The test is read off. -/
theorem inequality_spec (h : f.inequality cond truth = .ok (some i)) :
    Tests f cond truth i := by
  obtain ⟨o, op, h⟩ := bind_eq_ok.mp h
  rw [Procedure.opcode_eq_ok] at op
  split at h
  · next cmp lhs rhs =>
    simp only [Procedure.typeOf, bind_eq_ok, pure_eq_ok] at h
    obtain ⟨leftType, ⟨leftValue, leftFound, rfl⟩, h⟩ := h
    split at h
    · cases pure_eq_ok.mp h
    · next int32 =>
      simp only [bind_eq_ok, pure_eq_ok] at h
      obtain ⟨rightType, ⟨rightValue, rightFound, rfl⟩, h⟩ := h
      split at h
      · cases pure_eq_ok.mp h
      · next int32' =>
        simp only [bind_eq_ok, pure_eq_ok] at h
        obtain ⟨left, readLeft, right, readRight, read⟩ := h
        rw [Procedure.value_eq_ok] at leftFound rightFound
        exact ⟨cmp, lhs, rhs, left, right, op,
          by rw [Procedure.type?_of_value leftFound, not_not.mp int32],
          by rw [Procedure.type?_of_value rightFound, not_not.mp int32'],
          Procedure.offset_spec readLeft, Procedure.offset_spec readRight, read⟩
  · cases pure_eq_ok.mp h

/-- The second inequality says what the first one does, with a right side from outside the
loop. -/
def Orients (l : SimpleLoop) (f : Procedure) (i j : LinearInequality) : Prop :=
  j = i ∧ (∀ r ∈ i.rhs, l.Outside f r) ∨
  ∃ r, i.rhs = some r ∧ (∀ t ∈ i.lhs.term, l.Outside f t) ∧ IsInt32 (0 - i.lhs.constant) ∧
    j = ⟨⟨some r, 0 - i.lhs.constant⟩, i.lhs.term, !i.lessEqual⟩

/-- The inequality is oriented. -/
theorem orient_spec {i j : LinearInequality} (h : (l.orient f i).run = .ok (some j)) :
    l.Orients f i j := by
  rw [orient] at h
  split at h
  · next none =>
    exact .inl ⟨(attempt_pure.mp h).symm, by simp [none]⟩
  · next r rhs =>
    rw [attempt_bind] at h
    obtain ⟨inside, defines, h⟩ := h
    rw [attempt_lift] at defines
    cases inside with
    | false =>
      refine .inl ⟨(attempt_pure.mp h).symm, fun t ht => ?_⟩
      obtain rfl := Option.some.inj (rhs.symm.trans ht)
      exact outside_of_defines defines
    | true =>
      have flipped : ∀ {k : LinearInequality}, (do
          let c ← Attempt.some? (checkInt32 (0 - i.lhs.constant))
          return ⟨⟨some r, c⟩, i.lhs.term, !i.lessEqual⟩ : Attempt LinearInequality).run =
            .ok (some k) →
          IsInt32 (0 - i.lhs.constant) ∧
            k = ⟨⟨some r, 0 - i.lhs.constant⟩, i.lhs.term, !i.lessEqual⟩ := by
        intro k run
        simp only [attempt_bind, attempt_some?, attempt_pure, checkInt32_eq_some] at run
        obtain ⟨c, ⟨fits, rfl⟩, rfl⟩ := run
        exact ⟨fits, rfl⟩
      rw [if_pos rfl] at h
      refine .inr ⟨r, rhs, ?_⟩
      cases lhs : i.lhs.term with
      | some t =>
        simp only [lhs, attempt_bind, attempt_lift, attempt_require, Bool.not_eq_true'] at h flipped
        obtain ⟨inside, defines, _, rfl, h⟩ := h
        refine ⟨fun u hu => ?_, flipped h⟩
        obtain rfl := Option.mem_some.mp hu
        exact outside_of_defines defines
      | none =>
        simp only [lhs] at h flipped
        exact ⟨by simp, flipped h⟩

/-- A phi of the header counts the rounds of the loop: the inequality compares it, it starts with a
value from outside, and it moves by the step in every round. -/
structure IsCounter (l : SimpleLoop) (f : Procedure) (g : FlowGraph) (i : LinearInequality)
    (phi initial next : ValueId) (step : Int) : Prop where
  term : i.lhs.term = some phi
  home : f.home? phi = some l.header
  inputs : l.HasInputs f phi initial next
  outside : l.Outside f initial
  steady : l.IsSteady f g phi next step

/-- The rounds are counted. -/
theorem rounds_spec (h : (l.rounds f g cond truth).run = .ok (some sum)) :
    ∃ i j phi initial next step, Tests f cond truth i ∧ l.Orients f i j ∧
      l.IsCounter f g j phi initial next step ∧
      (roundsUntil f j initial step).run = .ok (some sum) := by
  simp only [rounds, attempt_bind, attempt_lift, attempt_require, attempt_some?, OptionT.run_mk,
    Prod.exists, Procedure.value_eq_ok, beq_iff_eq, Bool.not_eq_true'] at h
  obtain ⟨i, test, j, oriented, phi, term, value, found, _, home, initial, next, inputs, _,
    defines, _, rfl, step, steady, until_⟩ := h
  exact ⟨i, j, phi, initial, next, step, inequality_spec test, orient_spec oriented,
    ⟨term, by rw [Procedure.home?_of_value found, home], inputsOf_spec inputs,
      outside_of_defines defines, steadyStep_spec steady⟩, until_⟩

/-- What is found at a block of a loop: the branch that decides the entry into the block leaves the
loop otherwise, and bounds the rounds. -/
structure IsExitTest (l : SimpleLoop) (f : Procedure) (g : FlowGraph) (b test : BlockId)
    (sum : LinearSum) : Prop where
  decides : g.decidingBranch f b = some test
  leaves : ∃ cond onTrue onFalse, f.terminator? test = some (.branch cond onTrue onFalse) ∧
    (if onTrue ≠ b then onTrue else onFalse) ∉ l.loop.body ∧
    (l.rounds f g cond (onTrue != b)).run = .ok (some sum)

/-- An exit test is found. -/
theorem boundAt_spec (h : (l.boundAt f g b).run = .ok (some (test, sum))) :
    l.IsExitTest f g b test sum := by
  simp only [boundAt, attempt_bind, attempt_some?, attempt_lift] at h
  obtain ⟨test', decides, block, found, h⟩ := h
  rw [Procedure.block_eq_ok] at found
  split at h
  · next cond onTrue onFalse term =>
    simp only [attempt_bind, attempt_require, attempt_pure, Prod.mk.injEq, bne_iff_ne,
      Bool.not_eq_true', Loop.contains, List.contains_eq_mem, decide_eq_false_iff_not] at h
    obtain ⟨_, leaves, _, rounds, rfl, rfl⟩ := h
    exact ⟨decides, cond, onTrue, onFalse,
      by rw [Procedure.terminator?, found, Option.map_some, term], leaves, rounds⟩
  · exact absurd h attempt_failure

/-- The first one counts. -/
theorem firstBound_spec {blocks : List BlockId} {found : BlockId × LinearSum}
    (h : l.firstBound f g blocks = .ok (some found)) :
    ∃ b ∈ blocks, l.IsExitTest f g b found.1 found.2 := by
  induction blocks with
  | nil => cases Except.ok.inj h
  | cons b rest ih =>
    obtain ⟨here, attempt, h⟩ := bind_eq_ok.mp h
    cases here with
    | some here =>
      obtain rfl := Option.some.inj (pure_eq_ok.mp h)
      exact ⟨b, List.mem_cons_self, boundAt_spec attempt⟩
    | none =>
      obtain ⟨c, hc, spec⟩ := ih h
      exact ⟨c, List.mem_cons_of_mem _ hc, spec⟩

/-- The blocks on the way up to a block above are below that block. -/
theorem above_of_mem_takeWhile {header : BlockId} {k : Nat} {t b : BlockId}
    (above : g.Above header t) (mem : b ∈ (g.ancestors k t).takeWhile (· != header)) :
    g.Above header b ∧ g.Above b t ∧ b ≠ header := by
  induction k generalizing t with
  | zero => simp [FlowGraph.ancestors] at mem
  | succ k ih =>
    rw [FlowGraph.ancestors] at mem
    by_cases own : t = header
    · split at mem <;> simp [own] at mem
    · have first : t != header := by simpa using own
      split at mem
      · next d parent =>
        rw [List.takeWhile_cons, if_pos first] at mem
        rcases List.mem_cons.mp mem with rfl | mem
        · exact ⟨above, .refl, own⟩
        · obtain ⟨below, upper, ne⟩ := ih (above.of_idom (Ne.symm own) parent) mem
          exact ⟨below, .up (FlowGraph.idom_eq_some.mp parent) upper, ne⟩
      · rw [List.takeWhile_cons, if_pos first] at mem
        obtain rfl : b = t := by simpa using mem
        exact ⟨above, .refl, own⟩

/-- A bound of a loop is found at a block of the loop, other than the header, that every round
passes. -/
theorem bound_spec (simple : l.IsSimple g f) (d : g.Describes f)
    (h : l.bound f g = .ok (some (test, sum))) :
    ∃ b ∈ l.loop.body, b ≠ l.header ∧ g.Above b l.backedge ∧ l.IsExitTest f g b test sum := by
  obtain ⟨b, hb, spec⟩ := firstBound_spec h
  have inside := simple.backedge_spec.2
  obtain ⟨below, upper, ne⟩ := above_of_mem_takeWhile (simple.natural.below _ inside) hb
  exact ⟨b, simple.natural.convex d inside below upper, ne, upper, spec⟩

/-- The test that bounds a loop stands in the loop, right above the block that it guards. -/
theorem IsExitTest.test_mem (h : l.IsExitTest f g b test sum) (simple : l.IsSimple g f)
    (d : g.Describes f) (hb : b ∈ l.loop.body) (ne : b ≠ l.header) :
    test ∈ l.loop.body := by
  obtain ⟨preds, parent, -⟩ := Procedure.decidingBranch_spec h.decides
  obtain ⟨hb', htest, -⟩ := d.parent b test parent
  refine simple.natural.closed b hb ne test htest ?_
  exact (d.preds b test (d.order.inBounds b hb')).mp (by simp [preds])

/-- A phi of the header moves by a constant step from a first value that comes from outside. -/
structure Moves (l : SimpleLoop) (f : Procedure) (phi initial next : ValueId) (step : Int) :
    Prop where
  type : f.type? phi = some .int32
  inputs : l.HasInputs f phi initial next
  outside : l.Outside f initial
  offset : f.IsOffset next ⟨some phi, step⟩
  moving : step ≠ 0

/-- The sums that bound a phi: its first value, and the value that it has in the last round. -/
structure BoundSums (f : Procedure) (bound : LinearSum) (initial : ValueId) (step : Int)
    (first last : LinearSum) : Prop where
  starts : LinearSum.zero.addTerm f initial 1 = .ok (some first)
  ends : ∃ scaled shifted, bound.multiply step = some scaled ∧
    scaled.addSum 1 first = some shifted ∧ shifted.addConstant (0 - step) = some last

/-- What a moving phi reaches when the loop is left, if that can be written as a sum. -/
def Reaches (f : Procedure) (last : LinearSum) (step : Int) (reach : Option Range) : Prop :=
  ∀ r ∈ reach, ∃ sum, last.addConstant step = some sum ∧ rangeOfSum f sum = .ok r

/-- The bounds of a phi are its first and its last value, in the order in which it moves. -/
def BoundsOf (bounds : PhiBounds) (range firstRange : Range) (reach : Option Range) (boundId : Nat)
    (step : Int) (first last : LinearSum) : Prop :=
  0 < step ∧ refineGrowing range firstRange reach = .ok bounds.range ∧
    bounds.lower = ⟨none, first⟩ ∧ bounds.upper = ⟨some boundId, last⟩ ∨
  step < 0 ∧ refineShrinking range firstRange reach = .ok bounds.range ∧
    bounds.lower = ⟨some boundId, last⟩ ∧ bounds.upper = ⟨none, first⟩

/-- What a phi is bounded by. -/
theorem phiBounds_spec {bound : LinearSum}
    (h : (l.phiBounds f boundId bound phi).run = .ok (some bounds)) :
    ∃ value initial next step first last firstRange reach, f.values[phi]? = some value ∧
      l.Moves f phi initial next step ∧ BoundSums f bound initial step first last ∧
      f.rangeRead initial = .ok firstRange ∧ Reaches f last step reach ∧
      BoundsOf bounds (value.range.getD ValueType.int32.range) firstRange reach boundId step first
        last := by
  simp only [phiBounds, attempt_bind, attempt_lift, attempt_require, attempt_some?, OptionT.run_mk,
    Prod.exists, Procedure.value_eq_ok, beq_iff_eq, bne_iff_ne, Bool.not_eq_true',
    Bool.and_eq_true, checkInt32_eq_some] at h
  obtain ⟨value, found, _, int32, initial, next, inputs, _, defines, _, rfl, ⟨term, step⟩, reading,
    _, ⟨rfl, moving⟩, first, starts, back, ⟨_, rfl⟩, last, ends, h⟩ := h
  have moves : l.Moves f phi initial next step :=
    ⟨by rw [Procedure.type?_of_value found, int32], inputsOf_spec inputs,
      outside_of_defines defines, Procedure.offset_spec reading, moving⟩
  obtain ⟨scaled, scaling, ends⟩ := Option.bind_eq_some_iff.mp ends
  obtain ⟨shifted, shifting, ends⟩ := Option.bind_eq_some_iff.mp ends
  have sums : BoundSums f bound initial step first last :=
    ⟨starts, scaled, shifted, scaling, shifting, ends⟩
  dsimp only at moving h
  have rest : ∀ reach : Option Range, (do
      let firstRange ← liftM (f.rangeRead initial)
      if 0 < step then do
        let range ← liftM (refineGrowing (value.range.getD ValueType.int32.range) firstRange reach)
        pure ⟨range, ⟨none, first⟩, ⟨some boundId, last⟩⟩
      else do
        let range ← liftM
          (refineShrinking (value.range.getD ValueType.int32.range) firstRange reach)
        pure ⟨range, ⟨some boundId, last⟩, ⟨none, first⟩⟩ : Attempt PhiBounds).run =
          .ok (some bounds) →
      ∃ firstRange, f.rangeRead initial = .ok firstRange ∧
        BoundsOf bounds (value.range.getD ValueType.int32.range) firstRange reach boundId step first
          last := by
    intro reach run
    rw [attempt_bind] at run
    obtain ⟨firstRange, read, run⟩ := run
    refine ⟨firstRange, attempt_lift.mp read, ?_⟩
    split at run
    · next grows =>
      simp only [attempt_bind, attempt_lift, attempt_pure] at run
      obtain ⟨range, refined, rfl⟩ := run
      exact .inl ⟨grows, refined, rfl, rfl⟩
    · next shrinks =>
      simp only [attempt_bind, attempt_lift, attempt_pure] at run
      obtain ⟨range, refined, rfl⟩ := run
      exact .inr ⟨by omega, refined, rfl, rfl⟩
  cases final : last.addConstant step with
  | some sum =>
    simp only [final] at h
    rw [attempt_bind] at h
    obtain ⟨reach, reaching, h⟩ := h
    simp only [attempt_map, attempt_lift] at reaching
    obtain ⟨r, computed, rfl⟩ := reaching
    obtain ⟨firstRange, read, bounded⟩ := rest _ h
    refine ⟨value, initial, next, step, first, last, firstRange, some r, found, moves, sums, read,
      fun r' hr => ?_, bounded⟩
    obtain rfl := Option.mem_some.mp hr
    exact ⟨sum, final, computed⟩
  | none =>
    simp only [final] at h
    rw [attempt_bind] at h
    obtain ⟨reach, reaching, h⟩ := h
    obtain rfl := attempt_pure.mp reaching
    obtain ⟨firstRange, read, bounded⟩ := rest _ h
    exact ⟨value, initial, next, step, first, last, firstRange, none, found, moves, sums, read,
      by simp [Reaches], bounded⟩

/-! ### What enters the bounds is computed before the loop -/

/-- A value from outside the loop that is defined in it is defined before it. -/
theorem Outside.definedAtEnd {c : BlockId} (out : l.Outside f t) (simple : l.IsSimple g f)
    (d : g.Describes f) (hc : c ∈ l.loop.body) (defined : f.DefinedAtEnd g t c) :
    f.DefinedAtEnd g t l.preheader := by
  obtain ⟨home, stands, dominates⟩ := defined
  refine ⟨home, stands, d.dominates_iff.mpr ⟨simple.preheader_spec.1, ?_⟩⟩
  exact simple.natural.above_preheader d hc (d.dominates_iff.mp dominates).2 (out home stands)
    (by simp [simple.preheaders])

/-- The first value of a phi of the header is defined before the loop. -/
theorem HasInputs.definedAtEnd (inputs : l.HasInputs f phi initial next) (valid : f.Valid g)
    (simple : l.IsSimple g f) (home : f.home? phi = some l.header) :
    f.DefinedAtEnd g initial l.preheader := by
  have d := valid.describes
  obtain ⟨list, op, -, enters, -⟩ := inputs
  have hphi := valid.wellFormed.structured.mem_phisAt_of_home valid.listed home op rfl
  have header := simple.natural.reachable _ simple.natural.header_mem
  exact ((valid.wellFormed.uses _ header).inputs phi hphi list op _ enters).2
    (d.isReachable_iff.mpr simple.preheader_spec.1)

/-- Terms of an inequality. -/
theorem inequalityOf_terms {op : CompareOp} {left right : Offset}
    (h : Procedure.inequalityOf op left right = some i) :
    i.lhs.term = left.term ∧ i.rhs = right.term := by
  obtain ⟨c, -, h⟩ := Option.bind_eq_some_iff.mp h
  cases op with
  | le => obtain rfl := Option.some.inj h; exact ⟨rfl, rfl⟩
  | ge => obtain rfl := Option.some.inj h; exact ⟨rfl, rfl⟩
  | lt =>
    obtain ⟨c', -, h⟩ := Option.bind_eq_some_iff.mp h
    obtain rfl := Option.some.inj h
    exact ⟨rfl, rfl⟩
  | gt =>
    obtain ⟨c', -, h⟩ := Option.bind_eq_some_iff.mp h
    obtain rfl := Option.some.inj h
    exact ⟨rfl, rfl⟩
  | eq => cases h
  | ne => cases h

/-- Both sides of a test are defined where the test is. -/
theorem Tests.definedAtEnd {cond t : ValueId} {q : BlockId} (h : Tests f cond truth i)
    (valid : f.Valid g) (defined : f.DefinedAtEnd g cond q)
    (side : i.lhs.term = some t ∨ i.rhs = some t) : f.DefinedAtEnd g t q := by
  obtain ⟨op, lhs, rhs, left, right, code, -, -, readLeft, readRight, read⟩ := h
  have d := valid.describes
  have wf := valid.wellFormed
  obtain ⟨home, stands, -⟩ := id defined
  have hc := wf.structured.mem_instrsAt_of_home valid.listed stands code rfl
  rw [(inequalityOf_terms read).1, (inequalityOf_terms read).2] at side
  rcases side with ofLeft | ofRight
  · exact readLeft.definedAtEnd ofLeft wf d valid.listed
      (wf.definedAtEnd_operand d hc code (by simp [Opcode.operands]) defined)
  · exact readRight.definedAtEnd ofRight wf d valid.listed
      (wf.definedAtEnd_operand d hc code (by simp [Opcode.operands]) defined)

/-- The right side of an oriented test comes from outside the loop and is a side of the test. -/
theorem Orients.rhs {i j : LinearInequality} (h : l.Orients f i j) (ht : j.rhs = some t) :
    l.Outside f t ∧ (i.lhs.term = some t ∨ i.rhs = some t) := by
  rcases h with ⟨rfl, out⟩ | ⟨r, -, out, -, rfl⟩
  · exact ⟨out t ht, .inr ht⟩
  · exact ⟨out t ht, .inl ht⟩

/-- Terms with an optional one. -/
theorem addOptional_terms {sum result : LinearSum} {term : Option ValueId} {scale : Int}
    {holds : ValueId → Prop} (terms : sum.TermsSatisfy holds) (own : ∀ t ∈ term, holds t)
    (h : (addOptional f sum term scale).run = .ok (some result)) : result.TermsSatisfy holds := by
  cases term with
  | none => exact attempt_pure.mp h ▸ terms
  | some t => exact terms.addTerm (own t rfl) h

/-- The number of rounds is a sum of the first value and the right side of the test. -/
theorem roundsUntil_terms {holds : ValueId → Prop} (first : holds initial) (rhs : ∀ t ∈ i.rhs, holds t)
    (h : (roundsUntil f i initial step).run = .ok (some sum)) : sum.TermsSatisfy holds := by
  have zero : LinearSum.zero.TermsSatisfy holds := by
    intro t ht
    cases ht
  have one : ∀ t ∈ some initial, holds t := by
    rintro t ⟨rfl⟩
    exact first
  rw [roundsUntil] at h
  split at h
  · simp only [attempt_bind, attempt_some?] at h
    obtain ⟨a, addA, b, addB, c, -, addC⟩ := h
    exact (addOptional_terms (addOptional_terms zero rhs addA) one addB).addConstant addC
  · split at h
    · simp only [attempt_bind, attempt_some?] at h
      obtain ⟨a, addA, b, addB, addC⟩ := h
      exact (addOptional_terms (addOptional_terms zero one addA) rhs addB).addConstant addC
    · exact absurd h attempt_failure

/-- All values in the bound of a loop are defined before the loop. -/
theorem IsExitTest.terms (h : l.IsExitTest f g b test sum) (valid : f.Valid g) (simple : l.IsSimple g f)
    (hb : b ∈ l.loop.body) (ne : b ≠ l.header) :
    sum.TermsSatisfy fun t => f.DefinedAtEnd g t l.preheader := by
  have d := valid.describes
  have inside := h.test_mem simple d hb ne
  obtain ⟨cond, onTrue, onFalse, term, -, rounds⟩ := h.leaves
  obtain ⟨i, j, phi, initial, next, step, tests, orients, counter, until_⟩ := rounds_spec rounds
  have htest := simple.natural.reachable test inside
  have defined := ((valid.wellFormed.uses test htest).result _ term cond rfl).definedAtEnd d htest
  refine roundsUntil_terms (counter.inputs.definedAtEnd valid simple counter.home) (fun t ht => ?_)
    until_
  obtain ⟨out, side⟩ := orients.rhs ht
  exact out.definedAtEnd simple d inside (tests.definedAtEnd valid defined side)

/-- All values in the bounds of a phi are defined before the loop. -/
theorem BoundSums.terms {bound first last : LinearSum} {holds : ValueId → Prop}
    (h : BoundSums f bound initial step first last) (own : holds initial)
    (terms : bound.TermsSatisfy holds) :
    first.TermsSatisfy holds ∧ last.TermsSatisfy holds := by
  obtain ⟨scaled, shifted, scaling, shifting, adding⟩ := h.ends
  have start : first.TermsSatisfy holds := by
    refine LinearSum.TermsSatisfy.addTerm (fun t ht => ?_) own h.starts
    cases ht
  exact ⟨start, ((terms.multiply scaling).addSum start shifting).addConstant adding⟩

/-- Terms of the bounds. -/
theorem BoundsOf.terms {range firstRange : Range} {reach : Option Range} {first last : LinearSum}
    {holds : ValueId → Prop} (h : BoundsOf bounds range firstRange reach boundId step first last)
    (ofFirst : first.TermsSatisfy holds) (ofLast : last.TermsSatisfy holds) :
    bounds.lower.sum.TermsSatisfy holds ∧ bounds.upper.sum.TermsSatisfy holds := by
  rcases h with ⟨-, -, lower, upper⟩ | ⟨-, -, lower, upper⟩
  · rw [lower, upper]
    exact ⟨ofFirst, ofLast⟩
  · rw [lower, upper]
    exact ⟨ofLast, ofFirst⟩

end SimpleLoop

end Rangefinder
