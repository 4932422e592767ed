import Rangefinder.Analysis.FixedPoint
import Rangefinder.Proofs.Procedure.Placement
import Rangefinder.Proofs.Range.Numeric

/-!
# Passes leave the code alone

A pass of the analysis writes down ranges and marks, and nothing else: the procedure after it has
the code that it had before. Nor does a pass give symbolic bounds to a value that has none. Both
statements are proved for the two elementary notes, a range and a mark, then for the visit of one
value, and from there by induction for a pass and for the whole fixed point.
-/

namespace Rangefinder

namespace Procedure

variable {f f' : Procedure} {g : FlowGraph} {v : ValueId} {range : Option Range} {id : Nat} {b : BlockId}

/-- A note on a value leaves the code alone. -/
theorem sameCode_modifyValue (v : ValueId) {m : Value → Value}
    (same : ∀ value, (m value).code = value.code) : SameCode f (f.modifyValue v m) := by
  refine ⟨rfl, fun _ => rfl, fun w => ?_⟩
  simp only [modifyValue, Array.getElem?_modify]
  split
  · next own =>
    subst own
    rw [Option.map_map]
    congr 1
    funext value
    exact same value
  · rfl

/-- A range leaves the code alone. -/
theorem sameCode_setRange (v : ValueId) (range : Option Range) : SameCode f (f.setRange v range) :=
  sameCode_modifyValue v fun _ => rfl

/-- A mark leaves the code alone. -/
theorem sameCode_markUnreachable (b : BlockId) : SameCode f (f.markUnreachable b) := by
  refine ⟨rfl, fun c => ?_, fun _ => rfl⟩
  simp only [markUnreachable, modifyBlock, Array.getElem?_modify]
  split
  · next own =>
    subst own
    rw [Option.map_map]
    rfl
  · rfl

/-- Taking all marks away leaves the code alone. -/
theorem sameCode_clearMarks : SameCode f f.clearMarks := by
  refine ⟨rfl, fun b => ?_, fun _ => rfl⟩
  simp only [clearMarks, Array.getElem?_map, Option.map_map]
  rfl

/-- Taking all ranges away leaves the code alone. -/
theorem sameCode_clearRanges : SameCode f f.clearRanges := by
  refine ⟨rfl, fun _ => rfl, fun v => ?_⟩
  simp only [clearRanges, Array.getElem?_map, Option.map_map]
  rfl

/-- What bringing the range of a value up to date writes down. -/
inductive Refreshed (f : Procedure) (g : FlowGraph) (v : ValueId) (value : Value) : Procedure → Prop
  /-- A beta has the numbers of its input that its refinement allows. -/
  | meets {input : ValueId} {refinement r met confined : Range} :
    value.opcode = .beta input refinement → f.rangeRead input = .ok r →
    r.intersect refinement = .ok (some met) → value.confine met = .ok confined →
    Refreshed f g v value (f.setRange v (some confined))
  /-- A beta that is not placed keeps the numbers of its input where there are none. -/
  | unplaced {input : ValueId} {refinement r confined : Range} :
    value.opcode = .beta input refinement → f.rangeRead input = .ok r →
    r.intersect refinement = .ok none → value.confine r = .ok confined → value.block = none →
    Refreshed f g v value (f.setRange v (some confined))
  /-- In a block, it marks the block. -/
  | marks {input : ValueId} {refinement r confined : Range} {b : BlockId} {block : Block} :
    value.opcode = .beta input refinement → f.rangeRead input = .ok r →
    r.intersect refinement = .ok none → value.confine r = .ok confined → value.block = some b →
    f.block b = .ok block →
    Refreshed f g v value ((f.markUnreachable b).setRange v (some confined))
  /-- The range of every other value is computed. -/
  | computes {range : Option Range} :
    (∀ input refinement, value.opcode ≠ .beta input refinement) → f.rangeOf g v = .ok range →
    Refreshed f g v value (f.setRange v range)

/-- What a refresh does. -/
theorem refresh_cases (h : f.refresh g v = .ok f') :
    ∃ value, f.value v = .ok value ∧ Refreshed f g v value f' := by
  obtain ⟨value, found, h⟩ := bind_eq_ok.mp h
  refine ⟨value, found, ?_⟩
  split at h
  · next input refinement beta =>
    obtain ⟨r, reading, h⟩ := bind_eq_ok.mp h
    obtain ⟨met, meeting, h⟩ := bind_eq_ok.mp h
    cases met with
    | some met =>
      obtain ⟨confined, confining, h⟩ := bind_eq_ok.mp h
      exact pure_eq_ok.mp h ▸ .meets beta reading meeting confining
    | none =>
      obtain ⟨confined, confining, h⟩ := bind_eq_ok.mp h
      split at h
      · next nowhere => exact pure_eq_ok.mp h ▸ .unplaced beta reading meeting confining nowhere
      · next b home =>
        obtain ⟨block, present, h⟩ := bind_eq_ok.mp h
        exact pure_eq_ok.mp h ▸ .marks beta reading meeting confining home present
  · next other =>
    obtain ⟨range, computed, h⟩ := bind_eq_ok.mp h
    exact pure_eq_ok.mp h ▸ .computes other computed

/-- Bringing a range up to date leaves the code alone. -/
theorem sameCode_refresh (h : f.refresh g v = .ok f') : SameCode f f' := by
  obtain ⟨value, -, refreshed⟩ := refresh_cases h
  cases refreshed with
  | marks => exact (sameCode_markUnreachable _).trans (sameCode_setRange v _)
  | _ => exact sameCode_setRange v _

/-- What the analysis has found out about a value. -/
def range? (f : Procedure) (v : ValueId) : Option Range := (f.values[v]?).bind Value.range

/-- The range of a value. -/
theorem range?_of_value {value : Value} (h : f.values[v]? = some value) :
    f.range? v = value.range := by
  rw [range?, h, Option.bind_some]

/-- A new instruction has no range, and the others keep theirs. -/
theorem Placed.range? {before after : List ValueId} {o : Opcode} {t : ValueType}
    (h : f.Placed f' b before after o t) (v : ValueId) : f'.range? v = f.range? v := by
  rw [Procedure.range?, Procedure.range?, h.getElem?_values]
  split
  · next new => simp [new]
  · rfl

/-- Renaming keeps ranges. -/
theorem Renaming.range? {ρ : ValueId → ValueId → ValueId} {π : ValueId → BlockId → ValueId → ValueId}
    {τ : BlockId → ValueId → ValueId} (h : Renaming f f' ρ π τ) (v : ValueId) :
    f'.range? v = f.range? v := by
  rw [Procedure.range?, Procedure.range?, h.values, Option.bind_map]
  rfl

/-- So does detaching. -/
theorem Detached.range? (h : f.Detached f' v b) (w : ValueId) :
    f'.range? w = f.range? w := by
  rw [Procedure.range?, Procedure.range?, h.values, Option.bind_map]
  congr 1
  funext value
  simp only [Function.comp_apply]
  split
  · rfl
  · rfl

/-- A value that is changed in other respects keeps its range. -/
theorem range?_modifyValue {v w : ValueId} {m : Value → Value}
    (same : ∀ value, (m value).range = value.range) : (f.modifyValue v m).range? w = f.range? w := by
  rw [range?, range?, modifyValue, Array.getElem?_modify]
  split
  · rw [Option.bind_map]
    congr 1
    funext value
    exact same value
  · rfl

/-- Setting the range of a value sets no other one. -/
theorem range?_setRange (v w : ValueId) (range : Option Range) :
    (f.setRange v range).range? w =
      if w = v then (f.values[v]?).bind fun _ => range else f.range? w := by
  simp only [range?, setRange, modifyValue, Array.getElem?_modify, @eq_comm _ v]
  split
  · next own =>
    subst own
    cases f.values[w]? <;> rfl
  · rfl

/-- Ranges are cleared. -/
theorem range?_clearRanges (v : ValueId) : f.clearRanges.range? v = none := by
  rw [range?, clearRanges, Array.getElem?_map, Option.bind_map]
  cases f.values[v]? <;> rfl

/-- The value has the symbolic bound with the given number. -/
def Mentions (f : Procedure) (v : ValueId) (id : Nat) : Prop :=
  ∃ r, f.range? v = some r ∧ r.Mentions id

/-- Other values mention what they did. -/
theorem mentions_setRange_of_ne {v w : ValueId} (other : w ≠ v) :
    (f.setRange v range).Mentions w id ↔ f.Mentions w id := by
  rw [Mentions, Mentions, range?_setRange, if_neg other]

/-- The symbolic bounds of a range that is noted for a value are those of the value. -/
theorem Mentions.of_setRange (h : (f.setRange v range).Mentions v id) :
    ∃ r, range = some r ∧ r.Mentions id := by
  obtain ⟨r, known, mentions⟩ := h
  rw [range?_setRange, if_pos rfl] at known
  obtain ⟨_, -, same⟩ := Option.bind_eq_some_iff.mp known
  exact ⟨r, same, mentions⟩

/-- The value mentions what its new range does. -/
theorem mentions_setRange_self {r : Range} (present : v < f.values.size) :
    (f.setRange v (some r)).Mentions v id ↔ r.Mentions id := by
  rw [Mentions, range?_setRange, if_pos rfl, Array.getElem?_eq_getElem present]
  simp

/-- A value that is given a range without symbolic bounds has none. -/
theorem mentions_setRange_isNumeric {v w : ValueId} (numeric : ∀ r, range = some r → r.IsNumeric) :
    (f.setRange v range).Mentions w id ↔ w ≠ v ∧ f.Mentions w id := by
  by_cases own : w = v
  · subst own
    refine ⟨fun mentions => ?_, fun ⟨other, _⟩ => absurd rfl other⟩
    obtain ⟨r, same, mentioned⟩ := mentions.of_setRange
    exact absurd mentioned ((numeric r same).not_mentions id)
  · rw [mentions_setRange_of_ne own]
    exact ⟨fun mentions => ⟨own, mentions⟩, And.right⟩

/-- Bringing a range up to date takes the symbolic bounds of the value away, and no others. -/
theorem mentions_refresh {v w : ValueId} (h : f.refresh g v = .ok f') :
    f'.Mentions w id ↔ w ≠ v ∧ f.Mentions w id := by
  obtain ⟨value, -, refreshed⟩ := refresh_cases h
  have noted : ∀ {r s : Range}, value.confine r = .ok s → r.IsNumeric →
      ∀ t, some s = some t → t.IsNumeric := fun confined numeric t same =>
    Option.some.inj same ▸ Value.confine_isNumeric confined numeric
  cases refreshed with
  | meets _ _ meeting confining =>
    exact mentions_setRange_isNumeric (noted confining (Range.intersect_isNumeric meeting))
  | unplaced _ reading _ confining =>
    exact mentions_setRange_isNumeric (noted confining (rangeRead_isNumeric reading))
  | @marks _ _ _ _ b _ _ reading _ confining =>
    exact mentions_setRange_isNumeric (f := f.markUnreachable b)
      (noted confining (rangeRead_isNumeric reading))
  | computes _ computed =>
    exact mentions_setRange_isNumeric fun r same => rangeOf_isNumeric (same ▸ computed)

/-- Only the given values have symbolic bounds. -/
def SymbolicOnly (f : Procedure) (these : ValueId → Prop) : Prop :=
  ∀ v r, f.range? v = some r → r.IsNumeric ∨ these v

/-- Bringing a range up to date gives no value symbolic bounds. -/
theorem SymbolicOnly.refresh {these : ValueId → Prop} (symbolic : f.SymbolicOnly these)
    (h : f.refresh g v = .ok f') : f'.SymbolicOnly these := by
  intro w r known
  rcases r.isNumeric_or_mentions with numeric | ⟨id, mentions⟩
  · exact .inl numeric
  · obtain ⟨-, old, known, mentioned⟩ := (mentions_refresh h).mp ⟨r, known, mentions⟩
    exact .inr ((symbolic w old known).resolve_left fun numeric => numeric.not_mentions id mentioned)

end Procedure

namespace Pass

open Procedure

variable {p q : Pass} {g : FlowGraph} {merge : Option Bool} {v : ValueId} {widening : Bool} {f : Procedure}
  {id : Nat}

/-- Enlarging a loop phi leaves the code alone. -/
theorem mergePhi_sameCode (h : p.mergePhi g widening v = .ok q) :
    SameCode p.procedure q.procedure := by
  obtain ⟨value, -, h⟩ := bind_eq_ok.mp h
  split at h
  · obtain ⟨inputs, -, h⟩ := bind_eq_ok.mp h
    cases inputs with
    | none => exact pure_eq_ok.mp h ▸ .refl
    | some inputs =>
      dsimp only at h
      split at h
      · obtain ⟨r, -, h⟩ := bind_eq_ok.mp h
        exact pure_eq_ok.mp h ▸ sameCode_setRange v _
      · obtain ⟨⟨merged, widened⟩, -, h⟩ := bind_eq_ok.mp h
        obtain ⟨⟨r, moved⟩, -, h⟩ := bind_eq_ok.mp h
        dsimp only at h
        cases moved with
        | true => exact pure_eq_ok.mp h ▸ sameCode_setRange v _
        | false => exact pure_eq_ok.mp h ▸ .refl
  · exact pure_eq_ok.mp h ▸ .refl

/-- Visiting a value leaves the code alone. -/
theorem visit_sameCode (h : p.visit g merge v = .ok q) :
    SameCode p.procedure q.procedure := by
  obtain ⟨carried, -, h⟩ := bind_eq_ok.mp h
  cases carried with
  | true =>
    cases merge with
    | some widening => exact mergePhi_sameCode h
    | none => exact pure_eq_ok.mp h ▸ .refl
  | false =>
    obtain ⟨f, refreshed, h⟩ := bind_eq_ok.mp h
    exact pure_eq_ok.mp h ▸ sameCode_refresh refreshed

/-- Visiting a block leaves the code alone. -/
theorem visitBlock_sameCode {b : BlockId} (h : p.visitBlock g merge b = .ok q) :
    SameCode p.procedure q.procedure := by
  obtain ⟨members, -, h⟩ := bind_eq_ok.mp h
  refine foldlM_invariant (fun q => SameCode p.procedure q.procedure)
    (fun v _ s t kept step => kept.trans (visit_sameCode step)) ?_ h
  dsimp only
  split
  · exact sameCode_markUnreachable b
  · exact .refl

/-- A pass leaves the code alone. -/
theorem run_sameCode (h : Pass.run g merge f = .ok q) :
    SameCode f q.procedure :=
  foldlM_invariant (fun q => SameCode f q.procedure)
    (fun _ _ _ _ kept step => kept.trans (visitBlock_sameCode step)) sameCode_clearMarks h

/-- Enlarging a loop phi gives no value a symbolic bound: the phi keeps those that it has. -/
theorem mentions_of_mergePhi {v w : ValueId} (h : p.mergePhi g widening v = .ok q)
    (mentions : q.procedure.Mentions w id) :
    p.procedure.Mentions w id := by
  obtain ⟨value, found, h⟩ := bind_eq_ok.mp h
  split at h
  · obtain ⟨inputs, joining, h⟩ := bind_eq_ok.mp h
    cases inputs with
    | none => exact pure_eq_ok.mp h ▸ mentions
    | some inputs =>
      have numeric := inputRange_isNumeric (by simp) joining
      dsimp only at h
      split at h
      · obtain ⟨r, confining, h⟩ := bind_eq_ok.mp h
        obtain rfl := pure_eq_ok.mp h
        refine ((mentions_setRange_isNumeric fun t same => ?_).mp mentions).2
        exact Option.some.inj same ▸ Value.confine_isNumeric confining numeric
      · next old had =>
        obtain ⟨⟨merged, widened⟩, -, h⟩ := bind_eq_ok.mp h
        obtain ⟨⟨r, moved⟩, updating, h⟩ := bind_eq_ok.mp h
        dsimp only at h
        cases moved with
        | true =>
          obtain rfl := pure_eq_ok.mp h
          by_cases own : w = v
          · subst own
            obtain ⟨t, same, mentioned⟩ := mentions.of_setRange
            obtain rfl := Option.some.inj same
            -- The phi keeps its own symbolic bounds, whatever its inputs have.
            have kept := Range.update_symbolic updating
            rw [Range.Mentions, kept.1, kept.2] at mentioned
            exact ⟨old, (range?_of_value (value_eq_ok.mp found)).trans had, mentioned⟩
          · exact (mentions_setRange_of_ne own).mp mentions
        | false =>
          obtain rfl := pure_eq_ok.mp h
          exact mentions
  · exact pure_eq_ok.mp h ▸ mentions

/-- Visiting a value gives no value a symbolic bound. -/
theorem mentions_of_visit {v w : ValueId} (h : p.visit g merge v = .ok q)
    (mentions : q.procedure.Mentions w id) :
    p.procedure.Mentions w id := by
  obtain ⟨carried, -, h⟩ := bind_eq_ok.mp h
  cases carried with
  | true =>
    cases merge with
    | some widening => exact mentions_of_mergePhi h mentions
    | none => exact pure_eq_ok.mp h ▸ mentions
  | false =>
    obtain ⟨f, refreshed, h⟩ := bind_eq_ok.mp h
    obtain rfl := pure_eq_ok.mp h
    exact ((mentions_refresh refreshed).mp mentions).2

/-- A pass gives no value a symbolic bound. -/
theorem mentions_of_run (h : Pass.run g merge f = .ok q) :
    q.procedure.Mentions v id → f.Mentions v id := by
  refine foldlM_invariant (fun q => q.procedure.Mentions v id → f.Mentions v id)
    (fun b _ p q kept step => ?_) (fun mentions => mentions) h
  obtain ⟨members, -, step⟩ := bind_eq_ok.mp step
  refine foldlM_invariant (fun q => q.procedure.Mentions v id → f.Mentions v id)
    (fun w _ p q kept step => fun mentions => kept (mentions_of_visit step mentions)) ?_ step
  dsimp only
  split
  · exact kept
  · exact kept

end Pass

namespace Session

open Procedure

variable {s t : Session} {e : Option AnalysisError}

/-- A session is as before except for ranges, marks and statistics. -/
structure SameWork (s t : Session) : Prop where
  code : SameCode s.procedure t.procedure
  graph : t.graph = s.graph
  loops : t.loops = s.loops
  config : t.config = s.config
  arena : t.arena = s.arena

/-- Nothing was worked on. -/
theorem SameWork.refl : SameWork s s := ⟨.refl, rfl, rfl, rfl, rfl⟩

/-- Two stretches of the same work. -/
theorem SameWork.trans {u : Session} (h : SameWork s t) (h' : SameWork t u) : SameWork s u :=
  ⟨h.code.trans h'.code, h'.graph.trans h.graph, h'.loops.trans h.loops, h'.config.trans h.config,
    h'.arena.trans h.arena⟩

/-- A pass changes ranges, marks and statistics only. -/
theorem pass_sameWork {merge : Option Bool} {changed : Bool} (h : s.pass merge = .ok (t, changed)) :
    SameWork s t := by
  obtain ⟨p, ran, h⟩ := bind_eq_ok.mp h
  obtain ⟨rfl, -⟩ := Prod.mk.inj (pure_eq_ok.mp h)
  exact ⟨Pass.run_sameCode ran, rfl, rfl, rfl, rfl⟩

/-- Repeated passes change ranges, marks and statistics only, and give up for no other reason than
that they do not converge. -/
theorem converge_sameWork {left number : Nat} (h : converge left number s = .ok (t, e)) :
    SameWork s t ∧ ∀ r ∈ e, ∃ passes, r = .notConverged passes := by
  induction left generalizing number s with
  | zero =>
    obtain ⟨rfl, rfl⟩ := Prod.mk.inj (Except.ok.inj h)
    exact ⟨.refl, fun r hr => ⟨_, (Option.mem_some.mp hr).symm⟩⟩
  | succ left ih =>
    obtain ⟨⟨u, changed⟩, first, h⟩ := bind_eq_ok.mp h
    have same := pass_sameWork first
    cases changed with
    | true =>
      obtain ⟨rest, reason⟩ := ih h
      exact ⟨same.trans rest, reason⟩
    | false =>
      obtain ⟨rfl, rfl⟩ := Prod.mk.inj (pure_eq_ok.mp h)
      exact ⟨same.trans ⟨.refl, rfl, rfl, rfl, rfl⟩, by simp⟩

/-- The ranges of a fixed point have no symbolic bounds. -/
theorem not_mentions_of_fixedPoint {v : ValueId} {id : Nat} (h : s.fixedPoint = .ok (t, e)) :
    ¬t.procedure.Mentions v id := by
  have passes : ∀ {left number : Nat} {s : Session}, converge left number s = .ok (t, e) →
      t.procedure.Mentions v id → s.procedure.Mentions v id := by
    intro left
    induction left with
    | zero =>
      intro number s run mentions
      exact (Prod.mk.inj (Except.ok.inj run)).1 ▸ mentions
    | succ left ih =>
      intro number s run mentions
      obtain ⟨⟨u, changed⟩, first, run⟩ := bind_eq_ok.mp run
      obtain ⟨p, ran, first⟩ := bind_eq_ok.mp first
      obtain ⟨rfl, rfl⟩ := Prod.mk.inj (pure_eq_ok.mp first)
      refine Pass.mentions_of_run ran ?_
      dsimp only at run
      split at run
      · exact ih run mentions
      · obtain ⟨rfl, -⟩ := Prod.mk.inj (pure_eq_ok.mp run)
        exact mentions
  intro mentions
  obtain ⟨r, known, -⟩ := passes h mentions
  rw [range?_clearRanges] at known
  cases known

/-- The fixed point changes ranges, marks and statistics only. -/
theorem fixedPoint_sameWork (h : s.fixedPoint = .ok (t, e)) :
    SameWork s t ∧ ∀ r ∈ e, ∃ passes, r = .notConverged passes := by
  obtain ⟨same, reason⟩ := converge_sameWork h
  have cleared : SameWork s { s with procedure := s.procedure.clearRanges } :=
    ⟨sameCode_clearRanges, rfl, rfl, rfl, rfl⟩
  exact ⟨cleared.trans same, reason⟩

end Session

end Rangefinder
