import Rangefinder.Proofs.Analysis.NormalRanges
import Rangefinder.Proofs.Procedure.Renaming
import Rangefinder.Proofs.Stages.Pipeline

/-!
# The passes converge

Once the passes widen, a loop phi that changes gives up a part of its range for good, and there are
five parts to give up: two bounds, two steps of the exponent and integrality. With its first range a
loop phi changes at most six times, so the number of passes until no loop phi changes is bounded by
the number of loop phis.

The other values need not move in one direction from pass to pass, and nothing is said about them.
What makes the parts of a loop phi last is that it is merged with its own old range: it never loses
a number that it had.
-/

namespace Rangefinder

namespace Procedure

variable {f f' f'' : Procedure} {g : FlowGraph} {v : ValueId} {vs : List ValueId}

/-- The phis in the blocks of a procedure that take part in a loop. -/
def loopPhis (f : Procedure) (g : FlowGraph) : List ValueId :=
  f.listed.filter fun v => decide (f.isLoopCarried g v = .ok true)

/-- How far a value has come: it starts without a range, and then gives up part after part. -/
def advance (f : Procedure) (v : ValueId) : Nat :=
  match f.range? v, f.type? v with
  | some r, some type => r.givenUp type + 1
  | _, _ => 0

/-- How far some values have come together. -/
def progress (f : Procedure) : List ValueId → Nat
  | [] => 0
  | v :: rest => f.advance v + f.progress rest

/-- Which phis are carried. -/
theorem mem_loopPhis : v ∈ f.loopPhis g ↔ v ∈ f.listed ∧ f.isLoopCarried g v = .ok true := by
  rw [loopPhis, List.mem_filter, decide_eq_true_iff]

/-- A phi advances at most six times. -/
theorem advance_le (f : Procedure) (v : ValueId) : f.advance v ≤ 6 := by
  rw [advance]
  split
  · next r type _ _ =>
    have := r.givenUp_le type
    omega
  · omega

/-- So progress is bounded. -/
theorem progress_le (f : Procedure) (vs : List ValueId) : f.progress vs ≤ 6 * vs.length := by
  induction vs with
  | nil => exact Nat.zero_le _
  | cons v rest ih =>
    have := f.advance_le v
    rw [progress, List.length_cons]
    omega

/-- Progress is monotone. -/
theorem progress_mono (le : ∀ v ∈ vs, f.advance v ≤ f'.advance v) :
    f.progress vs ≤ f'.progress vs := by
  induction vs with
  | nil => exact le_rfl
  | cons v rest ih =>
    rw [List.forall_mem_cons] at le
    exact Nat.add_le_add le.1 (ih le.2)

/-- One advance is progress. -/
theorem progress_lt (le : ∀ v ∈ vs, f.advance v ≤ f'.advance v)
    (lt : ∃ v ∈ vs, f.advance v < f'.advance v) : f.progress vs < f'.progress vs := by
  induction vs with
  | nil => simp at lt
  | cons v rest ih =>
    rw [List.forall_mem_cons] at le
    rw [List.exists_mem_cons_iff] at lt
    rw [progress, progress]
    rcases lt with lt | lt
    · exact Nat.add_lt_add_of_lt_of_le lt (progress_mono le.2)
    · exact Nat.add_lt_add_of_le_of_lt le.1 (ih le.2 lt)

/-- Whether a value is a loop phi is a matter of the code. -/
theorem SameCode.isLoopCarried (same : SameCode f f') (v : ValueId) :
    f'.isLoopCarried g v = f.isLoopCarried g v := by
  rw [Procedure.isLoopCarried, Procedure.isLoopCarried, Procedure.value, Procedure.value]
  rcases same.value? v with ⟨absent, absent'⟩ | ⟨value, range, found, found'⟩
  · rw [absent, absent']
  · rw [found, found']
    rfl

/-- Notes keep the list of values. -/
theorem SameCode.listed (same : SameCode f f') : f'.listed = f.listed := by
  have blocks : f'.blocks.map Block.code = f.blocks.map Block.code :=
    Array.ext_getElem? fun b => by rw [Array.getElem?_map, Array.getElem?_map, same.blocks]
  have view : ∀ f : Procedure,
      f.listed = (f.blocks.map Block.code).toList.flatMap Block.members := by
    intro f
    rw [Array.toList_map, List.flatMap_map]
    rfl
  rw [view f', blocks, ← view]

/-- Notes keep the carried phis. -/
theorem SameCode.loopPhis (same : SameCode f f') : f'.loopPhis g = f.loopPhis g := by
  rw [Procedure.loopPhis, Procedure.loopPhis, same.listed]
  exact List.filter_congr fun v _ => by rw [same.isLoopCarried]

/-- The range decides the advance. -/
theorem SameCode.advance (same : SameCode f f') (range : f'.range? v = f.range? v) :
    f'.advance v = f.advance v := by
  rw [Procedure.advance, Procedure.advance, range, same.type?]

/-- Every loop phi has kept its range or has come further. -/
def Advances (g : FlowGraph) (f f' : Procedure) : Prop :=
  ∀ v, f.isLoopCarried g v = .ok true → f'.range? v = f.range? v ∨ f.advance v < f'.advance v

namespace Advances

/-- Advances do not fall. -/
theorem le (h : Advances g f f') (same : SameCode f f')
    (carried : f.isLoopCarried g v = .ok true) : f.advance v ≤ f'.advance v := by
  rcases h v carried with range | lt
  · exact (same.advance range).ge
  · exact lt.le

/-- Advancing twice. -/
theorem trans (h : Advances g f f') (h' : Advances g f' f'') (same : SameCode f f')
    (same' : SameCode f' f'') : Advances g f f'' := by
  intro v carried
  have carried' : f'.isLoopCarried g v = .ok true := (same.isLoopCarried v).trans carried
  rcases h' v carried' with range' | lt
  · rcases h v carried with range | lt
    · exact .inl (range'.trans range)
    · exact .inr (lt.trans_eq (same'.advance range').symm)
  · exact .inr ((h.le same carried).trans_lt lt)

end Advances

/-- It can be told whether a value that exists is a loop phi, and then it is a phi. -/
theorem isLoopCarried_yields (present : v < f.values.size) :
    Yields (f.isLoopCarried g v) fun carried => carried = true → f.isPhi v = true := by
  refine (value_yields present).bind fun value found => ?_
  split
  · next phi =>
    have isPhi : f.isPhi v = true := (isPhi_eq (opcode?_of_value found)).trans phi
    split
    · exact .ok fun _ => isPhi
    · exact .ok fun _ => isPhi
  · exact .ok (by simp)

end Procedure

namespace Pass

open Procedure

variable {g : FlowGraph} {p q r : Pass} {v : ValueId} {merge : Option Bool} {widening : Bool}
  {value : Value} {range : Range}

/-- What merging a loop phi can do: nothing as long as no input has a range, give the phi its first
range, enlarge its range, or find that it is large enough. -/
inductive Merged (g : FlowGraph) (widening : Bool) (p : Pass) (v : ValueId) (value : Value)
    (inputs : Option Range) : Pass → Prop
  | waits : inputs = none → Merged g widening p v value inputs p
  | begins {r : Range} : value.range = none → PhiRange value.type r →
    Merged g widening p v value inputs
      { p with procedure := p.procedure.setRange v (some r), changed := true }
  | grows {old new r : Range} {count : Nat} : value.range = some old → inputs = some new →
    Grown value.type widening old new r → r.numeric ≠ old.numeric →
    Merged g widening p v value inputs ⟨p.procedure.setRange v (some r), count, true⟩
  | stays {old new : Range} {count : Nat} : value.range = some old → inputs = some new →
    Grown value.type widening old new old →
    Merged g widening p v value inputs { p with widened := count }

/-- Merging a phi succeeds. -/
theorem mergePhi_yields {phis : List (ValueId × BlockId)} (s : p.procedure.Structured)
    (h : p.procedure.NormalRanges) (found : p.procedure.values[v]? = some value)
    (code : value.opcode = .phi phis) :
    ∃ inputs q, p.procedure.inputRange g phis none = .ok inputs ∧
      p.mergePhi g widening v = .ok q ∧ Merged g widening p v value inputs q := by
  have opcode : p.procedure.opcode? v = some (.phi phis) := code ▸ opcode?_of_value found
  have isPhi : p.procedure.isPhi v = true := isPhi_eq opcode
  have exist : ∀ i ∈ phis, i.1 < p.procedure.values.size := fun i hi =>
    s.operands v _ opcode i.1 (List.mem_map_of_mem hi)
  have joined : Yields (p.procedure.inputRange g phis none) fun inputs => ∀ r ∈ inputs, r.Normal :=
    inputRange_yields h.normal exist
  obtain ⟨inputs, joining, normal⟩ := joined
  refine ⟨inputs, ?_⟩
  suffices merged : Yields (p.mergePhi g widening v) (Merged g widening p v value inputs) by
    obtain ⟨q, run, merged⟩ := merged
    exact ⟨q, joining, run, merged⟩
  rw [mergePhi, value_eq_ok.mpr found, ok_bind, code]
  dsimp only
  rw [joining, ok_bind]
  cases inputs with
  | none => exact .ok (.waits rfl)
  | some new =>
    dsimp only
    cases range : value.range with
    | none =>
      refine (value.confine_yields (normal new rfl)).bind fun r confined => .ok ?_
      exact .begins range (confined.2 (by rw [code]; rfl))
    | some old =>
      have phi : PhiRange value.type old :=
        h.phis v _ old isPhi (type?_of_value found) ((range?_of_value found).trans range)
      refine (grow_yields phi (normal new rfl)).bind ?_
      rintro ⟨merged, widened⟩ grown
      obtain ⟨⟨r, moved⟩, updating, -⟩ := Range.update_yields phi.normal grown.phi.normal
      obtain ⟨same, differ, kept⟩ := Range.update_numeric updating
      dsimp only
      rw [updating]
      cases moved with
      | true => exact .ok (.grows range rfl (grown.of_numeric same) (by rw [same]; exact differ rfl))
      | false =>
        obtain rfl := kept rfl
        exact .ok (.stays range rfl (grown.of_numeric same))

/-- What a part of a pass does: the code stays and the ranges are as they should be. With widening
every loop phi keeps its range or comes further, and if one is said to have changed, one has come
further. -/
structure Leads (g : FlowGraph) (merge : Option Bool) (p q : Pass) : Prop where
  code : SameCode p.procedure q.procedure
  ranges : q.procedure.NormalRanges
  advances : merge = some true → Advances g p.procedure q.procedure
  changed : merge = some true → q.changed = true → p.changed = true ∨
    ∃ v ∈ p.procedure.loopPhis g, p.procedure.advance v < q.procedure.advance v

namespace Leads

/-- Something that leaves all ranges alone. -/
theorem of_ranges (code : SameCode p.procedure q.procedure)
    (ranges : ∀ v, q.procedure.range? v = p.procedure.range? v) (changed : q.changed = p.changed)
    (h : p.procedure.NormalRanges) : Leads g merge p q :=
  ⟨code, h.of_sameCode code ranges, fun _ v _ => .inl (ranges v),
    fun _ moved => .inl (changed ▸ moved)⟩

/-- Leading on twice. -/
theorem trans (h : Leads g merge p q) (h' : Leads g merge q r) : Leads g merge p r := by
  refine ⟨h.code.trans h'.code, h'.ranges, fun widening => ?_, fun widening moved => ?_⟩
  · exact (h.advances widening).trans (h'.advances widening) h.code h'.code
  · have le : ∀ v ∈ p.procedure.loopPhis g,
        q.procedure.advance v ≤ r.procedure.advance v := fun v mem =>
      (h'.advances widening).le h'.code ((h.code.isLoopCarried v).trans (mem_loopPhis.mp mem).2)
    rcases h'.changed widening moved with before | ⟨v, mem, lt⟩
    · exact (h.changed widening before).imp_right fun ⟨v, mem, lt⟩ =>
        ⟨v, mem, lt.trans_le (le v mem)⟩
    · rw [h.code.loopPhis] at mem
      have carried := (mem_loopPhis.mp mem).2
      exact .inr ⟨v, mem, ((h.advances widening).le h.code carried).trans_lt lt⟩

/-- Something that only gives a loop phi a range with which it has come further. -/
theorem of_setRange {count : Nat} (h : p.procedure.NormalRanges)
    (found : p.procedure.values[v]? = some value) (phi : PhiRange value.type range)
    (mem : v ∈ p.procedure.loopPhis g)
    (further : merge = some true →
      p.procedure.advance v < (p.procedure.setRange v (some range)).advance v) :
    Leads g merge p ⟨p.procedure.setRange v (some range), count, true⟩ := by
  refine ⟨sameCode_setRange v _, h.setConfined found ⟨phi.normal, fun _ => phi⟩,
    fun widening w carried => ?_, fun widening _ => .inr ⟨v, mem, further widening⟩⟩
  by_cases own : w = v
  · exact .inr (own ▸ further widening)
  · refine .inl ?_
    dsimp only
    rw [range?_setRange, if_neg own]

end Leads

/-- A new range sets the advance. -/
theorem advance_setRange {f : Procedure} (found : f.values[v]? = some value) :
    (f.setRange v (some range)).advance v = range.givenUp value.type + 1 := by
  have typed : (f.setRange v (some range)).type? v = some value.type :=
    ((sameCode_setRange v _).type? v).trans (type?_of_value found)
  rw [advance, range?_setRange, if_pos rfl, found, typed]
  rfl

/-- A merge leads on. -/
theorem Merged.leads {inputs : Option Range} (merged : Merged g widening p v value inputs q)
    (h : p.procedure.NormalRanges) (found : p.procedure.values[v]? = some value)
    (mem : v ∈ p.procedure.loopPhis g) :
    Leads g (some widening) p q := by
  have came : p.procedure.advance v =
      value.range.elim 0 fun old => old.givenUp value.type + 1 := by
    rw [advance, range?_of_value found, type?_of_value found]
    cases value.range <;> rfl
  cases merged with
  | waits => exact .of_ranges .refl (fun _ => rfl) rfl h
  | begins range phi =>
    refine .of_setRange h found phi mem fun _ => ?_
    rw [advance_setRange found, came, range]
    exact Nat.succ_pos _
  | grows range _ grown differ =>
    refine .of_setRange h found grown.phi mem fun widens => ?_
    rw [advance_setRange found, came, range]
    exact Nat.succ_lt_succ ((grown.progress (Option.some.inj widens)).resolve_left differ)
  | stays => exact .of_ranges .refl (fun _ => rfl) rfl h

/-- Visiting a value succeeds. -/
theorem visit_yields (s : p.procedure.Structured) (refined : p.procedure.NormalRefinements)
    (h : p.procedure.NormalRanges) (listed : v ∈ p.procedure.listed) :
    Yields (p.visit g merge v) (Leads g merge p) := by
  obtain ⟨b, member⟩ := mem_listed.mp listed
  have home := s.home_of_mem member
  have present : b < p.procedure.blocks.size := by
    by_contra absent
    simp [membersAt, phisAt, instrsAt, absent] at member
  obtain ⟨carried, telling, phi⟩ := isLoopCarried_yields (g := g) (lt_size_of_home? home)
  show Yields (p.procedure.isLoopCarried g v >>= _) _
  rw [telling]
  cases carried with
  | true =>
    cases merge with
    | none => exact .ok (.of_ranges .refl (fun _ => rfl) rfl h)
    | some widening =>
      obtain ⟨value, -, found⟩ := value_yields (lt_size_of_home? home)
      obtain ⟨phis, code⟩ : ∃ phis, value.opcode = .phi phis := by
        have isPhi := phi rfl
        rw [isPhi_eq (opcode?_of_value found)] at isPhi
        cases code : value.opcode <;> simp [code, Opcode.isPhi] at isPhi ⊢
      obtain ⟨inputs, q, -, run, merged⟩ := mergePhi_yields s h found code
      exact ⟨q, run, merged.leads h found (mem_loopPhis.mpr ⟨listed, telling⟩)⟩
  | false =>
    obtain ⟨f, run, ranges, others⟩ := refresh_yields h (g := g) s refined home present
    show Yields (p.procedure.refresh g v >>= _) _
    rw [run]
    have same := sameCode_refresh run
    refine .ok ⟨same, ranges, fun _ w loop => .inl (others w fun own => ?_), fun _ => .inl⟩
    rw [own, telling] at loop
    cases loop

end Pass

namespace Session

open Procedure

variable {s t : Session} {f : Procedure} {merge : Option Bool} {v : ValueId}

/-- What passes over the procedure of a session need. -/
structure Ready (s : Session) : Prop where
  structured : s.procedure.Structured
  refined : s.procedure.NormalRefinements
  inBounds : ∀ b ∈ s.graph.order, b < s.procedure.blocks.size

/-- What the passes make of the procedure of a session on their way: it starts without ranges, marks
are set and taken away, and listed values are visited, in whatever order. -/
inductive Meets (s : Session) : Procedure → Prop
  | start : s.Meets s.procedure.clearRanges
  | unmark {f : Procedure} : s.Meets f → s.Meets f.clearMarks
  | mark {f : Procedure} (b : BlockId) : s.Meets f → s.Meets (f.markUnreachable b)
  | visit {p q : Pass} {merge : Option Bool} {v : ValueId} : s.Meets p.procedure →
    v ∈ s.procedure.listed → p.visit s.graph merge v = .ok q → s.Meets q.procedure

/-- On the way the code stays and the ranges are as they should be. -/
theorem Meets.legal (met : s.Meets f) (ready : s.Ready) :
    SameCode s.procedure f ∧ f.NormalRanges := by
  induction met with
  | start => exact ⟨sameCode_clearRanges, clearRanges_normalRanges⟩
  | unmark _ ih =>
    exact ⟨ih.1.trans sameCode_clearMarks, ih.2.of_sameCode sameCode_clearMarks fun _ => rfl⟩
  | mark b _ ih =>
    exact ⟨ih.1.trans (sameCode_markUnreachable b),
      ih.2.of_sameCode (sameCode_markUnreachable b) fun _ => rfl⟩
  | @visit p q merge v _ listed run ih =>
    obtain ⟨same, ranges⟩ := ih
    have leads := (Pass.visit_yields (same.structured ready.structured)
      (ready.refined.of_sameCode same) ranges (same.listed ▸ listed)).of_eq run
    exact ⟨same.trans leads.code, leads.ranges⟩

/-- A pass over a procedure that passes have come by succeeds. -/
theorem run_yields (ready : s.Ready) (met : s.Meets f) :
    Yields (Pass.run s.graph merge f) fun q =>
      s.Meets q.procedure ∧ Pass.Leads s.graph merge ⟨f, 0, false⟩ q := by
  refine foldlM_yields
    (fun q : Pass => s.Meets q.procedure ∧ Pass.Leads s.graph merge ⟨f, 0, false⟩ q)
    (fun b hb p ⟨met, leads⟩ => ?_)
    ⟨met.unmark, .of_ranges sameCode_clearMarks (fun _ => rfl) rfl (met.legal ready).2⟩
  have entered : ∃ f', (if p.procedure.isDead s.graph b then p.procedure.markUnreachable b
      else p.procedure) = f' ∧ s.Meets f' ∧
      Pass.Leads s.graph merge ⟨f, 0, false⟩ { p with procedure := f' } := by
    split
    · have marked : Pass.Leads s.graph merge p
          { p with procedure := p.procedure.markUnreachable b } :=
        .of_ranges (sameCode_markUnreachable b) (fun _ => rfl) rfl leads.ranges
      exact ⟨_, rfl, met.mark b, leads.trans marked⟩
    · exact ⟨_, rfl, met, leads⟩
  obtain ⟨f', own, met, leads⟩ := entered
  have same := (met.legal ready).1
  have present : b < f'.blocks.size := same.layout.flow.size ▸ ready.inBounds b hb
  rw [Pass.visitBlock, own, members_eq present]
  refine foldlM_yields
    (fun q : Pass => s.Meets q.procedure ∧ Pass.Leads s.graph merge ⟨f, 0, false⟩ q)
    (fun v hv p ⟨met, leads⟩ => ?_) ⟨met, leads⟩
  have listed : v ∈ s.procedure.listed :=
    mem_listed.mpr ⟨b, same.layout.membersAt b ▸ hv⟩
  obtain ⟨same, ranges⟩ := met.legal ready
  have step : Yields (p.visit s.graph merge v) (Pass.Leads s.graph merge p) :=
    Pass.visit_yields (same.structured ready.structured) (ready.refined.of_sameCode same) ranges
      (same.listed ▸ listed)
  obtain ⟨q, run, step⟩ := step
  exact ⟨q, run, met.visit listed run, leads.trans step⟩

/-- A pass in a session succeeds. -/
theorem pass_yields (ready : s.Ready) (met : s.Meets t.procedure) (same : s.SameWork t) :
    Yields (t.pass merge) fun result =>
      s.Meets result.1.procedure ∧ s.SameWork result.1 ∧
        Pass.Leads s.graph merge ⟨t.procedure, 0, false⟩ ⟨result.1.procedure, 0, result.2⟩ := by
  obtain ⟨q, run, met, leads⟩ := run_yields ready met
  have passed : t.pass merge = .ok ({ t with
      procedure := q.procedure
      stats := { t.stats with widenedPhis := t.stats.widenedPhis + q.widened } }, q.changed) := by
    rw [pass, same.graph, run]
    rfl
  exact ⟨_, passed, met, same.trans (pass_sameWork passed),
    leads.code, leads.ranges, leads.advances, leads.changed⟩

/-- The session after the first so many passes. -/
def afterPasses (s : Session) : Nat → Except Fault Session
  | 0 => .ok { s with procedure := s.procedure.clearRanges }
  | n + 1 => do
    let t ← s.afterPasses n
    let (t, _) ← t.pass (some (decide (s.config.widenAfter < n + 1)))
    return t

/-- Any number of passes succeeds. -/
theorem afterPasses_yields (ready : s.Ready) (n : Nat) :
    Yields (s.afterPasses n) fun t => s.Meets t.procedure ∧ s.SameWork t := by
  induction n with
  | zero => exact .ok ⟨.start, sameCode_clearRanges, rfl, rfl, rfl, rfl⟩
  | succ n ih =>
    refine ih.bind fun t ⟨met, same⟩ => ?_
    exact (pass_yields ready met same).bind fun result ⟨met, same, _⟩ => .ok ⟨met, same⟩

/-- The pass after the first so many ones. -/
theorem afterPasses_succ (ready : s.Ready) {n : Nat} (first : s.afterPasses n = .ok t) :
    ∃ u changed, t.pass (some (decide (s.config.widenAfter < n + 1))) = .ok (u, changed) ∧
      s.afterPasses (n + 1) = .ok u ∧
      Pass.Leads s.graph (some (decide (s.config.widenAfter < n + 1))) ⟨t.procedure, 0, false⟩
        ⟨u.procedure, 0, changed⟩ := by
  obtain ⟨met, same⟩ := (afterPasses_yields ready n).of_eq first
  obtain ⟨⟨u, changed⟩, passed, -, -, leads⟩ :=
    @pass_yields s t (some (decide (s.config.widenAfter < n + 1))) ready met same
  refine ⟨u, changed, passed, ?_, leads⟩
  rw [afterPasses, first]
  show (t.pass _ >>= _) = _
  rw [passed]
  rfl

/-- The loop phis have come further after a pass that widens and changes one of them. -/
theorem progress_of_leads {f' : Procedure} {n : Nat} {changed : Bool}
    (leads : Pass.Leads s.graph (some true) ⟨f, 0, false⟩ ⟨f', n, changed⟩)
    (moved : changed = true) : f.progress (f.loopPhis s.graph) < f'.progress (f.loopPhis s.graph) := by
  have le : ∀ v ∈ f.loopPhis s.graph, f.advance v ≤ f'.advance v := fun v mem =>
    (leads.advances rfl).le leads.code (mem_loopPhis.mp mem).2
  refine progress_lt le ?_
  rcases leads.changed rfl moved with before | further
  · cases before
  · exact further

/-- The passes end if enough of them are left: each one that widens and changes a loop phi takes the
loop phis further, and they can only come so far. -/
theorem converge_yields (ready : s.Ready) {left n : Nat} (first : s.afterPasses n = .ok t)
    (early : n ≤ s.config.widenAfter + t.procedure.progress (s.procedure.loopPhis s.graph))
    (enough : s.config.widenAfter + 6 * (s.procedure.loopPhis s.graph).length < n + left) :
    ∃ k last u, k ≤ s.config.widenAfter + 6 * (s.procedure.loopPhis s.graph).length + 1 ∧
      s.afterPasses k = .ok last ∧ converge left (n + 1) t = .ok (u, none) ∧
      u.procedure = last.procedure := by
  -- The passes so far are those that did not widen, and one for each step of the loop phis at most.
  have bound := t.procedure.progress_le (s.procedure.loopPhis s.graph)
  induction left generalizing n t with
  | zero => omega
  | succ left ih =>
    have same := ((afterPasses_yields ready n).of_eq first).2
    obtain ⟨u, changed, passed, next, leads⟩ := afterPasses_succ ready first
    rw [converge, same.config, passed]
    cases changed with
    | false => exact ⟨n + 1, u, _, by omega, next, rfl, rfl⟩
    | true =>
      refine ih next ?_ (by omega) (u.procedure.progress_le _)
      by_cases widens : s.config.widenAfter < n + 1
      · rw [decide_eq_true widens] at leads
        have further := progress_of_leads leads rfl
        rw [same.code.loopPhis] at further
        omega
      · omega

/-- The range of a value after the first so many passes. -/
def rangeAfter (s : Session) (n : Nat) (v : ValueId) : Option Range :=
  match s.afterPasses n with
  | .ok t => t.procedure.range? v
  | .error _ => none

/-- How many of the first so many passes widen and change the range of a value. -/
def widenedChanges (s : Session) (v : ValueId) (n : Nat) : Nat :=
  (List.range n).countP fun i =>
    decide (s.config.widenAfter ≤ i ∧ s.rangeAfter (i + 1) v ≠ s.rangeAfter i v)

/-- A loop phi has come at least as far as the number of times that it changed while passes widened. -/
theorem widenedChanges_le (ready : s.Ready) (carried : s.procedure.isLoopCarried s.graph v = .ok true)
    (n : Nat) :
    (n ≤ s.config.widenAfter → s.widenedChanges v n = 0) ∧
      Yields (s.afterPasses n) fun t => s.widenedChanges v n ≤ t.procedure.advance v := by
  induction n with
  | zero =>
    obtain ⟨t, first, -⟩ := afterPasses_yields ready 0
    exact ⟨fun _ => rfl, t, first, Nat.zero_le _⟩
  | succ n ih =>
    obtain ⟨none, t, first, le⟩ := ih
    have same := ((afterPasses_yields ready n).of_eq first).2
    obtain ⟨u, changed, passed, next, leads⟩ := afterPasses_succ ready first
    have count : s.widenedChanges v (n + 1) = s.widenedChanges v n +
        if s.config.widenAfter ≤ n ∧ u.procedure.range? v ≠ t.procedure.range? v then 1 else 0 := by
      have before : s.rangeAfter n v = t.procedure.range? v := by rw [rangeAfter, first]
      have after : s.rangeAfter (n + 1) v = u.procedure.range? v := by rw [rangeAfter, next]
      rw [widenedChanges, List.range_succ, List.countP_append, List.countP_singleton, before, after,
        widenedChanges]
      simp only [decide_eq_true_eq]
    refine ⟨fun early => ?_, u, next, ?_⟩
    · rw [count, none (by omega), if_neg (by omega)]
    · rw [count]
      by_cases widens : s.config.widenAfter < n + 1
      · rw [decide_eq_true widens] at leads
        rcases leads.advances rfl v ((same.code.isLoopCarried v).trans carried) with kept | further
        · rw [if_neg fun moved => moved.2 kept, leads.code.advance kept]
          exact le
        · dsimp only at further
          split <;> omega
      · rw [none (by omega), if_neg (by omega)]
        exact Nat.zero_le _

/-- A widened merge holds the old range of the phi and those of its inputs. -/
theorem Meets.merge_contains {p : Pass} {value : Value} {phis : List (ValueId × BlockId)}
    {old inputs : Range} (met : s.Meets p.procedure) (ready : s.Ready)
    (found : p.procedure.values[v]? = some value) (code : value.opcode = .phi phis)
    (range : value.range = some old)
    (joining : p.procedure.inputRange s.graph phis none = .ok (some inputs)) :
    ∃ q t confined, p.mergePhi s.graph true v = .ok q ∧ q.procedure.range? v = some t ∧
      Pass.confine value.type inputs = .ok confined ∧
      ∀ x, old.contains x = true ∨ confined.contains x = true → t.contains x = true := by
  obtain ⟨same, ranges⟩ := met.legal ready
  obtain ⟨inputs', q, joining', run, merged⟩ :=
    Pass.mergePhi_yields (same.structured ready.structured) ranges found code
  obtain rfl := Except.ok.inj (joining.symm.trans joining')
  obtain ⟨t, own, grown⟩ : ∃ t, q.procedure.range? v = some t ∧
      Pass.Grown value.type true old inputs t := by
    cases merged with
    | waits none => cases none
    | begins none =>
      rw [range] at none
      cases none
    | grows range' joined grown =>
      obtain rfl := Option.some.inj (range.symm.trans range')
      obtain rfl := Option.some.inj joined
      refine ⟨_, ?_, grown⟩
      rw [range?_setRange, if_pos rfl, found, Option.bind_some]
    | stays range' joined grown =>
      obtain rfl := Option.some.inj (range.symm.trans range')
      obtain rfl := Option.some.inj joined
      exact ⟨_, (range?_of_value found).trans range, grown⟩
  obtain ⟨confined, confining, within⟩ := grown.inputs_within
  have valid := grown.phi.normal.isExponent
  exact ⟨q, t, confined, run, own, confining, fun x member =>
    member.elim (grown.old_within.contains valid) (within.contains valid)⟩

/-- What the verifier accepts is ready for passes. -/
theorem ready_of_verify (accepted : s.procedure.verify = .ok (.ok ()))
    (built : FlowGraph.build s.procedure = .ok s.graph)
    (refined : s.procedure.NormalRefinements) : s.Ready := by
  obtain ⟨-, g, built', wf⟩ := verify_eq_ok.mp accepted
  obtain rfl := Except.ok.inj (built.symm.trans built')
  have describes := FlowGraph.build_describes wf.structured.numbered wf.structured.entry built
  exact ⟨wf.structured, refined, describes.order.inBounds⟩

/-- The passes over an accepted procedure end within six of them for each loop phi after they begin to
widen, so that with as many passes allowed the iteration returns what its last pass has left, and the
analysis does not give up on convergence. Since they begin to widen, a loop phi changes six times at
most. On the way every merge that widens has a result, which holds the old range of the phi and those of
its inputs, confined to int32 for an int32 phi. Nothing is said of whether another pass would change what
is returned. -/
theorem fixedPoint_converges (accepted : s.procedure.verify = .ok (.ok ()))
    (built : FlowGraph.build s.procedure = .ok s.graph) (refined : s.procedure.NormalRefinements) :
    (s.config.widenAfter + 6 * (s.procedure.loopPhis s.graph).length + 1 ≤ s.config.maxIterations →
      (∃ k last t, k ≤ s.config.widenAfter + 6 * (s.procedure.loopPhis s.graph).length + 1 ∧
        s.afterPasses k = .ok last ∧ s.fixedPoint = .ok (t, none) ∧
        t.procedure = last.procedure) ∧
      ∀ t e, s.analyze = .ok (t, e) → ∀ passes, e ≠ some (.notConverged passes)) ∧
    (∀ v, s.procedure.isLoopCarried s.graph v = .ok true → ∀ n, s.widenedChanges v n ≤ 6) ∧
    (∀ n, ∃ t, s.afterPasses n = .ok t ∧ s.Meets t.procedure) ∧
    ∀ p : Pass, s.Meets p.procedure → ∀ v value phis old inputs,
      p.procedure.values[v]? = some value → value.opcode = .phi phis → value.range = some old →
      p.procedure.inputRange s.graph phis none = .ok (some inputs) →
      ∃ q t confined, p.mergePhi s.graph true v = .ok q ∧ q.procedure.range? v = some t ∧
        Pass.confine value.type inputs = .ok confined ∧
        ∀ x, old.contains x = true ∨ confined.contains x = true → t.contains x = true := by
  have ready := ready_of_verify accepted built refined
  refine ⟨fun allowed => ?_, fun v carried n => ?_, fun n => ?_,
    fun p met v value phis old inputs found code range joining =>
      met.merge_contains ready found code range joining⟩
  · obtain ⟨k, last, t, le, reached, fixed, same⟩ := converge_yields ready (n := 0) rfl
      (Nat.zero_le _) (show _ < 0 + s.config.maxIterations by omega)
    have fixed : s.fixedPoint = .ok (t, none) := fixed
    refine ⟨⟨k, last, t, le, reached, fixed, same⟩, fun u e run passes gaveUp => ?_⟩
    subst gaveUp
    rcases analyze_gaveUp run with early | ⟨_, _, _, capacity, other⟩
    · rw [fixed] at early
      cases early
    · cases other
  · obtain ⟨t, -, le⟩ := (widenedChanges_le ready carried n).2
    exact le.trans (t.procedure.advance_le v)
  · obtain ⟨t, reached, met, -⟩ := afterPasses_yields ready n
    exact ⟨t, reached, met⟩

/-- The loop that counts has one loop phi, and with its betas it satisfies the conditions. -/
theorem countingLoop_converges :
    ∃ s t, start Pipeline.countingLoop .standard = .ok s ∧ s.addBetas = .ok (t, none) ∧
      t.procedure.verify = .ok (.ok ()) ∧ FlowGraph.build t.procedure = .ok t.graph ∧
      t.procedure.NormalRefinements ∧ t.procedure.loopPhis t.graph = [5] ∧
      t.config.widenAfter + 6 * 1 + 1 ≤ t.config.maxIterations ∧
      (∃ u, t.fixedPoint = .ok (u, none)) ∧ ∀ n, t.widenedChanges 5 n ≤ 6 := by
  have computed : (do
      let s ← start Pipeline.countingLoop .standard
      let (t, _) ← s.addBetas
      return decide (t.procedure.NormalRefinements ∧ t.procedure.loopPhis t.graph = [5] ∧
        t.config.widenAfter + 6 * 1 + 1 ≤ t.config.maxIterations)) = Except.ok true := by
    decide +kernel
  obtain ⟨s, started, computed⟩ := bind_eq_ok.mp computed
  obtain ⟨⟨t, e⟩, placed, computed⟩ := bind_eq_ok.mp computed
  obtain ⟨refined, phis, allowed⟩ := of_decide_eq_true (pure_eq_ok.mp computed)
  have valid := (Pipeline.start_valid (by decide +kernel) (by decide +kernel) (by decide +kernel)
    started).1
  obtain ⟨kept, rfl⟩ := addBetas_valid valid placed
  have accepted := kept.valid.verify
  have built := kept.valid.built
  have carried : t.procedure.isLoopCarried t.graph 5 = .ok true :=
    (mem_loopPhis.mp (phis ▸ List.mem_singleton_self 5)).2
  have spec := fixedPoint_converges accepted built refined
  rw [phis] at spec
  obtain ⟨⟨⟨_, _, u, -, -, fixed, -⟩, -⟩, changes, -⟩ := And.intro (spec.1 allowed) spec.2
  exact ⟨s, t, started, placed, accepted, built, refined, phis, allowed, ⟨u, fixed⟩,
    changes 5 carried⟩

end Session

end Rangefinder
