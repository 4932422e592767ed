import Rangefinder.Proofs.Analysis.Passes
import Rangefinder.Proofs.Flow.DepthFirst
import Rangefinder.Proofs.Flow.Exactness
import Rangefinder.Proofs.Procedure.Schedule

/-!
# Sweeps in depth-first order

A pass of the analysis is one sweep: it comes to the reachable blocks in reverse postorder and visits
the members of each of them. The blocks are visited in a depth-first order, and the values in that of
the schedule, so an instruction is visited after its operands. The inputs of a phi come from the
predecessors of its block. Where all of these come before the block, the phi is visited after its
inputs; only the other phis, those of loops, meet inputs whose ranges are those of the pass before.
-/

namespace Rangefinder

open Procedure

namespace Pass

variable {f : Procedure} {g : FlowGraph} {merge : Option Bool}

/-- What a pass does next. -/
inductive Task where
  /-- It comes to a block. -/
  | reach (b : BlockId)
  /-- It visits a value. -/
  | visit (v : ValueId)

/-- Does one thing of a pass. -/
def perform (g : FlowGraph) (merge : Option Bool) (p : Pass) : Task → Except Fault Pass
  | .reach b =>
    .ok { p with
      procedure := if p.procedure.isDead g b then p.procedure.markUnreachable b else p.procedure }
  | .visit v => p.visit g merge v

/-- The tasks of a pass: to each block in its order belong its members in theirs. -/
def tasks (g : FlowGraph) (f : Procedure) : List Task :=
  g.order.flatMap fun b => .reach b :: (f.membersAt b).map .visit

/-- The value that a task visits. -/
def Task.visited? : Task → Option ValueId
  | reach _ => none
  | visit v => some v

/-- The tasks visit the values of the schedule. -/
theorem filterMap_tasks (g : FlowGraph) (f : Procedure) :
    (tasks g f).filterMap Task.visited? = g.schedule f := by
  rw [tasks, FlowGraph.schedule, List.filterMap_flatMap]
  congr 1
  funext b
  rw [List.filterMap_cons_none rfl, List.filterMap_map]
  exact List.filterMap_some

/-- Visits are performed by visiting. -/
theorem foldlM_visits (members : List ValueId) (p : Pass) :
    (members.map Task.visit).foldlM (perform g merge) p = members.foldlM (visit g merge) p := by
  induction members generalizing p with
  | nil => rfl
  | cons v members ih =>
    rw [List.map_cons, List.foldlM_cons, List.foldlM_cons]
    exact congrArg _ (funext ih)

/-- A block is visited by performing its tasks. -/
theorem visitBlock_eq {p : Pass} (same : SameCode f p.procedure) {b : BlockId}
    (inside : b < f.blocks.size) : p.visitBlock g merge b =
      (Task.reach b :: (f.membersAt b).map Task.visit).foldlM (perform g merge) p := by
  have reached : SameCode f
      (if p.procedure.isDead g b then p.procedure.markUnreachable b else p.procedure) := by
    split
    · exact same.trans (sameCode_markUnreachable b)
    · exact same
  rw [visitBlock, members_eq (reached.layout.flow.size ▸ inside), reached.layout.membersAt,
    List.foldlM_cons]
  exact (foldlM_visits _ _).symm

/-- A pass performs its tasks one after the other. -/
theorem run_eq_tasks (inside : ∀ b ∈ g.order, b < f.blocks.size) :
    Pass.run g merge f = (tasks g f).foldlM (perform g merge) ⟨f.clearMarks, 0, false⟩ := by
  have blocks : ∀ (order : List BlockId) (p : Pass), SameCode f p.procedure →
      (∀ b ∈ order, b < f.blocks.size) → order.foldlM (visitBlock g merge) p =
        (order.flatMap fun b => .reach b :: (f.membersAt b).map .visit).foldlM (perform g merge) p := by
    intro order
    induction order with
    | nil => intros; rfl
    | cons b order ih =>
      intro p same inside
      rw [List.foldlM_cons, List.flatMap_cons, List.foldlM_append,
        ← visitBlock_eq same (inside b List.mem_cons_self)]
      cases visiting : p.visitBlock g merge b with
      | error fault => rfl
      | ok q =>
        exact ih q (same.trans (visitBlock_sameCode visiting))
          fun c hc => inside c (List.mem_cons_of_mem _ hc)
  exact blocks g.order _ sameCode_clearMarks inside

end Pass

namespace FlowGraph

variable {f : Procedure} {g : FlowGraph} {v : ValueId} {inputs : List (ValueId × BlockId)}

/-- The reachable predecessors of the block of a phi that takes part in no loop come before it. -/
theorem Describes.pred_earlier (d : g.Describes f) {b p : BlockId} (home : f.home? v = some b)
    (code : f.opcode? v = some (.phi inputs)) (straight : f.isLoopCarried g v = .ok false)
    (hb : b ∈ g.order) (pred : p ∈ g.predsOf b) (hp : p ∈ g.order) :
    g.order.idxOf p < g.order.idxOf b := by
  obtain ⟨value, found, phi⟩ := Option.map_eq_some_iff.mp code
  have block : value.block = some b := (home?_of_value found).symm.trans home
  have run : f.isLoopCarried g v = .ok ((g.predsOf b).any fun p =>
      (g.place p).any fun i => decide (g.order.idxOf b ≤ i)) := by
    simp only [isLoopCarried, value_eq_ok.mpr found, bind, Except.bind, phi, block, Option.bind_some,
      d.place b, idxOf?_of_mem hb]
    rfl
  have none := List.any_eq_false.mp (Except.ok.inj (run.symm.trans straight)) p pred
  simpa [d.place p, idxOf?_of_mem hp] using none

/-- The inputs of a scheduled phi that takes part in no loop are scheduled, and before it, as far as
they come from reachable blocks. -/
theorem input_earlier (d : g.Describes f) (wf : f.WellFormed g) (all : f.AllListed)
    (hv : v ∈ g.schedule f) (code : f.opcode? v = some (.phi inputs))
    (straight : f.isLoopCarried g v = .ok false) {i : ValueId × BlockId} (hi : i ∈ inputs)
    (reachable : g.isReachable i.2 = true) :
    i.1 ∈ g.schedule f ∧ (g.schedule f).idxOf i.1 < (g.schedule f).idxOf v := by
  have s := wf.structured
  obtain ⟨b, hb, mem⟩ := List.mem_flatMap.mp hv
  have phi := s.mem_phisAt_of_home all (s.home_of_mem mem) code rfl
  obtain ⟨source, defined⟩ := (wf.uses b hb).inputs v phi inputs code i hi
  obtain ⟨home, stands, dominates⟩ := defined reachable
  have earlier := d.pred_earlier (s.home_of_mem mem) code straight hb source
    (d.isReachable_iff.mp reachable)
  have above := d.idxOf_le_of_above (d.dominates_iff.mp dominates).2
  exact scheduled_before d s hb (above.trans_lt earlier) (all i.1 home stands) mem

/-- A pass is a sweep over the scheduled values, each of them once, in which every value is visited
after what it is computed from. -/
structure SweepsInOrder (g : FlowGraph) (f : Procedure) : Prop where
  runs : ∀ merge, Pass.run g merge f =
    (Pass.tasks g f).foldlM (Pass.perform g merge) ⟨f.clearMarks, 0, false⟩
  visits : (Pass.tasks g f).filterMap Pass.Task.visited? = g.schedule f
  once : (g.schedule f).Nodup
  scheduled : ∀ v, v ∈ g.schedule f ↔ f.Scheduled v
  instrs : ∀ v o, f.Scheduled v → f.opcode? v = some o → o.isPhi = false → ∀ x ∈ o.operands,
    x ∈ g.schedule f ∧ (g.schedule f).idxOf x < (g.schedule f).idxOf v
  phis : ∀ v inputs, f.Scheduled v → f.opcode? v = some (.phi inputs) →
    f.isLoopCarried g v = .ok false → ∀ i ∈ inputs, f.Reachable i.2 →
      i.1 ∈ g.schedule f ∧ (g.schedule f).idxOf i.1 < (g.schedule f).idxOf v

/-- A well-formed procedure is swept in order. -/
theorem Describes.sweepsInOrder (d : g.Describes f) (wf : f.WellFormed g) (all : f.AllListed) :
    g.SweepsInOrder f where
  runs _ := Pass.run_eq_tasks d.order.inBounds
  visits := Pass.filterMap_tasks g f
  once := nodup_schedule d wf.structured
  scheduled _ := mem_schedule d
  instrs _ _ hv code kind _ hx := operand_earlier d wf all ((mem_schedule d).mpr hv) code kind hx
  phis _ _ hv code straight _ hi reachable :=
    input_earlier d wf all ((mem_schedule d).mpr hv) code straight hi
      (d.isReachable_iff.mpr (d.order.reachable_iff.mp reachable))

end FlowGraph

namespace Procedure

variable {f : Procedure}

/-- The list is the reverse postorder of a depth-first walk from the entry. -/
structure IsDepthFirst (f : Procedure) (order : List BlockId) : Prop where
  /-- The walk has come to its end: more steps add nothing. -/
  ended : ∀ steps, f.walkSteps ≤ steps →
    f.walk steps [(f.entry, f.successors f.entry)] [f.entry] [] = order
  once : order.Nodup
  reachable : ∀ b, b ∈ order ↔ f.Reachable b
  /-- In the postorder, which is the order backwards, the entry comes last. -/
  last : order.reverse.getLast? = some f.entry
  edges : ∀ u v, u ∈ order → f.Edge u v → order.idxOf u < order.idxOf v ∨ f.Leads v u

/-- The reverse postorder is that of a depth-first walk: the walk ends, it lists every reachable block
once and the entry last in postorder, and every edge goes forward in the order or lies on a cycle. In
a procedure that the verifier accepts and that lists every value where it stands, a sweep over the
blocks in this order visits an instruction after its operands, and a phi that takes part in no loop
after its inputs from reachable blocks. -/
theorem order_depthFirst (inside : f.entry < f.blocks.size) :
    ∃ order, f.reversePostorder = .ok order ∧ f.IsDepthFirst order ∧
      (f.verify = .ok (.ok ()) → f.AllListed → ∃ g, FlowGraph.build f = .ok g ∧
        g.order = order ∧ (∀ b, g.place b = order.idxOf? b) ∧ g.SweepsInOrder f) := by
  obtain ⟨order, run, spec⟩ := reversePostorder_spec inside
  refine ⟨order, run, ⟨fun steps enough => ?_, spec.nodup, fun b => spec.reachable_iff.symm, ?_,
    fun u v hu edge => reversePostorder_edge inside run hu edge⟩, fun accepted all => ?_⟩
  · obtain ⟨more, rfl⟩ := Nat.exists_eq_add_of_le enough
    rw [walk_add_steps (walkSteps_enough inside)]
    exact Except.ok.inj ((reversePostorder_eq inside).symm.trans run)
  · rw [List.getLast?_reverse, spec.first]
  · obtain ⟨-, g, built, wf⟩ := verify_eq_ok.mp accepted
    have d := FlowGraph.build_describes wf.structured.numbered inside built
    have same : g.order = order := by
      obtain ⟨order', run', rest⟩ := bind_eq_ok.mp built
      obtain ⟨idoms, -, rest⟩ := bind_eq_ok.mp rest
      exact pure_eq_ok.mp rest ▸ Except.ok.inj (run'.symm.trans run)
    exact ⟨g, built, same, fun b => same ▸ d.place b, d.sweepsInOrder wf all⟩

/-- A loop whose body forks and joins again: value 2 is a phi of the loop, value 6 one of the join. -/
def forkInLoop : Procedure where
  name := "forkInLoop"
  entry := 0
  blocks := #[⟨0, [], [0, 1], .goto 1, false⟩, ⟨1, [2], [3], .branch 3 2 5, false⟩,
    ⟨2, [], [4], .branch 3 3 4, false⟩, ⟨3, [], [5], .goto 4, false⟩, ⟨4, [6], [], .goto 1, false⟩,
    ⟨5, [], [], .exit (some 2), false⟩]
  values := #[⟨0, .const (.int 0), .int32, some 0, none⟩, ⟨1, .const (.int 10), .int32, some 0, none⟩,
    ⟨2, .phi [(0, 0), (6, 4)], .int32, some 1, none⟩,
    ⟨3, .compare .lt 2 1, .boolean, some 1, none⟩,
    ⟨4, .binary .add 2 1 .checked, .int32, some 2, none⟩,
    ⟨5, .binary .add 4 1 .checked, .int32, some 3, none⟩,
    ⟨6, .phi [(4, 2), (5, 3)], .int32, some 4, none⟩]
  unsupported := false
  reasons := []

/-- The walk through the loop is depth-first: the edge from block 4 to the header goes back, the header
leads to it, and the phi of the join is visited after both of its inputs. -/
theorem forkInLoop_depthFirst :
    (forkInLoop.entry < forkInLoop.blocks.size ∧ forkInLoop.verify = .ok (.ok ()) ∧
      forkInLoop.AllListed ∧ forkInLoop.Edge 4 1 ∧ forkInLoop.Reachable 2 ∧ forkInLoop.Reachable 3) ∧
    ∃ order g, forkInLoop.reversePostorder = .ok order ∧ FlowGraph.build forkInLoop = .ok g ∧
      order.idxOf 1 < order.idxOf 4 ∧ forkInLoop.Leads 1 4 ∧
      forkInLoop.isLoopCarried g 6 = .ok false ∧
      (g.schedule forkInLoop).idxOf 4 < (g.schedule forkInLoop).idxOf 6 ∧
      (g.schedule forkInLoop).idxOf 5 < (g.schedule forkInLoop).idxOf 6 := by
  have inside : forkInLoop.entry < forkInLoop.blocks.size := by decide
  have accepted : forkInLoop.verify = .ok (.ok ()) := by decide +kernel
  have listed : forkInLoop.AllListed := by decide +kernel
  have edge : forkInLoop.Edge 4 1 := ⟨by decide, by decide⟩
  have two : forkInLoop.Reachable 2 :=
    ⟨_, .step (.step .entry (b := 1) (by decide) (by decide)) (by decide) (by decide)⟩
  have three : forkInLoop.Reachable 3 := by
    obtain ⟨blocks, path⟩ := two
    exact ⟨_, path.step (by decide) (by decide)⟩
  obtain ⟨order, run, depthFirst, sweeps⟩ := order_depthFirst inside
  obtain ⟨g, built, -, -, sweep⟩ := sweeps accepted listed
  have places : (fun order : List BlockId => decide (order.idxOf 1 < order.idxOf 4 ∧ 4 ∈ order)) <$>
      forkInLoop.reversePostorder = .ok true := by decide +kernel
  have straight : (fun g => decide (forkInLoop.isLoopCarried g 6 = .ok false)) <$>
      FlowGraph.build forkInLoop = .ok true := by decide +kernel
  rw [run] at places
  rw [built] at straight
  obtain ⟨back, mem⟩ := of_decide_eq_true (Except.ok.inj places)
  have join := of_decide_eq_true (Except.ok.inj straight)
  have leads := (depthFirst.edges 4 1 mem edge).resolve_left (Nat.lt_asymm back)
  have scheduled : forkInLoop.Scheduled 6 := by
    obtain ⟨blocks, path⟩ := two
    exact ⟨4, ⟨_, path.step (by decide) (by decide)⟩, by decide⟩
  have visits := sweep.phis 6 [(4, 2), (5, 3)] scheduled (by decide) join
  exact ⟨⟨inside, accepted, listed, edge, two, three⟩, order, g, run, built, back, leads, join,
    (visits (4, 2) (by decide) two).2, (visits (5, 3) (by decide) three).2⟩

end Procedure

end Rangefinder
