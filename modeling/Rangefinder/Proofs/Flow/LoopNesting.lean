import Rangefinder.Proofs.Flow.Exactness
import Rangefinder.Proofs.Flow.NaturalLoops

/-!
# The loops of a procedure by its paths

Which loops a procedure has is a matter of its paths alone. An edge closes a loop when its target
dominates its source, and the loop of a header holds the blocks from which the source of such an
edge can be reached without passing the header. The loops that are found are these loops, one for
each header, in reverse postorder.

The walk backwards meets a block only along such a path, and it cannot stop before it has met all of
them, since only the header has predecessors outside the body. Two loops that share a block have
comparable headers. The header that comes later then lies in the loop of the other one and cannot be
passed on the way back to the first, so the whole later loop does.
-/

namespace Rangefinder

namespace Procedure

variable {f : Procedure} {h b s : BlockId}

/-- The edge from `s` to `h` closes a loop: the source can be reached, and only through the
target. -/
structure ClosesLoop (f : Procedure) (h s : BlockId) : Prop where
  reachable : f.Reachable s
  edge : h ∈ f.successors s
  dominates : f.Dominates h s

/-- A path leads from the first block to the second one and does not pass through `h`. -/
inductive LeadsAvoiding (f : Procedure) (h : BlockId) : BlockId → BlockId → Prop
  | refl {b : BlockId} : b ≠ h → LeadsAvoiding f h b b
  | step {b c s : BlockId} : b ≠ h → c ∈ f.successors b → LeadsAvoiding f h c s →
    LeadsAvoiding f h b s

/-- A path starts at a block other than the one that it avoids. -/
theorem LeadsAvoiding.ne (path : f.LeadsAvoiding h b s) : b ≠ h := by
  cases path with
  | refl ne => exact ne
  | step ne _ _ => exact ne

/-- A path to a block that exists starts at a block that exists. -/
theorem LeadsAvoiding.lt_size (path : f.LeadsAvoiding h b s) (inside : s < f.blocks.size) :
    b < f.blocks.size := by
  cases path with
  | refl _ => exact inside
  | step _ edge _ => exact lt_size_of_mem_successors edge

end Procedure

/-- The loop is the one that its header has by the paths of the procedure. -/
structure Loop.IsLoopOf (l : Loop) (f : Procedure) : Prop where
  backedges : ∀ s, s ∈ l.backedges ↔ f.ClosesLoop l.header s
  body : ∀ b, b ∈ l.body ↔
    b = l.header ∨ f.Reachable b ∧ ∃ s, f.ClosesLoop l.header s ∧ f.LeadsAvoiding l.header b s
  dominates : ∀ b ∈ l.body, f.Dominates l.header b
  entered : ∀ p b, f.Reachable p → p ∉ l.body → b ∈ f.successors p → b ∈ l.body → b = l.header

namespace FlowGraph

variable {f : Procedure} {g : FlowGraph} {header b : BlockId}

/-- A property that passes from a block to its reachable predecessors other than the header holds of
every block that the walk backwards meets, when it holds of those that the walk starts with. -/
theorem closeBackwards_induction {steps : Nat} {stack body : List BlockId} (P : BlockId → Prop)
    (root : header ∈ body) (waiting : ∀ b ∈ stack, P b) (inside : ∀ b ∈ body, b = header ∨ P b)
    (pred : ∀ b p, P b → p ∈ g.predsOf b → g.isReachable p = true → p ≠ header → P p)
    (hb : b ∈ g.closeBackwards steps stack body) : b = header ∨ P b := by
  induction steps generalizing stack body with
  | zero => exact inside b hb
  | succ steps ih =>
    cases stack with
    | nil => exact inside b hb
    | cons c stack =>
      have fresh : ∀ p ∈ (g.predsOf c).filter fun p => g.isReachable p && !body.contains p, P p := by
        intro p hp
        obtain ⟨mem, reachable, new⟩ : p ∈ g.predsOf c ∧ g.isReachable p = true ∧ p ∉ body := by
          simpa using hp
        refine pred c p (waiting c List.mem_cons_self) mem reachable ?_
        rintro rfl
        exact new root
      refine ih (List.mem_append_right _ root) (fun p hp => ?_) (fun p hp => ?_) hb
      · rcases List.mem_append.mp hp with new | old
        · exact fresh p new
        · exact waiting p (List.mem_cons_of_mem _ old)
      · rcases List.mem_append.mp hp with new | old
        · exact .inr (fresh p new)
        · exact inside p old

/-- From every block found for a loop other than the header, the source of an edge back can be
reached without passing the header. -/
theorem leads_of_mem_loopBody (d : g.Describes f) {backedges : List BlockId}
    (reachable : ∀ s ∈ backedges, s ∈ g.order) (hb : b ∈ g.loopBody header backedges) :
    b = header ∨ ∃ s ∈ backedges, f.LeadsAvoiding header b s := by
  have sources : ∀ s ∈ backedges.filter (· != header),
      s ∈ g.order ∧ ∃ s' ∈ backedges, f.LeadsAvoiding header s s' := by
    intro s hs
    obtain ⟨mem, ne⟩ : s ∈ backedges ∧ s ≠ header := by simpa using hs
    exact ⟨reachable s mem, s, mem, .refl ne⟩
  have found := (List.mem_filter.mp hb).2
  rw [List.contains_iff_mem] at found
  refine (closeBackwards_induction
    (fun b => b ∈ g.order ∧ ∃ s ∈ backedges, f.LeadsAvoiding header b s) (by simp) sources
    (fun s hs => ?_) (fun b p hb hp reach ne => ?_) found).imp_right And.right
  · rcases List.mem_append.mp hs with source | own
    · exact .inr (sources s source)
    · exact .inl (List.mem_singleton.mp own)
  · obtain ⟨hb, s, hs, path⟩ := hb
    have edge := (d.preds b p (d.order.inBounds b hb)).mp hp
    exact ⟨d.isReachable_iff.mp reach, s, hs, .step ne edge path⟩

/-- A natural loop holds every reachable block from which one of its blocks can be reached without
passing the header. -/
theorem mem_body_of_leads {l : Loop} (natural : l.IsNatural g f) (d : g.Describes f) {s : BlockId}
    (path : f.LeadsAvoiding l.header b s) (hs : s ∈ l.body) (hb : b ∈ g.order) : b ∈ l.body := by
  induction path with
  | refl _ => exact hs
  | @step b c s ne edge path ih =>
    have inside := path.lt_size (d.order.inBounds s (natural.reachable s hs))
    have hc := ih hs (d.order.closed b hb c edge inside)
    exact natural.closed c hc path.ne b hb edge

section Exact

variable (d : g.Describes f) (complete : ∀ a, ∀ b ∈ g.order, f.Dominates a b → g.Above a b)

include d complete

/-- The edges to a block from the blocks below it in the tree are those that close a loop. -/
theorem mem_closing_iff (hb : b ∈ g.order) {s : BlockId} :
    s ∈ (g.predsOf b).filter (fun s => g.dominates b s) ↔ f.ClosesLoop b s := by
  rw [List.mem_filter, d.preds b s (d.order.inBounds b hb), d.dominates_iff]
  constructor
  · rintro ⟨edge, hs, above⟩
    exact ⟨d.order.reachable_iff.mpr hs, edge, d.dominates_of_above above⟩
  · rintro ⟨reachable, edge, dominates⟩
    have hs := d.order.reachable_iff.mp reachable
    exact ⟨edge, hs, complete b s hs dominates⟩

/-- A loop is found at a reachable block exactly when an edge to it closes a loop. -/
theorem exists_loopAt_iff (hb : b ∈ g.order) :
    (∃ l, g.loopAt f b = some l) ↔ ∃ s, f.ClosesLoop b s := by
  simp only [← mem_closing_iff d complete hb, loopAt]
  split
  · next none => simp [List.isEmpty_iff.mp none]
  · next some => simpa using List.exists_mem_of_ne_nil _ (mt List.isEmpty_iff.mpr some)

/-- The loop found at a reachable block is the loop that the paths give it. -/
theorem loopAt_isLoopOf (hb : b ∈ g.order) {l : Loop} (found : g.loopAt f b = some l) :
    l.IsLoopOf f := by
  obtain ⟨rfl, natural⟩ := loopAt_isNatural d hb found
  have backedges : ∀ s, s ∈ l.backedges ↔ f.ClosesLoop l.header s := by
    intro s
    rw [← mem_closing_iff d complete hb]
    rw [loopAt] at found
    split at found
    · cases found
    · rw [← Option.some.inj found]
  refine ⟨backedges, fun b => ⟨fun mem => ?_, ?_⟩, fun b mem => ?_, fun p b reachable out edge mem => ?_⟩
  · have fromBody : b ∈ g.loopBody l.header l.backedges := by
      rw [loopAt] at found
      split at found
      · cases found
      · rw [← Option.some.inj found] at mem ⊢
        exact mem
    refine (leads_of_mem_loopBody d (fun s hs => ?_) fromBody).imp_right ?_
    · exact natural.reachable s ((natural.back s).mp hs).2
    · rintro ⟨s, hs, path⟩
      exact ⟨d.order.reachable_iff.mpr (natural.reachable b mem), s, (backedges s).mp hs, path⟩
  · rintro (rfl | ⟨reachable, s, closes, path⟩)
    · exact natural.header_mem
    · have hs := ((natural.back s).mp ((backedges s).mpr closes)).2
      exact mem_body_of_leads natural d path hs (d.order.reachable_iff.mp reachable)
  · exact d.dominates_of_above (natural.below b mem)
  · by_contra ne
    exact out (natural.closed b mem ne p (d.order.reachable_iff.mp reachable) edge)

omit complete in
/-- Of two loops whose headers stand in this order, the second one lies in the first one when they
share a block, and it does not hold the header of the first one. -/
theorem disjoint_or_nested {outer inner : Loop} (natural : outer.IsNatural g f)
    (natural' : inner.IsNatural g f) (exact : inner.IsLoopOf f)
    (earlier : g.order.idxOf outer.header < g.order.idxOf inner.header) :
    outer.body.Disjoint inner.body ∨ inner.body ⊆ outer.body ∧ outer.header ∉ inner.body := by
  have notUpper : ¬g.Above inner.header outer.header := fun above =>
    absurd (d.idxOf_le_of_above above) (Nat.not_le_of_gt earlier)
  have out : outer.header ∉ inner.body := fun mem => notUpper (natural'.below _ mem)
  by_cases apart : outer.body.Disjoint inner.body
  · exact .inl apart
  obtain ⟨t, ht, ht'⟩ : ∃ t, t ∈ outer.body ∧ t ∈ inner.body := by
    simpa [List.Disjoint] using apart
  have above : g.Above outer.header inner.header :=
    ((natural.below t ht).comparable (natural'.below t ht')).resolve_right notUpper
  have held : inner.header ∈ outer.body := natural.convex d ht above (natural'.below t ht')
  have ne : inner.header ≠ outer.header := fun same => notUpper (same ▸ .refl)
  refine .inr ⟨fun b hb => ?_, out⟩
  rcases (exact.body b).mp hb with rfl | ⟨reachable, s, closes, path⟩
  · exact held
  -- Along the way to the edge back every block lies in the inner loop, so none is the outer header.
  have hb := d.order.reachable_iff.mp reachable
  have hs := d.order.reachable_iff.mp closes.reachable
  have back : s ∈ inner.body := ((natural'.back s).mp ((exact.backedges s).mpr closes)).2
  clear reachable
  induction path with
  | refl _ => exact natural.closed _ held ne _ hs closes.edge
  | @step b c s _ edge path ih =>
    have hc := d.order.closed b hb c edge (path.lt_size (d.order.inBounds s hs))
    have inner := mem_body_of_leads natural' d path back hc
    exact natural.closed c (ih inner closes hc hs back) (fun same => out (same ▸ inner)) b hb edge

end Exact

/-- Every procedure whose entry exists and whose blocks are numbered has a flow graph, and the loops
found in it are its natural loops. Each reachable block that dominates one of its predecessors is the
header of one loop, and the headers follow the reverse postorder. Every loop holds its header and the
blocks from which an edge back to it can be reached without passing the header, its header dominates
it, and control enters it at the header only. Of two loops the later one either lies in the earlier
one, whose header it does not hold, or shares no block with it. -/
theorem loops_exact (numbered : f.BlocksNumbered) (inside : f.entry < f.blocks.size) :
    ∃ g, build f = .ok g ∧
      (∀ h, (∃ l ∈ g.loops f, l.header = h) ↔ f.Reachable h ∧ ∃ s, f.ClosesLoop h s) ∧
      (g.loops f).Pairwise (fun l m => g.order.idxOf l.header < g.order.idxOf m.header) ∧
      (∀ l ∈ g.loops f, l.IsLoopOf f) ∧
      (g.loops f).Pairwise fun outer inner =>
        outer.body.Disjoint inner.body ∨ inner.body ⊆ outer.body ∧ outer.header ∉ inner.body := by
  obtain ⟨g, built, complete⟩ := build_complete numbered inside
  have d := build_describes numbered inside built
  have mem_loops : ∀ l, l ∈ g.loops f ↔ ∃ b ∈ g.order, g.loopAt f b = some l := by
    simp [loops]
  refine ⟨g, built, fun h => ⟨?_, ?_⟩, loops_ordered d, fun l hl => ?_, ?_⟩
  · rintro ⟨l, hl, rfl⟩
    obtain ⟨b, hb, found⟩ := (mem_loops l).mp hl
    obtain rfl := (loopAt_isNatural d hb found).1
    exact ⟨d.order.reachable_iff.mpr hb, (exists_loopAt_iff d complete hb).mp ⟨l, found⟩⟩
  · rintro ⟨reachable, closes⟩
    have hb := d.order.reachable_iff.mp reachable
    obtain ⟨l, found⟩ := (exists_loopAt_iff d complete hb).mpr closes
    exact ⟨l, (mem_loops l).mpr ⟨h, hb, found⟩, (loopAt_isNatural d hb found).1⟩
  · obtain ⟨b, hb, found⟩ := (mem_loops l).mp hl
    exact loopAt_isLoopOf d complete hb found
  · refine (loops_ordered d).imp_of_mem fun {l m} hl hm earlier => ?_
    obtain ⟨b, hb, found⟩ := (mem_loops m).mp hm
    exact disjoint_or_nested d (loops_natural d hl) (loops_natural d hm)
      (loopAt_isLoopOf d complete hb found) earlier

/-- Three loops inside one another, the innermost one of a single block, a fourth loop behind them,
and a block that nothing leads to with an edge into the innermost loop. -/
def nested : Procedure where
  name := "nested"
  entry := 0
  blocks := #[⟨0, [], [], .goto 1, false⟩, ⟨1, [], [], .branch 0 2 5, false⟩,
    ⟨2, [], [], .branch 0 3 4, false⟩, ⟨3, [], [], .branch 0 3 2, false⟩,
    ⟨4, [], [], .branch 0 1 5, false⟩, ⟨5, [], [], .branch 0 5 6, false⟩,
    ⟨6, [], [], .exit none, false⟩, ⟨7, [], [], .goto 3, false⟩]
  values := #[]
  unsupported := false
  reasons := []

/-- The nested loops satisfy the conditions, although an edge that control never takes enters the
innermost one. -/
theorem nested_exact :
    (nested.BlocksNumbered ∧ nested.entry < nested.blocks.size ∧ 3 ∈ nested.successors 7) ∧
    ∃ g, build nested = .ok g ∧
      (∀ h, (∃ l ∈ g.loops nested, l.header = h) ↔
        nested.Reachable h ∧ ∃ s, nested.ClosesLoop h s) ∧
      (g.loops nested).Pairwise (fun l m => g.order.idxOf l.header < g.order.idxOf m.header) ∧
      (∀ l ∈ g.loops nested, l.IsLoopOf nested) ∧
      (g.loops nested).Pairwise fun outer inner =>
        outer.body.Disjoint inner.body ∨ inner.body ⊆ outer.body ∧ outer.header ∉ inner.body := by
  have each : ∀ b : Fin nested.blocks.size, nested.blocks[b].id = b := by decide
  have numbered : nested.BlocksNumbered := by
    intro b block found
    obtain ⟨lt, rfl⟩ := Array.getElem?_eq_some_iff.mp found
    exact each ⟨b, lt⟩
  have inside : nested.entry < nested.blocks.size := by decide
  exact ⟨⟨numbered, inside, by decide⟩, loops_exact numbered inside⟩

end FlowGraph

end Rangefinder
