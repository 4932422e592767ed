import Rangefinder.Proofs.Flow.Dominance

/-!
# Paths from the entry

A path is given by its blocks, the last one first, so that a path to a block is a path to one of
its predecessors with the block put in front. A block dominates another one when it stands on every
path to it. The reverse postorder lists exactly the blocks that have a path, and the blocks above a
block in the tree of immediate dominators stand on every path to it.

An edge retreats when its target does not come after its source in the order. A path without
repeated blocks has fewer retreating edges than there are blocks; this is what bounds the number of
passes that the search for dominators takes.
-/

namespace Rangefinder

namespace Procedure

variable {f : Procedure} {a b c p : BlockId} {blocks order : List BlockId}

/-- The blocks of a path from the entry to a block, the last one first. -/
inductive PathTo (f : Procedure) : BlockId → List BlockId → Prop
  | entry : PathTo f f.entry [f.entry]
  | step {p b : BlockId} {blocks : List BlockId} (path : PathTo f p blocks)
    (edge : b ∈ f.successors p) (inside : b < f.blocks.size) : PathTo f b (b :: blocks)

/-- A path leads from the entry to the block. -/
def Reachable (f : Procedure) (b : BlockId) : Prop := ∃ blocks, f.PathTo b blocks

/-- Every path from the entry to `b` passes through `a`. -/
def Dominates (f : Procedure) (a b : BlockId) : Prop := ∀ blocks, f.PathTo b blocks → a ∈ blocks

/-- Block `d` is the closest strict dominator of a reachable block. -/
structure IsImmediateDominator (f : Procedure) (d b : BlockId) : Prop where
  reachable : f.Reachable b
  strict : d ≠ b
  dominates : f.Dominates d b
  closest : ∀ a, a ≠ b → f.Dominates a b → f.Dominates a d

namespace PathTo

/-- A path starts its list with the block that it leads to. -/
theorem eq_cons (path : f.PathTo b blocks) : ∃ rest, blocks = b :: rest := by
  cases path with
  | entry => exact ⟨[], rfl⟩
  | step path _ _ => exact ⟨_, rfl⟩

/-- A path passes through the block that it leads to. -/
theorem mem (path : f.PathTo b blocks) : b ∈ blocks := by
  obtain ⟨rest, rfl⟩ := path.eq_cons
  exact List.mem_cons_self

/-- A path can be cut at each of its blocks. -/
theorem cut (path : f.PathTo b blocks) (mem : c ∈ blocks) :
    ∃ front back, blocks = front ++ c :: back ∧ f.PathTo c (c :: back) := by
  induction path with
  | entry =>
    obtain rfl := List.mem_singleton.mp mem
    exact ⟨[], [], rfl, .entry⟩
  | @step p b blocks path edge inside ih =>
    rcases List.mem_cons.mp mem with rfl | mem
    · exact ⟨[], blocks, rfl, .step path edge inside⟩
    · obtain ⟨front, back, rfl, first⟩ := ih mem
      exact ⟨b :: front, back, rfl, first⟩

/-- Among the blocks of a path there is a path to the same block that repeats none. -/
theorem simple (path : f.PathTo b blocks) :
    ∃ few, f.PathTo b few ∧ few.Nodup ∧ few ⊆ blocks := by
  induction path with
  | entry => exact ⟨[f.entry], .entry, by simp, by simp⟩
  | @step p b blocks path edge inside ih =>
    obtain ⟨few, short, nodup, subset⟩ := ih
    by_cases again : b ∈ few
    · obtain ⟨front, back, rfl, first⟩ := short.cut again
      refine ⟨b :: back, first, (List.nodup_append.mp nodup).2.1, ?_⟩
      intro x hx
      exact List.mem_cons_of_mem _ (subset (List.mem_append_right front hx))
    · refine ⟨b :: few, .step short edge inside, List.nodup_cons.mpr ⟨again, nodup⟩, ?_⟩
      exact List.cons_subset_cons b subset

end PathTo

/-- A strict dominator of a block dominates the blocks that lead to it. -/
theorem Dominates.pred (dominates : f.Dominates a b) (strict : a ≠ b) (edge : b ∈ f.successors p)
    (inside : b < f.blocks.size) : f.Dominates a p := by
  intro blocks path
  exact (List.mem_cons.mp (dominates _ (.step path edge inside))).resolve_left strict

/-- Nothing but the entry dominates the entry. -/
theorem Dominates.eq_entry (dominates : f.Dominates a f.entry) : a = f.entry :=
  List.mem_singleton.mp (dominates _ .entry)

namespace IsReversePostorder

/-- The order lists every block that a path leads to. -/
theorem mem_of_path (hf : f.IsReversePostorder order) (path : f.PathTo b blocks) : b ∈ order := by
  induction path with
  | entry => exact List.mem_of_mem_head? hf.first
  | step _ edge inside ih => exact hf.closed _ ih _ edge inside

/-- A path passes through blocks of the order only. -/
theorem subset_of_path (hf : f.IsReversePostorder order) (path : f.PathTo b blocks) :
    blocks ⊆ order := by
  intro c hc
  obtain ⟨-, back, -, first⟩ := path.cut hc
  exact hf.mem_of_path first

/-- The entry has the first position, and no other block of the order has it. -/
theorem idxOf_pos (hf : f.IsReversePostorder order) (ne : b ≠ f.entry) : 0 < order.idxOf b := by
  obtain ⟨rest, rfl⟩ := List.head?_eq_some_iff.mp hf.first
  rw [List.idxOf_cons_ne _ (Ne.symm ne)]
  exact Nat.succ_pos _

/-- A path leads to every block of the order. -/
theorem reachable_iff (hf : f.IsReversePostorder order) : f.Reachable b ↔ b ∈ order := by
  constructor
  · rintro ⟨blocks, path⟩
    exact hf.mem_of_path path
  · intro hb
    -- By the position in the order: a block other than the entry has a predecessor before it.
    induction position : order.idxOf b using Nat.strong_induction_on generalizing b with
    | _ position' ih =>
      obtain ⟨before, after, rfl⟩ := List.append_of_mem hb
      rcases hf.led before b after rfl with rfl | ⟨p, hp, edge⟩
      · exact ⟨_, .entry⟩
      · have earlier := FlowGraph.idxOf_lt_of_mem_before hf.nodup hp
        obtain ⟨blocks, path⟩ := ih _ (position ▸ earlier) (List.mem_append_left _ hp) rfl
        exact ⟨_, .step path edge (hf.inBounds b hb)⟩

end IsReversePostorder

/-- The number of retreating edges of a path: those whose target does not come after their
source. -/
def retreats (order : List BlockId) : List BlockId → Nat
  | b :: p :: blocks =>
    (if order.idxOf p < order.idxOf b then 0 else 1) + retreats order (p :: blocks)
  | _ => 0

/-- A path has fewer retreating edges than blocks. -/
theorem retreats_lt (order : List BlockId) (path : f.PathTo b blocks) :
    retreats order blocks < blocks.length := by
  induction path with
  | entry => simp [retreats]
  | step path _ _ ih =>
    obtain ⟨rest, rfl⟩ := path.eq_cons
    simp only [retreats, List.length_cons] at ih ⊢
    split <;> omega

/-- Cutting a path does not add retreating edges. -/
theorem retreats_append (order front back : List BlockId) :
    retreats order back ≤ retreats order (front ++ back) := by
  induction front with
  | nil => exact Nat.le_refl _
  | cons b front ih =>
    refine ih.trans ?_
    rw [List.cons_append]
    cases front ++ back with
    | nil => exact Nat.zero_le _
    | cons p blocks => exact Nat.le_add_left _ _

/-- Every path from the entry to `b` with fewer than `k` retreating edges passes through `a`. -/
def DominatesWithin (f : Procedure) (order : List BlockId) (k : Nat) (a b : BlockId) : Prop :=
  ∀ blocks, f.PathTo b blocks → retreats order blocks < k → a ∈ blocks

/-- Paths with fewer retreating edges than there are blocks are enough to judge dominance. -/
theorem DominatesWithin.dominates (hf : f.IsReversePostorder order) {k : Nat}
    (enough : order.length ≤ k) (within : f.DominatesWithin order k a b) : f.Dominates a b := by
  intro blocks path
  obtain ⟨few, short, nodup, subset⟩ := path.simple
  have fits : few.length ≤ order.length := (nodup.subperm (hf.subset_of_path short)).length_le
  have retreating := retreats_lt order short
  exact subset (within few short (by omega))

end Procedure

namespace FlowGraph

variable {f : Procedure} {g : FlowGraph} {a b : BlockId} {blocks : List BlockId}

/-- What lies above a block in the tree stands on every path to it. -/
theorem Describes.dominates_of_above (h : g.Describes f) (above : g.Above a b) :
    f.Dominates a b := by
  intro blocks path
  induction path with
  | entry =>
    cases above with
    | refl => exact List.mem_cons_self
    | up parent _ =>
      have none := h.root
      rw [idom_eq_some.mpr parent] at none
      cases none
  | @step p b blocks path edge inside ih =>
    by_cases same : a = b
    · exact same ▸ List.mem_cons_self
    · have hp := h.order.mem_of_path path
      exact List.mem_cons_of_mem _
        (ih (h.above_pred hp edge (h.order.closed p hp b edge inside) above same))

end FlowGraph

end Rangefinder
