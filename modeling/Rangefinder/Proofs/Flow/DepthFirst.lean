import Mathlib.Logic.Relation
import Rangefinder.Proofs.Flow.Paths

/-!
# Edges in a depth-first order

The walk keeps the blocks that it has entered but not left on a stack. Each of them was entered from
the one below it, so every block on the stack leads to the one on top. When the block on top is left,
all its successors have been entered. One that was left before comes after it in the reverse
postorder, and one that is still on the stack leads back to it: an edge of the procedure goes forward
in the order, or it is part of a cycle.

The walk comes to its end by itself. More steps than it is given find the same order.
-/

namespace Rangefinder

namespace Procedure

variable {f : Procedure} {stack : List (BlockId × List BlockId)} {seen left : List BlockId} {b s : BlockId}

/-- Control may go from the first block to the second one. -/
def Edge (f : Procedure) (a b : BlockId) : Prop := b ∈ f.successors a ∧ b < f.blocks.size

/-- A path leads from the first block to the second one. -/
def Leads (f : Procedure) : BlockId → BlockId → Prop := Relation.ReflTransGen f.Edge

/-- What a walk keeps beside its invariant: each block on the stack was entered from the one below
it, and an edge out of a block that was left goes to a block left before it, or to one that leads
back. -/
structure DepthFirst (f : Procedure) (stack : List (BlockId × List BlockId)) (left : List BlockId) :
    Prop where
  chain : (stack.map Prod.fst).IsChain fun top below => f.Edge below top
  ordered : ∀ before b after, left = before ++ b :: after → ∀ s, f.Edge b s → s ∈ after ∨ f.Leads s b

/-- Every block of a chain leads to the block on top of it. -/
theorem leads_top {blocks : List BlockId}
    (chain : (b :: blocks).IsChain fun top below => f.Edge below top) (mem : s ∈ b :: blocks) :
    f.Leads s b := by
  induction blocks generalizing b with
  | nil =>
    rw [List.mem_singleton.mp mem]
    exact .refl
  | cons below blocks ih =>
    rw [List.isChain_cons_cons] at chain
    rcases List.mem_cons.mp mem with rfl | mem
    · exact .refl
    · exact (ih chain.2 mem).tail chain.1

namespace DepthFirst

/-- Leaving a block: its successors were left before it or are below it on the stack. -/
theorem leave {b : BlockId} (h : f.DepthFirst ((b, []) :: stack) left)
    (invariant : f.WalkInvariant ((b, []) :: stack) seen left) : f.DepthFirst stack (b :: left) where
  chain := h.chain.tail
  ordered before c after split s edge := by
    cases before with
    | cons first before =>
      obtain ⟨-, rfl⟩ := List.cons.inj split
      exact h.ordered before c after rfl s edge
    | nil =>
      obtain ⟨rfl, rfl⟩ := List.cons.inj split
      -- All successors of `b` have been tried, so `s` is on the stack or has been left.
      have entered : s ∈ seen :=
        (invariant.tried _ List.mem_cons_self s edge.1 edge.2).resolve_left List.not_mem_nil
      rcases List.mem_append.mp ((invariant.entered s).mp entered) with pending | done
      · exact .inr (leads_top h.chain (List.mem_reverse.mp pending))
      · exact .inl done

/-- Entering a successor of the block on top puts it on top. -/
theorem enter {rest : List BlockId} (h : f.DepthFirst ((b, s :: rest) :: stack) left)
    (invariant : f.WalkInvariant ((b, s :: rest) :: stack) seen left) (lt : s < f.blocks.size) :
    f.DepthFirst ((s, f.successors s) :: (b, rest) :: stack) left where
  chain := by
    have edge := invariant.untried _ List.mem_cons_self s List.mem_cons_self
    exact List.isChain_cons_cons.mpr ⟨⟨edge, lt⟩, h.chain⟩
  ordered := h.ordered

end DepthFirst

/-- An edge goes forward in the reverse postorder, or its target leads back to its source. -/
theorem reversePostorder_edge {order : List BlockId} (inside : f.entry < f.blocks.size)
    (run : f.reversePostorder = .ok order) {u v : BlockId} (hu : u ∈ order) (edge : f.Edge u v) :
    order.idxOf u < order.idxOf v ∨ f.Leads v u := by
  obtain ⟨order', run', spec⟩ := reversePostorder_spec inside
  obtain rfl := Except.ok.inj (run.symm.trans run')
  obtain rfl := Except.ok.inj (run.symm.trans (reversePostorder_eq inside))
  have start : f.DepthFirst [(f.entry, f.successors f.entry)] [] := by
    constructor <;> simp
  obtain ⟨entered, -, done⟩ := walk_induction
    (fun stack seen left => f.WalkInvariant stack seen left ∧ f.DepthFirst stack left)
    (fun _ _ _ _ h => ⟨h.1.leave, h.2.leave h.1⟩)
    (fun _ _ _ _ _ _ lt new h => ⟨h.1.enter lt new, h.2.enter h.1 lt⟩)
    (fun _ _ _ _ _ _ old h => ⟨h.1.pass old, h.2.chain, h.2.ordered⟩)
    ⟨walkInvariant_start inside, start⟩ (walkSteps_enough inside)
  obtain ⟨before, after, split⟩ := List.append_of_mem hu
  refine (done.ordered before u after split v edge).imp_left fun later => ?_
  have nodup := spec.nodup
  obtain ⟨mid, back, rfl⟩ := List.append_of_mem later
  rw [split, ← List.cons_append, ← List.append_assoc] at nodup ⊢
  exact FlowGraph.idxOf_lt_of_mem_before nodup (by simp)

/-- A walk that has enough steps gains nothing from more of them. -/
theorem walk_add_steps {steps : Nat} (enough : stackCost stack + f.unseenCost seen ≤ steps)
    (more : Nat) : f.walk (steps + more) stack seen left = f.walk steps stack seen left := by
  fun_induction walk f steps stack seen left with
  | case1 stack seen left =>
    cases stack with
    | nil => cases more <;> simp [walk]
    | cons entry stack => simp [stackCost] at enough
  | case2 steps => rw [Nat.succ_add, walk]
  | case3 steps b stack seen left ih =>
    simp only [stackCost, List.length_nil] at enough
    rw [Nat.succ_add, walk, ih (by omega)]
  | case4 steps b s rest stack seen left new ih =>
    have := unseenCost_cons (f := f) new.1 new.2
    simp only [stackCost, List.length_cons] at enough ih
    rw [Nat.succ_add, walk, if_pos new, ih (by omega)]
  | case5 steps b s rest stack seen left old ih =>
    simp only [stackCost, List.length_cons] at enough ih
    rw [Nat.succ_add, walk, if_neg old, ih (by omega)]

end Procedure

end Rangefinder
