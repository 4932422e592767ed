import Rangefinder.Flow.Loops
import Rangefinder.Proofs.Flow.Dominance

/-!
# Natural loops

The body of a natural loop is found by walking backwards from the edges that close the loop. It
holds what the name promises: the header lies above every block of the body, and control enters the
body through the header only. Two consequences carry the treatment of loops. The body is convex,
which means that it holds every block between the header and a block of the body; and a block
outside the loop that lies above one of its blocks lies above the blocks that enter the loop.
-/

namespace Rangefinder

/-- What a loop of a flow graph is. -/
structure Loop.IsNatural (l : Loop) (g : FlowGraph) (f : Procedure) : Prop where
  header_mem : l.header ∈ l.body
  reachable : ∀ b ∈ l.body, b ∈ g.order
  below : ∀ b ∈ l.body, g.Above l.header b
  closed : ∀ b ∈ l.body, b ≠ l.header → ∀ p ∈ g.order, b ∈ f.successors p → p ∈ l.body
  back : ∀ p, p ∈ l.backedges ↔ l.header ∈ f.successors p ∧ p ∈ l.body
  latched : ∀ p ∈ g.order, l.header ∈ f.successors p → g.Above l.header p → p ∈ l.body
  enter : ∀ p, p ∈ l.preheaders ↔ p ∈ g.order ∧ l.header ∈ f.successors p ∧ p ∉ l.body

namespace FlowGraph

variable {f : Procedure} {g : FlowGraph} {stack body : List BlockId} {header : BlockId}

/-- What holds while the blocks of a loop are collected: the body so far hangs below the header,
and every block of it other than the header has all its predecessors in the body or waits for
them. -/
structure CloseInvariant (g : FlowGraph) (header : BlockId) (stack body : List BlockId) :
    Prop where
  nodup : body.Nodup
  header_mem : header ∈ body
  waiting : ∀ b ∈ stack, b ∈ body ∧ b ≠ header
  reachable : ∀ b ∈ body, b ∈ g.order
  below : ∀ b ∈ body, g.Above header b
  closed : ∀ b ∈ body, b ≠ header → b ∈ stack ∨ ∀ p ∈ g.predsOf b, p ∈ g.order → p ∈ body

/-- Taking a block off the stack keeps the invariant. -/
theorem CloseInvariant.step {header b : BlockId} (d : g.Describes f)
    (h : g.CloseInvariant header (b :: stack) body) :
    g.CloseInvariant header
      (((g.predsOf b).filter fun p => g.isReachable p && !body.contains p) ++ stack)
      (((g.predsOf b).filter fun p => g.isReachable p && !body.contains p) ++ body) := by
  obtain ⟨hb, ne⟩ := h.waiting b List.mem_cons_self
  have fresh : ∀ p, p ∈ (g.predsOf b).filter (fun p => g.isReachable p && !body.contains p) ↔
      p ∈ g.predsOf b ∧ p ∈ g.order ∧ p ∉ body := by
    intro p
    simp [d.isReachable_iff]
  have inBounds := d.order.inBounds b (h.reachable b hb)
  have mine : ∀ p ∈ g.predsOf b, p ∈ g.order → g.Above header p := fun p hp reachable =>
    d.above_pred reachable ((d.preds b p inBounds).mp hp) (h.reachable b hb) (h.below b hb)
      (Ne.symm ne)
  constructor
  · refine (d.distinct b).filter _ |>.append h.nodup fun p hp hp' => ?_
    exact ((fresh p).mp hp).2.2 hp'
  · exact List.mem_append_right _ h.header_mem
  · intro p hp
    rcases List.mem_append.mp hp with new | old
    · refine ⟨List.mem_append_left _ new, ?_⟩
      rintro rfl
      exact ((fresh p).mp new).2.2 h.header_mem
    · obtain ⟨mem, other⟩ := h.waiting p (List.mem_cons_of_mem _ old)
      exact ⟨List.mem_append_right _ mem, other⟩
  · intro p hp
    rcases List.mem_append.mp hp with new | old
    · exact ((fresh p).mp new).2.1
    · exact h.reachable p old
  · intro p hp
    rcases List.mem_append.mp hp with new | old
    · exact mine p ((fresh p).mp new).1 ((fresh p).mp new).2.1
    · exact h.below p old
  · intro c hc other
    rcases List.mem_append.mp hc with new | old
    · exact .inl (List.mem_append_left _ new)
    · rcases h.closed c old other with waits | done
      · rcases List.mem_cons.mp waits with rfl | waits
        · refine .inr fun p hp reachable => List.mem_append.mpr ?_
          by_cases mem : p ∈ body
          · exact .inr mem
          · exact .inl ((fresh p).mpr ⟨hp, reachable, mem⟩)
        · exact .inl (List.mem_append_right _ waits)
      · exact .inr fun p hp reachable => List.mem_append_right _ (done p hp reachable)

/-- Distinct reachable blocks are no more than there are blocks. -/
theorem Describes.length_le (d : g.Describes f) {l : List BlockId} (nodup : l.Nodup)
    (reachable : ∀ b ∈ l, b ∈ g.order) : l.length ≤ g.preds.size := by
  rw [d.size, ← List.toFinset_card_of_nodup nodup, ← Finset.card_range f.blocks.size]
  refine Finset.card_le_card fun b hb => ?_
  rw [Finset.mem_range]
  exact d.order.inBounds b (reachable b (List.mem_toFinset.mp hb))

/-- The walk backwards ends with nothing left to wait for, given as many steps as there are
blocks that it may still meet. -/
theorem closeBackwards_invariant (d : g.Describes f) {steps : Nat}
    (h : g.CloseInvariant header stack body)
    (enough : stack.length + g.preds.size + 1 ≤ steps + body.length) :
    g.CloseInvariant header [] (g.closeBackwards steps stack body) ∧
      ∀ b ∈ body, b ∈ g.closeBackwards steps stack body := by
  induction steps generalizing stack body with
  | zero =>
    have := d.length_le h.nodup h.reachable
    omega
  | succ steps ih =>
    cases stack with
    | nil => exact ⟨h, fun _ hb => hb⟩
    | cons b stack =>
      rw [closeBackwards]
      obtain ⟨closed, grown⟩ := ih (h.step d) (by
        simp only [List.length_append, List.length_cons] at enough ⊢
        omega)
      exact ⟨closed, fun c hc => grown c (List.mem_append_right _ hc)⟩

/-- The blocks found for a loop satisfy the invariant, and the sources of the edges back to the
header are among them. -/
theorem loopBody_spec (d : g.Describes f) {backedges : List BlockId} (hb : header ∈ g.order)
    (nodup : backedges.Nodup) (closing : ∀ p ∈ backedges, p ∈ g.order ∧ g.Above header p) :
    ∃ found, g.CloseInvariant header [] found ∧ (∀ p ∈ backedges, p ∈ found) ∧
      ∀ b, b ∈ g.loopBody header backedges ↔ b ∈ found := by
  have sources : ∀ p, p ∈ backedges.filter (· != header) ↔ p ∈ backedges ∧ p ≠ header := by
    simp
  have start : g.CloseInvariant header (backedges.filter (· != header))
      (backedges.filter (· != header) ++ [header]) := by
    constructor
    · rw [← List.concat_eq_append, List.nodup_concat]
      exact ⟨by simp, nodup.filter _⟩
    · simp
    · intro p hp
      exact ⟨List.mem_append_left _ hp, ((sources p).mp hp).2⟩
    · intro p hp
      rcases List.mem_append.mp hp with source | own
      · exact (closing p ((sources p).mp source).1).1
      · exact List.mem_singleton.mp own ▸ hb
    · intro p hp
      rcases List.mem_append.mp hp with source | own
      · exact (closing p ((sources p).mp source).1).2
      · exact List.mem_singleton.mp own ▸ .refl
    · intro p hp other
      refine .inl ((List.mem_append.mp hp).resolve_right fun own => other ?_)
      exact List.mem_singleton.mp own
  obtain ⟨closed, grown⟩ := @closeBackwards_invariant f g _ _ header d g.preds.size start (by
    simp only [List.length_append, List.length_singleton]
    omega)
  refine ⟨_, closed, fun p hp => grown p ?_, fun b => ?_⟩
  · by_cases own : p = header
    · simp [own]
    · exact List.mem_append_left _ ((sources p).mpr ⟨hp, own⟩)
  · rw [loopBody, List.mem_filter, List.mem_range, List.contains_iff_mem]
    refine ⟨And.right, fun mem => ⟨?_, mem⟩⟩
    rw [d.size]
    exact d.order.inBounds b (closed.reachable b mem)

/-- The loop found at a reachable block is a natural loop with that header. -/
theorem loopAt_isNatural (d : g.Describes f) {b : BlockId} {l : Loop} (hb : b ∈ g.order)
    (h : g.loopAt f b = some l) : l.header = b ∧ l.IsNatural g f := by
  rw [loopAt] at h
  split at h
  · cases h
  · obtain rfl := Option.some.inj h
    have inBounds := d.order.inBounds b hb
    have closing : ∀ p, p ∈ (g.predsOf b).filter (fun p => g.dominates b p) ↔
        b ∈ f.successors p ∧ p ∈ g.order ∧ g.Above b p := by
      intro p
      rw [List.mem_filter, d.preds b p inBounds, d.dominates_iff]
    obtain ⟨found, closed, sources, same⟩ := loopBody_spec d hb ((d.distinct b).filter _)
      fun p hp => ((closing p).mp hp).2
    refine ⟨rfl, ?_, ?_, ?_, ?_, fun p => ?_, fun p reachable edge above => ?_, fun p => ?_⟩
    · exact (same b).mpr closed.header_mem
    · exact fun c hc => closed.reachable c ((same c).mp hc)
    · exact fun c hc => closed.below c ((same c).mp hc)
    · intro c hc other p reachable edge
      refine (same p).mpr (((closed.closed c ((same c).mp hc) other).resolve_left ?_) p ?_ reachable)
      · simp
      · exact (d.preds c p (d.order.inBounds c (closed.reachable c ((same c).mp hc)))).mpr edge
    · rw [closing, same]
      refine and_congr_right fun edge => ⟨fun ⟨reachable, above⟩ => ?_, fun mem => ?_⟩
      · exact sources p ((closing p).mpr ⟨edge, reachable, above⟩)
      · exact ⟨closed.reachable p mem, closed.below p mem⟩
    · exact (same p).mpr (sources p ((closing p).mpr ⟨edge, reachable, above⟩))
    · simp only [List.mem_filter, d.preds b p inBounds, Bool.and_eq_true, Bool.not_eq_true',
        List.contains_eq_mem, decide_eq_false_iff_not, d.isReachable_iff]
      exact ⟨fun ⟨edge, out, reachable⟩ => ⟨reachable, edge, out⟩,
        fun ⟨reachable, edge, out⟩ => ⟨edge, out, reachable⟩⟩

/-- The loops found in a procedure are natural ones. -/
theorem loops_natural (d : g.Describes f) {l : Loop} (hl : l ∈ g.loops f) : l.IsNatural g f := by
  obtain ⟨b, hb, found⟩ := List.mem_filterMap.mp hl
  exact (loopAt_isNatural d hb found).2

/-- The headers of the loops stand in the order of the blocks. -/
theorem loops_ordered (d : g.Describes f) :
    (g.loops f).Pairwise fun l m => g.order.idxOf l.header < g.order.idxOf m.header := by
  have positions : g.order.Pairwise fun b c => g.order.idxOf b < g.order.idxOf c := by
    rw [List.pairwise_iff_getElem]
    intro i j hi hj lt
    rwa [d.order.nodup.idxOf_getElem, d.order.nodup.idxOf_getElem]
  rw [loops, List.pairwise_filterMap]
  refine positions.imp_of_mem fun {b c} hb hc lt l found m found' => ?_
  rwa [(loopAt_isNatural d hb found).1, (loopAt_isNatural d hc found').1]

end FlowGraph

namespace Loop.IsNatural

variable {f : Procedure} {g : FlowGraph} {l : Loop} {r t : BlockId}

/-- The flow graph alone decides whether a loop is natural. -/
theorem of_describes {f' : Procedure} (h : l.IsNatural g f) (d : g.Describes f)
    (d' : g.Describes f') : l.IsNatural g f' := by
  have edges : ∀ b ∈ l.body, ∀ p, b ∈ f'.successors p ↔ b ∈ f.successors p := by
    intro b hb p
    have reachable := h.reachable b hb
    rw [← d'.preds b p (d'.order.inBounds b reachable), d.preds b p (d.order.inBounds b reachable)]
  refine ⟨h.header_mem, h.reachable, h.below, fun b hb ne p hp edge => ?_, fun p => ?_,
    fun p hp edge => ?_, fun p => ?_⟩
  · exact h.closed b hb ne p hp ((edges b hb p).mp edge)
  · rw [edges _ h.header_mem, h.back]
  · exact h.latched p hp ((edges _ h.header_mem p).mp edge)
  · rw [edges _ h.header_mem, h.enter]

/-- A block of the loop other than the header has a predecessor in the loop that comes before it. -/
theorem earlier_pred (h : l.IsNatural g f) (d : g.Describes f) {t : BlockId} (ht : t ∈ l.body)
    (ne : t ≠ l.header) :
    ∃ p ∈ l.body, t ∈ f.successors p ∧ g.order.idxOf p < g.order.idxOf t := by
  obtain ⟨before, after, split⟩ := List.append_of_mem (h.reachable t ht)
  rcases d.order.led before t after split with root | ⟨p, hp, edge⟩
  · refine absurd ?_ ne
    subst root
    exact d.above_antisymm (d.entry_above (h.reachable _ h.header_mem)) (h.below _ ht)
  · have reachable : p ∈ g.order := by simp [split, hp]
    refine ⟨p, h.closed t ht ne p reachable edge, edge, ?_⟩
    have lt := FlowGraph.idxOf_lt_of_mem_before (split ▸ d.order.nodup) hp
    rwa [← split] at lt

/-- The loop holds every block between its header and one of its blocks. -/
theorem convex (h : l.IsNatural g f) (d : g.Describes f) (ht : t ∈ l.body) (below : g.Above l.header r)
    (above : g.Above r t) : r ∈ l.body := by
  induction hn : g.order.idxOf t using Nat.strong_induction_on generalizing t with
  | _ n ih =>
    by_cases own : r = t
    · exact own ▸ ht
    · have ne : t ≠ l.header := fun same => own (d.above_antisymm above (same ▸ below))
      obtain ⟨p, hp, edge, lt⟩ := h.earlier_pred d ht ne
      exact ih _ (hn ▸ lt) hp
        (d.above_pred (h.reachable p hp) edge (h.reachable t ht) above own) rfl

/-- What lies above a block of the loop and outside of the loop lies strictly above the header. -/
theorem above_header (h : l.IsNatural g f) (d : g.Describes f) (ht : t ∈ l.body) (above : g.Above r t)
    (out : r ∉ l.body) : g.Above r l.header ∧ r ≠ l.header := by
  refine ⟨?_, fun same => out (same ▸ h.header_mem)⟩
  rcases above.comparable (h.below t ht) with upper | lower
  · exact upper
  · exact absurd (h.convex d ht lower above) out

/-- What lies above a block of the loop and outside of the loop lies above every block that enters
it. -/
theorem above_preheader (h : l.IsNatural g f) (d : g.Describes f) {r t p : BlockId}
    (ht : t ∈ l.body) (above : g.Above r t) (out : r ∉ l.body) (hp : p ∈ l.preheaders) :
    g.Above r p := by
  obtain ⟨reachable, edge, -⟩ := (h.enter p).mp hp
  obtain ⟨upper, ne⟩ := h.above_header d ht above out
  exact d.above_pred reachable edge (h.reachable _ h.header_mem) upper ne

/-- What enters a loop does not lie below its header. -/
theorem not_above_preheader (h : l.IsNatural g f) {p : BlockId} (hp : p ∈ l.preheaders) :
    ¬g.Above l.header p := by
  obtain ⟨reachable, edge, out⟩ := (h.enter p).mp hp
  exact fun above => out (h.latched p reachable edge above)

end Loop.IsNatural

end Rangefinder
