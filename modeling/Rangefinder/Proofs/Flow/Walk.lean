import Mathlib.Algebra.BigOperators.Group.Finset.Basic
import Rangefinder.Flow.Graph

/-!
# The depth-first walk

`Procedure.reversePostorder` lists the blocks in the reverse of the order in which a depth-first
walk leaves them. The walk is a loop over a stack, and the claim about it is a statement about one
list: the blocks on the stack from the bottom up, followed by the blocks already left. A block that
is left moves from one part of that list to the other without changing its place, and a block that
is entered is put between the two parts, after the block that leads to it. So the list always
starts with the entry, has no block twice, and has a predecessor of every other block before it.

The number of steps that the walk is given is enough: each step either takes one untried successor
off the stack or leaves a block, and both were counted when the block was entered.
-/

namespace Rangefinder

/-- The ways to cut a list at one of its elements, when an element was put into the list: the cut
lies behind that element, at it, or before it. -/
theorem split_insert {α : Type} {front back before after : List α} {s b : α}
    (split : front ++ s :: back = before ++ b :: after) :
    (∃ mid, before = front ++ s :: mid ∧ back = mid ++ b :: after) ∨
      (before = front ∧ b = s ∧ after = back) ∨
      ∃ mid, front = before ++ b :: mid ∧ after = mid ++ s :: back := by
  rcases List.append_eq_append_iff.mp split with ⟨mid, rfl, tail⟩ | ⟨mid, rfl, tail⟩
  · cases mid with
    | nil => simp_all
    | cons c mid =>
      obtain ⟨rfl, rfl⟩ := List.cons.inj tail
      exact .inl ⟨mid, rfl, rfl⟩
  · cases mid with
    | nil => simp_all
    | cons c mid =>
      obtain ⟨rfl, rfl⟩ := List.cons.inj tail
      exact .inr (.inr ⟨mid, rfl, rfl⟩)

namespace Procedure

variable {f : Procedure} {stack : List (BlockId × List BlockId)} {seen left : List BlockId} {b s : BlockId}
  {rest : List BlockId}

/-- Only blocks that exist have successors. -/
theorem lt_size_of_mem_successors (h : s ∈ f.successors b) : b < f.blocks.size := by
  by_contra absent
  simp [successors, Array.getElem?_eq_none (Nat.le_of_not_lt absent)] at h

/-- Every block carries its own position. -/
def BlocksNumbered (f : Procedure) : Prop :=
  ∀ (b : BlockId) (block : Block), f.blocks[b]? = some block → block.id = b

/-- Erasing repetitions leaves none. -/
theorem nodup_eraseDups (l : List BlockId) : l.eraseDups.Nodup := by
  induction hn : l.length using Nat.strong_induction_on generalizing l with
  | _ n ih =>
    cases l with
    | nil => exact List.nodup_nil
    | cons b rest =>
      have shorter := List.length_filter_le (fun c => !c == b) rest
      rw [List.eraseDups_cons, List.nodup_cons]
      refine ⟨by simp, ih _ ?_ _ rfl⟩
      rw [← hn, List.length_cons]
      omega

/-- The predecessors of a block are the blocks it is a successor of. -/
theorem mem_predecessors (numbered : f.BlocksNumbered) {b p : BlockId} :
    p ∈ f.predecessors b ↔ b ∈ f.successors p := by
  simp only [predecessors, List.mem_eraseDups, List.mem_map, List.mem_filter,
    Array.mem_toList_iff, List.contains_iff_mem, Array.mem_iff_getElem?]
  constructor
  · rintro ⟨block, ⟨⟨i, hi⟩, edge⟩, rfl⟩
    rw [numbered i block hi, successors, hi]
    exact edge
  · intro edge
    have lt := lt_size_of_mem_successors edge
    have hp : f.blocks[p]? = some f.blocks[p] := Array.getElem?_eq_getElem lt
    rw [successors, hp] at edge
    exact ⟨f.blocks[p], ⟨⟨p, hp⟩, edge⟩, numbered p _ hp⟩

/-- Every block of the list is the entry or has a predecessor before it. -/
def IsLed (f : Procedure) (blocks : List BlockId) : Prop :=
  ∀ before b after, blocks = before ++ b :: after → b = f.entry ∨ ∃ p ∈ before, b ∈ f.successors p

/-- A block may be put anywhere behind one of its predecessors. -/
theorem IsLed.insert {front back : List BlockId} {p s : BlockId} (h : f.IsLed (front ++ back))
    (hp : p ∈ front) (hs : s ∈ f.successors p) : f.IsLed (front ++ s :: back) := by
  intro before b after split
  rcases split_insert split with ⟨mid, rfl, rfl⟩ | ⟨rfl, rfl, rfl⟩ | ⟨mid, rfl, rfl⟩
  · rcases h (front ++ mid) b after (by simp) with rfl | ⟨q, hq, hb⟩
    · exact .inl rfl
    · refine .inr ⟨q, ?_, hb⟩
      rcases List.mem_append.mp hq with hq | hq <;> simp [hq]
  · exact .inr ⟨p, hp, hs⟩
  · exact h before b (mid ++ back) (by simp)

/-- What holds during a walk, with the blocks of the stack from the bottom up followed by the
blocks left. -/
structure WalkInvariant (f : Procedure) (stack : List (BlockId × List BlockId))
    (seen left : List BlockId) : Prop where
  entered : ∀ b, b ∈ seen ↔ b ∈ (stack.map Prod.fst).reverse ++ left
  nodup : ((stack.map Prod.fst).reverse ++ left).Nodup
  first : ((stack.map Prod.fst).reverse ++ left).head? = some f.entry
  led : f.IsLed ((stack.map Prod.fst).reverse ++ left)
  inBounds : ∀ b ∈ seen, b < f.blocks.size
  untried : ∀ entry ∈ stack, ∀ s ∈ entry.2, s ∈ f.successors entry.1
  tried : ∀ entry ∈ stack, ∀ s ∈ f.successors entry.1, s < f.blocks.size → s ∈ entry.2 ∨ s ∈ seen
  closed : ∀ b ∈ left, ∀ s ∈ f.successors b, s < f.blocks.size → s ∈ seen

namespace WalkInvariant

/-- Leaving a block keeps the invariant. -/
theorem leave (h : f.WalkInvariant ((b, []) :: stack) seen left) :
    f.WalkInvariant stack seen (b :: left) where
  entered c := by simpa using h.entered c
  nodup := by simpa using h.nodup
  first := by simpa using h.first
  led := by simpa using h.led
  inBounds := h.inBounds
  untried e he := h.untried e (List.mem_cons_of_mem _ he)
  tried e he := h.tried e (List.mem_cons_of_mem _ he)
  closed c hc s hs lt := by
    rcases List.mem_cons.mp hc with rfl | hc
    · simpa using h.tried _ List.mem_cons_self s hs lt
    · exact h.closed c hc s hs lt

/-- Entering a successor of the block on top of the stack keeps the invariant. -/
theorem enter (h : f.WalkInvariant ((b, s :: rest) :: stack) seen left) (lt : s < f.blocks.size)
    (new : s ∉ seen) :
    f.WalkInvariant ((s, f.successors s) :: (b, rest) :: stack) (s :: seen) left where
  entered c := by
    have := h.entered c
    simp only [List.map_cons, List.reverse_cons, List.append_assoc, List.mem_append] at this ⊢
    simp only [List.mem_cons, this, List.not_mem_nil, or_false]
    tauto
  nodup := by
    have fresh := mt (h.entered s).mpr new
    have := h.nodup
    simp only [List.map_cons, List.reverse_cons, List.append_assoc, List.nodup_append,
      List.mem_append, List.singleton_append, List.mem_cons, List.nodup_cons] at this fresh ⊢
    grind
  first := by simpa using h.first
  led := by
    have edge := h.untried _ List.mem_cons_self s List.mem_cons_self
    have := IsLed.insert (s := s) h.led (p := b) (by simp) edge
    simpa using this
  inBounds c hc := by
    rcases List.mem_cons.mp hc with rfl | hc
    · exact lt
    · exact h.inBounds c hc
  untried e he t ht := by
    rcases List.mem_cons.mp he with rfl | he
    · exact ht
    rcases List.mem_cons.mp he with rfl | he
    · exact h.untried (b, s :: rest) List.mem_cons_self t (List.mem_cons_of_mem _ ht)
    · exact h.untried e (List.mem_cons_of_mem _ he) t ht
  tried e he t ht tlt := by
    rcases List.mem_cons.mp he with rfl | he
    · exact .inl ht
    rcases List.mem_cons.mp he with rfl | he
    · rcases h.tried (b, s :: rest) List.mem_cons_self t ht tlt with mem | mem
      · rcases List.mem_cons.mp mem with rfl | mem
        · exact .inr List.mem_cons_self
        · exact .inl mem
      · exact .inr (List.mem_cons_of_mem _ mem)
    · exact (h.tried e (List.mem_cons_of_mem _ he) t ht tlt).imp_right (List.mem_cons_of_mem _)
  closed c hc t ht tlt := List.mem_cons_of_mem _ (h.closed c hc t ht tlt)

/-- Passing over a successor that was entered before, or names no block, keeps the invariant. -/
theorem pass (h : f.WalkInvariant ((b, s :: rest) :: stack) seen left)
    (old : ¬(s < f.blocks.size ∧ s ∉ seen)) :
    f.WalkInvariant ((b, rest) :: stack) seen left where
  entered := h.entered
  nodup := h.nodup
  first := h.first
  led := h.led
  inBounds := h.inBounds
  untried e he t ht := by
    rcases List.mem_cons.mp he with rfl | he
    · exact h.untried (b, s :: rest) List.mem_cons_self t (List.mem_cons_of_mem _ ht)
    · exact h.untried e (List.mem_cons_of_mem _ he) t ht
  tried e he t ht tlt := by
    rcases List.mem_cons.mp he with rfl | he
    · rcases h.tried (b, s :: rest) List.mem_cons_self t ht tlt with mem | mem
      · rcases List.mem_cons.mp mem with rfl | mem
        · exact .inr (by_contra fun new => old ⟨tlt, new⟩)
        · exact .inl mem
      · exact .inr mem
    · exact h.tried e (List.mem_cons_of_mem _ he) t ht tlt
  closed := h.closed

end WalkInvariant

/-- What the blocks that are still to be entered will cost: one step for each successor and one to
leave the block. -/
def unseenCost (f : Procedure) (seen : List BlockId) : Nat :=
  ∑ b ∈ Finset.range f.blocks.size \ seen.toFinset, ((f.successors b).length + 1)

/-- What the blocks on the stack still cost. -/
def stackCost : List (BlockId × List BlockId) → Nat
  | [] => 0
  | entry :: stack => entry.2.length + 1 + stackCost stack

/-- Entering a block moves its cost to the stack. -/
theorem unseenCost_cons (lt : s < f.blocks.size) (new : s ∉ seen) :
    f.unseenCost (s :: seen) + ((f.successors s).length + 1) = f.unseenCost seen := by
  have mem : s ∈ Finset.range f.blocks.size \ seen.toFinset := by simp [lt, new]
  have split := Finset.add_sum_erase _ (fun b => (f.successors b).length + 1) mem
  have erased : Finset.range f.blocks.size \ (s :: seen).toFinset =
      (Finset.range f.blocks.size \ seen.toFinset).erase s := by
    ext b
    simp only [Finset.mem_sdiff, Finset.mem_erase, List.mem_toFinset, List.mem_cons, not_or]
    tauto
  rw [unseenCost, unseenCost, erased, Nat.add_comm]
  exact split

/-- The steps that a walk is given pay for every block. -/
theorem walkSteps_eq (f : Procedure) :
    f.walkSteps = ∑ b ∈ Finset.range f.blocks.size, ((f.successors b).length + 1) := by
  have total : ∀ (blocks : List Block) (n : Nat),
      blocks.foldl (fun steps block => steps + block.terminator.successors.length + 1) n =
        n + (blocks.map fun block => block.terminator.successors.length + 1).sum := by
    intro blocks
    induction blocks with
    | nil => simp
    | cons block rest ih =>
      intro n
      rw [List.foldl_cons, ih, List.map_cons, List.sum_cons]
      omega
  have each : (f.blocks.toList.map fun block => block.terminator.successors.length + 1) =
      (List.range f.blocks.size).map fun b => (f.successors b).length + 1 := by
    apply List.ext_getElem
    · simp
    · intro b h _
      have lt : b < f.blocks.size := by simpa using h
      simp [successors, lt]
  rw [walkSteps, total, each, Nat.zero_add]
  rfl

/-- A walk that is given enough steps empties its stack: what each of the three steps keeps holds of
the blocks left at its end. -/
theorem walk_induction (holds : List (BlockId × List BlockId) → List BlockId → List BlockId → Prop)
    (leave : ∀ b stack seen left, holds ((b, []) :: stack) seen left → holds stack seen (b :: left))
    (enter : ∀ b s rest stack seen left, s < f.blocks.size → s ∉ seen →
      holds ((b, s :: rest) :: stack) seen left →
      holds ((s, f.successors s) :: (b, rest) :: stack) (s :: seen) left)
    (pass : ∀ b s rest stack seen left, ¬(s < f.blocks.size ∧ s ∉ seen) →
      holds ((b, s :: rest) :: stack) seen left → holds ((b, rest) :: stack) seen left)
    {steps : Nat} (start : holds stack seen left)
    (enough : stackCost stack + f.unseenCost seen ≤ steps) :
    ∃ entered, holds [] entered (f.walk steps stack seen left) := by
  fun_induction walk f steps stack seen left with
  | case1 stack seen left =>
    cases stack with
    | nil => exact ⟨seen, start⟩
    | cons entry stack => simp [stackCost] at enough
  | case2 => exact ⟨_, start⟩
  | case3 steps b stack seen left ih =>
    refine ih (leave b stack seen left start) ?_
    simp only [stackCost, List.length_nil] at enough ⊢
    omega
  | case4 steps b s rest stack seen left new ih =>
    refine ih (enter b s rest stack seen left new.1 new.2 start) ?_
    have := unseenCost_cons (f := f) new.1 new.2
    simp only [stackCost, List.length_cons] at enough ⊢
    omega
  | case5 steps b s rest stack seen left old ih =>
    refine ih (pass b s rest stack seen left old start) ?_
    simp only [stackCost, List.length_cons] at enough ⊢
    omega

/-- The invariant holds when a walk starts. -/
theorem walkInvariant_start (inside : f.entry < f.blocks.size) :
    f.WalkInvariant [(f.entry, f.successors f.entry)] [f.entry] [] := by
  constructor <;> simp +contextual [IsLed, List.cons_eq_append_iff, inside]

/-- The steps that a walk is given are enough for it. -/
theorem walkSteps_enough (inside : f.entry < f.blocks.size) :
    stackCost [(f.entry, f.successors f.entry)] + f.unseenCost [f.entry] ≤ f.walkSteps := by
  have entering := @unseenCost_cons f [] f.entry inside (by simp)
  have all : f.unseenCost [] = f.walkSteps := by simp [unseenCost, walkSteps_eq]
  simp only [stackCost]
  omega

/-- The order is what the walk from the entry leaves behind. -/
theorem reversePostorder_eq (inside : f.entry < f.blocks.size) : f.reversePostorder =
    .ok (f.walk f.walkSteps [(f.entry, f.successors f.entry)] [f.entry] []) := by
  have nonempty : f.blocks ≠ #[] := by
    rintro none
    simp [none] at inside
  simp [reversePostorder, nonempty, inside]

/-- What the reverse postorder of a procedure with an entry is: a list of blocks without
repetition that starts with the entry, is closed under successors, and has a predecessor of every
other block before it. -/
structure IsReversePostorder (f : Procedure) (order : List BlockId) : Prop where
  nodup : order.Nodup
  first : order.head? = some f.entry
  led : f.IsLed order
  inBounds : ∀ b ∈ order, b < f.blocks.size
  closed : ∀ b ∈ order, ∀ s ∈ f.successors b, s < f.blocks.size → s ∈ order

/-- The walk from the entry finds such an order. -/
theorem reversePostorder_spec (h : f.entry < f.blocks.size) :
    ∃ order, f.reversePostorder = .ok order ∧ f.IsReversePostorder order := by
  obtain ⟨entered, done⟩ := walk_induction f.WalkInvariant (fun _ _ _ _ h => h.leave)
    (fun _ _ _ _ _ _ lt new h => h.enter lt new) (fun _ _ _ _ _ _ old h => h.pass old)
    (walkInvariant_start h) (walkSteps_enough h)
  refine ⟨_, reversePostorder_eq h, ?_⟩
  have same : ∀ b, b ∈ entered ↔ b ∈ f.walk f.walkSteps [(f.entry, f.successors f.entry)]
      [f.entry] [] := by simpa using done.entered
  exact
    { nodup := by simpa using done.nodup
      first := by simpa using done.first
      led := by simpa using done.led
      inBounds := fun b hb => done.inBounds b ((same b).mpr hb)
      closed := fun b hb s hs lt => (same s).mp (done.closed b hb s hs lt) }

end Procedure

end Rangefinder
