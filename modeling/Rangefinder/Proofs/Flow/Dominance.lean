import Mathlib.Data.Finset.Card
import Rangefinder.Flow.Dominators
import Rangefinder.Proofs.Flow.Walk
import Rangefinder.Proofs.Outcome

/-!
# The tree of immediate dominators

`FlowGraph.build` finds an immediate dominator for every reachable block but the entry. What the
rest of the theory needs of it is stated once, as `FlowGraph.Describes`: the immediate dominator of
a block comes before it in the reverse postorder, and it lies above every predecessor of the block
in the tree. From the second fact follows the rule by which availability spreads through the
procedure: whatever lies strictly above a block lies above each of its predecessors.

The iteration that finds the tree works on a partial tree. Meeting two blocks climbs from both of
them until the climbs agree, so its result lies above both whatever the partial tree is; that the
tree grows downwards from the entry is the invariant of the iteration, and that the last pass
changes nothing turns the climbs from the predecessors into facts about the final tree.
-/

namespace Rangefinder

namespace FlowGraph

/-- Block `a` is `b` or is reached by climbing from it in a partial tree. -/
inductive Climbs (idoms : Array (Option BlockId)) (a : BlockId) : BlockId → Prop
  | refl : Climbs idoms a a
  | up {b d : BlockId} (parent : idoms[b]? = some (some d)) (rest : Climbs idoms a d) :
    Climbs idoms a b

/-- The block has a parent in a partial tree. -/
def IsKnown (idoms : Array (Option BlockId)) (b : BlockId) : Prop :=
  ∃ d, idoms[b]? = some (some d)

/-- A partial tree that grows downwards from the entry: parents are known, and they come earlier
in the order. -/
structure IsPartialTree (order : List BlockId) (entry : BlockId) (idoms : Array (Option BlockId)) :
    Prop where
  room : ∀ b ∈ order, b < idoms.size
  root : idoms[entry]? = some (some entry)
  member : ∀ b, IsKnown idoms b → b ∈ order
  parent : ∀ b d : BlockId, idoms[b]? = some (some d) → IsKnown idoms d
  earlier : ∀ b d : BlockId, idoms[b]? = some (some d) → b ≠ entry → order.idxOf d < order.idxOf b

/-- Climbs compose. -/
theorem Climbs.trans {idoms : Array (Option BlockId)} {a b c : BlockId} (hab : Climbs idoms a b)
    (hbc : Climbs idoms b c) : Climbs idoms a c := by
  induction hbc with
  | refl => exact hab
  | up parent _ ih => exact .up parent ih

/-- A climb to another block goes through the parent. -/
theorem Climbs.of_parent {idoms : Array (Option BlockId)} {a b d : BlockId}
    (climb : Climbs idoms a b) (ne : a ≠ b) (parent : idoms[b]? = some (some d)) :
    Climbs idoms a d := by
  cases climb with
  | refl => exact absurd rfl ne
  | up parent' rest =>
    obtain rfl := Option.some.inj (Option.some.inj (parent.symm.trans parent'))
    exact rest

namespace IsPartialTree

variable {order : List BlockId} {entry : BlockId} {idoms : Array (Option BlockId)}
  {places : Array (Option Nat)} {a b : BlockId}

/-- Climbing stays among known blocks. -/
theorem known_of_climbs (tree : IsPartialTree order entry idoms) (known : IsKnown idoms b)
    (h : Climbs idoms a b) : IsKnown idoms a := by
  induction h with
  | refl => exact known
  | up parent _ ih => exact ih (tree.parent _ _ parent)

/-- Climbing never goes forward in the order. -/
theorem idxOf_le_of_climbs (tree : IsPartialTree order entry idoms) (h : Climbs idoms a b) :
    order.idxOf a ≤ order.idxOf b := by
  induction h with
  | refl => exact Nat.le_refl _
  | @up b d parent rest ih =>
    by_cases hb : b = entry
    · have : some (some d) = some (some entry) := by rw [← parent, hb, tree.root]
      rw [hb, ← Option.some.inj (Option.some.inj this)]
      exact ih
    · exact Nat.le_trans ih (Nat.le_of_lt (tree.earlier b d parent hb))

/-- The closest common dominator of two known blocks lies above both. -/
theorem climbs_of_meet (tree : IsPartialTree order entry idoms) {steps : Nat} {a b c : BlockId}
    (ha : IsKnown idoms a) (hb : IsKnown idoms b)
    (h : meet places idoms entry steps a b = .ok c) : Climbs idoms c a ∧ Climbs idoms c b := by
  induction steps generalizing a b with
  | zero => simp [meet] at h
  | succ steps ih =>
    obtain ⟨da, pa⟩ := ha
    obtain ⟨db, pb⟩ := hb
    simp only [meet, pa, pb, Option.join_some, Option.getD_some] at h
    split at h
    · next same =>
      obtain rfl : a = c := by simpa using h
      subst same
      exact ⟨.refl, .refl⟩
    · split at h
      · obtain ⟨left, right⟩ := ih (tree.parent a da pa) ⟨db, pb⟩ h
        exact ⟨.up pa left, right⟩
      · obtain ⟨left, right⟩ := ih ⟨da, pa⟩ (tree.parent b db pb) h
        exact ⟨left, .up pb right⟩

/-- The closest common dominator of the known blocks of a list lies above all of them. -/
theorem climbs_of_meetAll (tree : IsPartialTree order entry idoms) {blocks : List BlockId}
    {found result : Option BlockId} (known : ∀ q ∈ found, IsKnown idoms q)
    (h : meetAll places idoms entry blocks found = .ok result) :
    (∀ c ∈ result, IsKnown idoms c) ∧ (∀ q ∈ found, ∃ c ∈ result, Climbs idoms c q) ∧
      ∀ p ∈ blocks, IsKnown idoms p → ∃ c ∈ result, Climbs idoms c p := by
  induction blocks generalizing found with
  | nil =>
    obtain rfl : found = result := by simpa [meetAll] using h
    exact ⟨known, fun q hq => ⟨q, hq, .refl⟩, by simp⟩
  | cons p rest ih =>
    rw [meetAll] at h
    split at h
    · simp at h
    · next unknown =>
      obtain ⟨ofResult, ofFound, ofRest⟩ := ih known h
      refine ⟨ofResult, ofFound, fun q hq hk => ?_⟩
      rcases List.mem_cons.mp hq with rfl | hq
      · obtain ⟨d, hd⟩ := hk
        simp [unknown] at hd
      · exact ofRest q hq hk
    · next d parent =>
      have kp : IsKnown idoms p := ⟨d, parent⟩
      -- The new candidate lies above the old one and above `p`.
      obtain ⟨next, hn, above, ofP, h⟩ : ∃ next, IsKnown idoms next ∧
          (∀ q ∈ found, Climbs idoms next q) ∧ Climbs idoms next p ∧
          meetAll places idoms entry rest (some next) = .ok result := by
        cases found with
        | none => exact ⟨p, kp, by simp, .refl, by simpa using h⟩
        | some q =>
          obtain ⟨next, step, h⟩ := bind_eq_ok.mp h
          obtain ⟨left, right⟩ := tree.climbs_of_meet kp (known q rfl) step
          exact ⟨next, tree.known_of_climbs kp left, by rintro _ ⟨⟩; exact right, left, h⟩
      obtain ⟨ofResult, ofNext, ofRest⟩ := ih (by rintro _ ⟨⟩; exact hn) h
      obtain ⟨c, hc, climb⟩ := ofNext next rfl
      refine ⟨ofResult, fun q hq => ⟨c, hc, climb.trans (above q hq)⟩, fun q hq hk => ?_⟩
      rcases List.mem_cons.mp hq with rfl | hq
      · exact ⟨c, hc, climb.trans ofP⟩
      · exact ofRest q hq hk

/-- Giving a block a parent makes no other block unknown. -/
theorem known_set {b c x : BlockId} (known : IsKnown idoms x) :
    IsKnown (idoms.setIfInBounds b (some c)) x := by
  obtain ⟨d, hd⟩ := known
  obtain ⟨bound, -⟩ := Array.getElem?_eq_some_iff.mp hd
  by_cases h : b = x
  · exact ⟨c, by simp [h, bound]⟩
  · exact ⟨d, by simp [h, hd]⟩

/-- After a block was given a parent, the other blocks have those that they had. -/
theorem parent_set {b c x d : BlockId}
    (parent : (idoms.setIfInBounds b (some c))[x]? = some (some d)) :
    x = b ∧ d = c ∨ x ≠ b ∧ idoms[x]? = some (some d) := by
  rw [Array.getElem?_setIfInBounds] at parent
  split at parent
  · next same => split at parent <;> simp_all
  · next other => exact .inr ⟨Ne.symm other, parent⟩

/-- A block may take a known block that comes earlier as its parent. -/
theorem set (tree : IsPartialTree order entry idoms) {b c : BlockId} (hb : b ∈ order)
    (ne : b ≠ entry) (known : IsKnown idoms c) (lt : order.idxOf c < order.idxOf b) :
    IsPartialTree order entry (idoms.setIfInBounds b (some c)) := by
  constructor
  · simpa using tree.room
  · simp [ne, tree.root]
  · rintro x ⟨d, h⟩
    rcases parent_set h with ⟨rfl, -⟩ | ⟨-, h⟩
    · exact hb
    · exact tree.member x ⟨d, h⟩
  · intro x d h
    rcases parent_set h with ⟨-, rfl⟩ | ⟨-, h⟩
    · exact known_set known
    · exact known_set (tree.parent x d h)
  · intro x d h hx
    rcases parent_set h with ⟨rfl, rfl⟩ | ⟨-, h⟩
    · exact lt
    · exact tree.earlier x d h hx

end IsPartialTree

/-- A block of a list has a place in it. -/
theorem idxOf?_of_mem {order : List BlockId} {b : BlockId} (hb : b ∈ order) :
    order.idxOf? b = some (order.idxOf b) := by
  cases found : order.idxOf? b with
  | none => exact absurd hb (List.idxOf?_eq_none_iff.mp found)
  | some i => rw [List.idxOf_eq_getD_idxOf?, found, Option.getD_some]

/-- In a list without repetition, what stands before a block has a smaller place. -/
theorem idxOf_lt_of_mem_before {before after : List BlockId} {p b : BlockId}
    (nodup : (before ++ b :: after).Nodup) (hp : p ∈ before) :
    (before ++ b :: after).idxOf p < (before ++ b :: after).idxOf b := by
  have fresh : b ∉ before := fun hb => (List.nodup_append.mp nodup).2.2 b hb b (by simp) rfl
  simp only [List.idxOf_append, hp, fresh, if_true, if_false, List.idxOf_cons_self, Nat.zero_add]
  exact List.idxOf_lt_length_iff.mpr hp

variable {f : Procedure} {preds : Array (List BlockId)} {places : Array (Option Nat)} {order : List BlockId}
  {entry : BlockId} {rest : List BlockId} {g : FlowGraph}

/-- One pass keeps the partial tree and makes every block known. -/
theorem improve_tree {order before rest : List BlockId} {idoms result : Array (Option BlockId)}
    {changed more : Bool} (hf : f.IsReversePostorder order)
    (complete : ∀ b ∈ order, ∀ p, b ∈ f.successors p → p ∈ preds[b]?.getD [])
    (split : order = before ++ rest) (started : f.entry ∈ before)
    (tree : IsPartialTree order f.entry idoms) (known : ∀ b ∈ before, IsKnown idoms b)
    (h : improve preds places f.entry rest (idoms, changed) = .ok (result, more)) :
    IsPartialTree order f.entry result ∧ ∀ b ∈ order, IsKnown result b := by
  induction rest generalizing before idoms changed with
  | nil =>
    obtain ⟨rfl, -⟩ : idoms = result ∧ changed = more := by simpa [improve] using h
    exact ⟨tree, by simpa [split] using known⟩
  | cons b rest ih =>
    rw [improve, bind_eq_ok] at h
    obtain ⟨found, meeting, h⟩ := h
    have nodup : (before ++ b :: rest).Nodup := split ▸ hf.nodup
    have hb : b ∈ order := by simp [split]
    have ne : b ≠ f.entry := by
      rintro rfl
      exact (List.nodup_append.mp nodup).2.2 _ started _ (by simp) rfl
    obtain ⟨p, hp, edge⟩ := (hf.led before b rest split).resolve_left ne
    obtain ⟨ofResult, -, ofPreds⟩ := tree.climbs_of_meetAll (by simp) meeting
    obtain ⟨c, rfl, climb⟩ := ofPreds p (complete b hb p edge) (known p hp)
    have lt : order.idxOf c < order.idxOf b := by
      refine Nat.lt_of_le_of_lt (tree.idxOf_le_of_climbs climb) ?_
      subst split
      exact idxOf_lt_of_mem_before nodup hp
    have next := split.trans (List.append_cons before b rest)
    by_cases new : (idoms[b]?).join ≠ some c
    · rw [if_pos ⟨rfl, new⟩] at h
      have tree' := tree.set hb ne (ofResult c rfl) lt
      refine ih next (List.mem_append_left _ started) tree' (fun x hx => ?_) h
      rcases List.mem_append.mp hx with hx | hx
      · exact IsPartialTree.known_set (known x hx)
      · obtain rfl := List.mem_singleton.mp hx
        exact ⟨c, by simp [tree.room x hb]⟩
    · rw [if_neg (fun both => new both.2)] at h
      refine ih next (List.mem_append_left _ started) tree (fun x hx => ?_) h
      rcases List.mem_append.mp hx with hx | hx
      · exact known x hx
      · obtain rfl := List.mem_singleton.mp hx
        exact ⟨c, Option.join_eq_some_iff.mp (not_not.mp new)⟩

/-- A pass that has changed something says so at the end. -/
theorem improve_changed {idoms result : Array (Option BlockId)} {more : Bool}
    (h : improve preds places entry rest (idoms, true) = .ok (result, more)) :
    more = true := by
  induction rest generalizing idoms with
  | nil => simp_all [improve]
  | cons b rest ih =>
    rw [improve, bind_eq_ok] at h
    obtain ⟨found, -, h⟩ := h
    split at h <;> exact ih h

/-- A pass that changes nothing finds the parent that each block has already. -/
theorem improve_settled {idoms result : Array (Option BlockId)}
    (h : improve preds places entry rest (idoms, false) = .ok (result, false)) :
    idoms = result ∧ ∀ b ∈ rest, ∃ found,
      meetAll places idoms entry (preds[b]?.getD []) none = .ok found ∧
        (found.isSome → (idoms[b]?).join = found) := by
  induction rest with
  | nil => simpa [improve] using h
  | cons b rest ih =>
    rw [improve, bind_eq_ok] at h
    obtain ⟨found, meeting, h⟩ := h
    split at h
    · exact absurd (improve_changed h) (by simp)
    · next same =>
      obtain ⟨rfl, ofRest⟩ := ih h
      refine ⟨rfl, fun x hx => ?_⟩
      rcases List.mem_cons.mp hx with rfl | hx
      · exact ⟨found, meeting, fun some => by_contra fun new => same ⟨some, new⟩⟩
      · exact ofRest x hx

/-- Block `a` is `b` or lies above it in the tree of immediate dominators. -/
def Above (g : FlowGraph) (a b : BlockId) : Prop := Climbs g.idoms a b

/-- What a flow graph says about a procedure. -/
structure Describes (g : FlowGraph) (f : Procedure) : Prop where
  order : f.IsReversePostorder g.order
  place : ∀ b, g.place b = g.order.idxOf? b
  size : g.preds.size = f.blocks.size
  preds : ∀ b p, b < f.blocks.size → (p ∈ g.predsOf b ↔ b ∈ f.successors p)
  distinct : ∀ b, (g.predsOf b).Nodup
  room : ∀ b ∈ g.order, b < g.idoms.size
  root : g.idom f.entry = none
  parent : ∀ b d, g.idom b = some d →
    b ∈ g.order ∧ d ∈ g.order ∧ g.order.idxOf d < g.order.idxOf b
  dominated : ∀ b ∈ g.order, b ≠ f.entry →
    ∃ d, g.idom b = some d ∧ ∀ p ∈ g.order, b ∈ f.successors p → g.Above d p

/-- A block has an immediate dominator when its entry in the array says so. -/
theorem idom_eq_some {b d : BlockId} :
    g.idom b = some d ↔ g.idoms[b]? = some (some d) := by
  rw [idom, Option.join_eq_some_iff]

/-- In the beginning the entry is the only block with a parent, which is the entry itself. -/
theorem parent_start {n : Nat} {entry b d : BlockId}
    (parent : ((Array.replicate n none).setIfInBounds entry (some entry))[b]? = some (some d)) :
    b = entry ∧ d = entry := by
  rcases IsPartialTree.parent_set parent with both | ⟨-, absent⟩
  · exact both
  · simp [Array.getElem?_replicate] at absent

/-- The iteration starts with a partial tree. -/
theorem isPartialTree_start (hf : f.IsReversePostorder order) (size : preds.size = f.blocks.size) :
    IsPartialTree order f.entry
      ((Array.replicate preds.size none).setIfInBounds f.entry (some f.entry)) := by
  have hentry : f.entry ∈ order := List.mem_of_mem_head? hf.first
  have root : ((Array.replicate preds.size none).setIfInBounds f.entry (some f.entry))[f.entry]? =
      some (some f.entry) := by
    simp [size, hf.inBounds f.entry hentry]
  constructor
  · intro b hb
    simpa [size] using hf.inBounds b hb
  · exact root
  · rintro b ⟨d, hb⟩
    exact (parent_start hb).1 ▸ hentry
  · intro b d hb
    exact ⟨f.entry, (parent_start hb).2 ▸ root⟩
  · intro b d hb ne
    exact absurd (parent_start hb).1 ne

/-- Taking the root's parent away changes no other parent. -/
theorem parent_dropRoot {idoms : Array (Option BlockId)} {entry b d : BlockId}
    (parent : (idoms.setIfInBounds entry none)[b]? = some (some d)) :
    b ≠ entry ∧ idoms[b]? = some (some d) := by
  rw [Array.getElem?_setIfInBounds] at parent
  split at parent
  · split at parent <;> simp at parent
  · next ne => exact ⟨Ne.symm ne, parent⟩

/-- What the iteration ends with: a partial tree in which every block is known, and in which the
parent of a block lies above its predecessors. -/
theorem immediateDominators_spec {idoms : Array (Option BlockId)} (hf : f.IsReversePostorder order)
    (size : preds.size = f.blocks.size)
    (complete : ∀ b ∈ order, ∀ p, b ∈ f.successors p → p ∈ preds[b]?.getD [])
    (h : immediateDominators preds order places f.entry = .ok idoms) :
    ∃ tree, IsPartialTree order f.entry tree ∧ (∀ b ∈ order, IsKnown tree b) ∧
      (∀ b ∈ order, b ≠ f.entry → ∃ d, tree[b]? = some (some d) ∧
        ∀ p, b ∈ f.successors p → IsKnown tree p → Climbs tree d p) ∧
      idoms = tree.setIfInBounds f.entry none := by
  simp only [immediateDominators, bind_eq_ok, pure_eq_ok] at h
  obtain ⟨tree, settled, rfl⟩ := h
  obtain ⟨rest, horder⟩ : ∃ rest, order = f.entry :: rest := by
    cases order with
    | nil => exact absurd hf.first (by simp)
    | cons b rest => exact ⟨rest, by simpa using hf.first⟩
  -- The partial tree is kept by every pass, and the first pass makes every block known.
  have start := isPartialTree_start hf size
  have split : order = [f.entry] ++ order.tail := by rw [horder]; rfl
  have pass : ∀ s t changed, IsPartialTree order f.entry s →
      improve preds places f.entry order.tail (s, false) = .ok (t, changed) →
      IsPartialTree order f.entry t ∧ ∀ b ∈ order, IsKnown t b := fun s t changed tree run =>
    improve_tree hf complete split (by simp) tree
      (fun b hb => ⟨f.entry, by rw [List.mem_singleton.mp hb]; exact tree.root⟩) run
  obtain ⟨last, tree, run⟩ := settle_invariant (IsPartialTree order f.entry)
    (fun s t changed tree run => (pass s t changed tree run).1) start settled
  obtain ⟨-, known⟩ := pass last _ false tree run
  obtain ⟨rfl, found⟩ := improve_settled run
  refine ⟨last, tree, known, fun b hb ne => ?_, rfl⟩
  have mem : b ∈ order.tail := by
    rw [horder] at hb ⊢
    exact (List.mem_cons.mp hb).resolve_left ne
  obtain ⟨result, meeting, same⟩ := found b mem
  obtain ⟨-, -, above⟩ := tree.climbs_of_meetAll (by simp) meeting
  obtain ⟨before, after, place⟩ := List.append_of_mem hb
  obtain ⟨p, hp, edge⟩ := (hf.led before b after place).resolve_left ne
  obtain ⟨d, rfl, -⟩ := above p (complete b hb p edge) (known p (by simp [place, hp]))
  refine ⟨d, Option.join_eq_some_iff.mp (same rfl), fun q hq kq => ?_⟩
  obtain ⟨_, ⟨⟩, climb⟩ := above q (complete b hb q hq) kq
  exact climb

/-- Taking the root's parent away changes no climb. -/
theorem IsPartialTree.climbs_dropRoot {idoms : Array (Option BlockId)}
    (tree : IsPartialTree order entry idoms) {a b : BlockId} (h : Climbs idoms a b) :
    Climbs (idoms.setIfInBounds entry none) a b := by
  induction h with
  | refl => exact .refl
  | @up b d parent _ ih =>
    by_cases hb : entry = b
    · have : some (some d) = some (some entry) := by rw [← parent, ← hb, tree.root]
      obtain rfl := Option.some.inj (Option.some.inj this)
      exact hb ▸ ih
    · exact .up (by simpa [hb] using parent) ih

/-- The flow graph of a procedure describes it. -/
theorem build_describes (numbered : f.BlocksNumbered) (hentry : f.entry < f.blocks.size)
    (h : build f = .ok g) : g.Describes f := by
  obtain ⟨order, horder, hf⟩ := Procedure.reversePostorder_spec hentry
  simp only [build, horder, bind_eq_ok, pure_eq_ok, Except.ok.injEq, exists_eq_left'] at h
  obtain ⟨idoms, found, rfl⟩ := h
  have predsAt : ∀ b, b < f.blocks.size →
      (((List.range f.blocks.size).map f.predecessors).toArray[b]?).getD [] = f.predecessors b := by
    intro b hb
    simp [hb]
  obtain ⟨tree, isTree, known, parents, rfl⟩ := immediateDominators_spec hf (by simp)
    (fun b hb p edge => by
      rw [predsAt b (hf.inBounds b hb)]
      exact (Procedure.mem_predecessors numbered).mpr edge) found
  constructor
  · exact hf
  · intro b
    by_cases hb : b < f.blocks.size
    · simp [place, hb]
    · rw [List.idxOf?_eq_none_iff.mpr fun mem => hb (hf.inBounds b mem)]
      simp [place, hb]
  · simp
  · intro b p hb
    rw [predsOf, predsAt b hb]
    exact Procedure.mem_predecessors numbered
  · intro b
    by_cases hb : b < f.blocks.size
    · rw [predsOf, predsAt b hb]
      exact Procedure.nodup_eraseDups _
    · simp [predsOf, hb]
  · simpa using isTree.room
  · rw [idom, Array.getElem?_setIfInBounds, if_pos rfl]
    split <;> rfl
  · intro b d hb
    obtain ⟨ne, parent⟩ := parent_dropRoot (idom_eq_some.mp hb)
    exact ⟨isTree.member b ⟨d, parent⟩, isTree.member d (isTree.parent b d parent),
      isTree.earlier b d parent ne⟩
  · intro b hb ne
    obtain ⟨d, parent, above⟩ := parents b hb ne
    exact ⟨d, idom_eq_some.mpr (by simpa [ne.symm] using parent), fun p hp edge =>
      isTree.climbs_dropRoot (above p edge (known p hp))⟩

namespace Above

variable {a b c : BlockId}

/-- Every block lies above itself. -/
theorem refl : g.Above a a := Climbs.refl

/-- Being above is transitive. -/
theorem trans (hab : g.Above a b) (hbc : g.Above b c) : g.Above a c := Climbs.trans hab hbc

/-- What lies strictly above a block lies above its immediate dominator. -/
theorem of_idom {d : BlockId} (above : g.Above a b) (ne : a ≠ b) (parent : g.idom b = some d) :
    g.Above a d :=
  Climbs.of_parent above ne (idom_eq_some.mp parent)

/-- Of two blocks above the same block, one is above the other. -/
theorem comparable (ha : g.Above a c) (hb : g.Above b c) : g.Above a b ∨ g.Above b a := by
  induction ha with
  | refl => exact .inr hb
  | @up c d parent rest ih =>
    by_cases same : b = c
    · exact .inl (same ▸ .up parent rest)
    · exact ih (hb.of_idom same (idom_eq_some.mpr parent))

end Above

namespace Describes

variable {a b c : BlockId}

/-- The blocks that the graph calls reachable are those of the order. -/
theorem isReachable_iff (h : g.Describes f) : g.isReachable b = true ↔ b ∈ g.order := by
  rw [isReachable, h.place b, Option.isSome_iff_ne_none, ne_eq, List.idxOf?_eq_none_iff, not_not]

/-- What lies above a reachable block is reachable. -/
theorem mem_order_of_above (h : g.Describes f) (hb : b ∈ g.order) (above : g.Above a b) :
    a ∈ g.order := by
  induction above with
  | refl => exact hb
  | up parent _ ih => exact ih (h.parent _ _ (idom_eq_some.mpr parent)).2.1

/-- What lies above a block does not come after it. -/
theorem idxOf_le_of_above (h : g.Describes f) (above : g.Above a b) :
    g.order.idxOf a ≤ g.order.idxOf b := by
  induction above with
  | refl => exact Nat.le_refl _
  | up parent _ ih =>
    exact Nat.le_trans ih (Nat.le_of_lt (h.parent _ _ (idom_eq_some.mpr parent)).2.2)

/-- What lies strictly above a block comes before it. -/
theorem idxOf_lt_of_above (h : g.Describes f) (above : g.Above a b) (ne : a ≠ b) :
    g.order.idxOf a < g.order.idxOf b := by
  cases above with
  | refl => exact absurd rfl ne
  | up parent rest =>
    exact Nat.lt_of_le_of_lt (h.idxOf_le_of_above rest)
      (h.parent _ _ (idom_eq_some.mpr parent)).2.2

/-- Two blocks that lie above each other are the same. -/
theorem above_antisymm (h : g.Describes f) (hab : g.Above a b) (hba : g.Above b a) : a = b := by
  by_contra ne
  have := h.idxOf_lt_of_above hab ne
  have := h.idxOf_le_of_above hba
  omega

/-- The entry lies above every reachable block. -/
theorem entry_above (h : g.Describes f) (hb : b ∈ g.order) : g.Above f.entry b := by
  induction hn : g.order.idxOf b using Nat.strong_induction_on generalizing b with
  | _ n ih =>
    by_cases root : b = f.entry
    · exact root ▸ .refl
    · obtain ⟨d, parent, -⟩ := h.dominated b hb root
      obtain ⟨-, hd, lt⟩ := h.parent b d parent
      exact .up (idom_eq_some.mp parent) (ih _ (by omega) hd rfl)

/-- What lies strictly above a block lies above every reachable predecessor of it. -/
theorem above_pred (h : g.Describes f) {p : BlockId} (hp : p ∈ g.order) (edge : b ∈ f.successors p)
    (hb : b ∈ g.order) (above : g.Above a b) (ne : a ≠ b) : g.Above a p := by
  have root : b ≠ f.entry := by
    rintro rfl
    cases above with
    | refl => exact ne rfl
    | up parent _ =>
      have := h.root
      rw [idom_eq_some.mpr parent] at this
      cases this
  obtain ⟨d, parent, dominates⟩ := h.dominated b hb root
  exact (above.of_idom ne parent).trans (dominates p hp edge)

/-- The chain of dominators lists what lies above a block. -/
theorem mem_ancestors (h : g.Describes f) {k : Nat} (enough : g.order.idxOf b < k) :
    a ∈ g.ancestors k b ↔ g.Above a b := by
  induction k generalizing b with
  | zero => omega
  | succ k ih =>
    rw [ancestors]
    cases parent : g.idom b with
    | none =>
      rw [List.mem_singleton]
      constructor
      · rintro rfl
        exact .refl
      · intro above
        cases above with
        | refl => rfl
        | up parent' _ => simp [idom_eq_some.mpr parent'] at parent
    | some d =>
      have lt := (h.parent b d parent).2.2
      rw [List.mem_cons, ih (by omega)]
      constructor
      · rintro (rfl | above)
        · exact .refl
        · exact .up (idom_eq_some.mp parent) above
      · intro above
        by_cases same : a = b
        · exact .inl same
        · exact .inr (above.of_idom same parent)

/-- The order is no longer than the array of immediate dominators. -/
theorem length_order_le (h : g.Describes f) : g.order.length ≤ g.idoms.size := by
  rw [← List.toFinset_card_of_nodup h.order.nodup, ← Finset.card_range g.idoms.size]
  refine Finset.card_le_card fun b hb => ?_
  rw [Finset.mem_range]
  exact h.room b (List.mem_toFinset.mp hb)

/-- The dominators of a reachable block are the blocks above it. -/
theorem mem_dominators (h : g.Describes f) (hb : b ∈ g.order) :
    a ∈ g.dominators b ↔ g.Above a b :=
  h.mem_ancestors (Nat.lt_of_lt_of_le (List.idxOf_lt_length_iff.mpr hb) h.length_order_le)

/-- The dominators of a block other than the first one lie strictly above it. -/
theorem above_of_mem_tail (h : g.Describes f) (hb : b ∈ g.order) (mem : a ∈ (g.dominators b).tail) :
    g.Above a b ∧ a ≠ b := by
  have enough := Nat.lt_of_lt_of_le (List.idxOf_lt_length_iff.mpr hb) h.length_order_le
  rw [dominators] at mem
  generalize g.idoms.size = k at enough mem
  cases k with
  | zero => cases mem
  | succ k =>
    rw [ancestors] at mem
    split at mem
    · next d parent =>
      have lt := (h.parent b d parent).2.2
      have above := (h.mem_ancestors (by omega)).mp mem
      refine ⟨.up (idom_eq_some.mp parent) above, ?_⟩
      rintro rfl
      have := h.idxOf_le_of_above above
      omega
    · cases mem

/-- Domination is being above in the tree. -/
theorem dominates_iff (h : g.Describes f) : g.dominates a b = true ↔ b ∈ g.order ∧ g.Above a b := by
  rw [dominates, Bool.and_eq_true, Bool.and_eq_true, h.isReachable_iff, h.isReachable_iff,
    List.contains_iff_mem]
  constructor
  · rintro ⟨⟨-, hb⟩, mem⟩
    exact ⟨hb, (h.mem_dominators hb).mp mem⟩
  · rintro ⟨hb, above⟩
    exact ⟨⟨h.mem_order_of_above hb above, hb⟩, (h.mem_dominators hb).mpr above⟩

end Describes

end FlowGraph

end Rangefinder
