import Mathlib.Tactic.Linarith
import Rangefinder.Proofs.Flow.Paths

/-!
# The dominators found are the dominators

The search for immediate dominators ends, and what it finds is exact: the blocks above a block in
the tree are those that every path from the entry passes through, and the parent of a block is its
closest strict dominator.

While the search runs the tree is not the final one, and the parents of two blocks are in general
not both right or both wrong. Two facts about each parent by itself carry the argument. From one
side, every strict dominator of a block dominates its parent, so that no dominator is ever lost.
From the other side, after `k` passes the parent of a block stands on every path to it that has
fewer than `k` retreating edges, and within a pass this number goes up by one from block to block
in the order. After as many passes as there are blocks both sides together leave only one possible
parent, so the next pass changes nothing. That parents move upwards only is not needed, and the
intermediate trees do not have to be compared.
-/

namespace Rangefinder

namespace FlowGraph

open Procedure

variable {f : Procedure} {order : List BlockId} {idoms : Array (Option BlockId)}
  {preds : Array (List BlockId)} {places : Array (Option Nat)} {a b c p : BlockId} {entry : BlockId}

/-- In a comparison of places, a block of the order comes after another one when its position is
greater. -/
theorem isAfter_idxOf? (ha : a ∈ order) (hb : b ∈ order) :
    isAfter (order.idxOf? a) (order.idxOf? b) = decide (order.idxOf b < order.idxOf a) := by
  rw [idxOf?_of_mem ha, idxOf?_of_mem hb, isAfter]

namespace IsPartialTree

/-- The order is no longer than the array of parents. -/
theorem length_order_le (tree : IsPartialTree order entry idoms) (nodup : order.Nodup) :
    order.length ≤ idoms.size := by
  have inRange : order ⊆ List.range idoms.size := fun b hb => List.mem_range.mpr (tree.room b hb)
  simpa using (nodup.subperm inRange).length_le

/-- Two known blocks that lie above each other are the same. -/
theorem climbs_antisymm (tree : IsPartialTree order entry idoms) (known : IsKnown idoms a)
    (up : Climbs idoms a b) (down : Climbs idoms b a) : a = b := by
  have le := tree.idxOf_le_of_climbs up
  have ge := tree.idxOf_le_of_climbs down
  exact (List.idxOf_inj (tree.member a known)).mp (Nat.le_antisymm le ge)

variable (tree : IsPartialTree order f.entry idoms) (hf : f.IsReversePostorder order)
  (placed : ∀ b : BlockId, (places[b]?).join = order.idxOf? b)

include tree hf placed

/-- Two known blocks meet, and what lies above both lies above the block where they meet. -/
theorem meet_spec {steps : Nat} (ha : IsKnown idoms a) (hb : IsKnown idoms b)
    (enough : order.idxOf a + order.idxOf b < steps) :
    ∃ c, meet places idoms f.entry steps a b = .ok c ∧
      ∀ x, Climbs idoms x a → Climbs idoms x b → Climbs idoms x c := by
  induction steps generalizing a b with
  | zero => omega
  | succ steps ih =>
    obtain ⟨da, pa⟩ := ha
    obtain ⟨db, pb⟩ := hb
    have ma := tree.member a ⟨da, pa⟩
    have mb := tree.member b ⟨db, pb⟩
    simp only [meet, pa, pb, Option.join_some, Option.getD_some, placed, isAfter_idxOf? ma mb,
      decide_eq_true_eq]
    by_cases same : a = b
    · exact ⟨a, if_pos same, fun x above _ => above⟩
    rw [if_neg same]
    -- The block that comes later is not the entry, so its parent comes earlier; nothing that lies
    -- above the other block can be that block itself.
    by_cases later : order.idxOf b < order.idxOf a
    · have ne : a ≠ f.entry := by
        rintro rfl
        obtain ⟨rest, rfl⟩ := List.head?_eq_some_iff.mp hf.first
        simp at later
      have earlier := tree.earlier a da pa ne
      obtain ⟨c, met, closest⟩ := ih (tree.parent a da pa) ⟨db, pb⟩ (by omega)
      refine ⟨c, by rw [if_pos later, met], fun x aboveA aboveB => ?_⟩
      have strict : x ≠ a := by
        rintro rfl
        have := tree.idxOf_le_of_climbs aboveB
        omega
      exact closest x (aboveA.of_parent strict pa) aboveB
    · have before : order.idxOf a < order.idxOf b :=
        Nat.lt_of_le_of_ne (by omega) fun h => same ((List.idxOf_inj ma).mp h)
      have ne : b ≠ f.entry := by
        rintro rfl
        obtain ⟨rest, rfl⟩ := List.head?_eq_some_iff.mp hf.first
        simp at before
      have earlier := tree.earlier b db pb ne
      obtain ⟨c, met, closest⟩ := ih ⟨da, pa⟩ (tree.parent b db pb) (by omega)
      refine ⟨c, by rw [if_neg later, met], fun x aboveA aboveB => ?_⟩
      have strict : x ≠ b := by
        rintro rfl
        have := tree.idxOf_le_of_climbs aboveA
        omega
      exact closest x aboveA (aboveB.of_parent strict pb)

/-- The known blocks of a list meet, and what lies above all of them lies above the block where
they meet. -/
theorem meetAll_spec {blocks : List BlockId} {found : Option BlockId}
    (inRange : ∀ p ∈ blocks, p < idoms.size) (known : ∀ q ∈ found, IsKnown idoms q) :
    ∃ result, meetAll places idoms f.entry blocks found = .ok result ∧
      ∀ x, (∀ q ∈ found, Climbs idoms x q) →
        (∀ p ∈ blocks, IsKnown idoms p → Climbs idoms x p) → ∀ c ∈ result, Climbs idoms x c := by
  induction blocks generalizing found with
  | nil => exact ⟨found, rfl, fun x above _ => above⟩
  | cons p rest ih =>
    have inRest : ∀ q ∈ rest, q < idoms.size := fun q hq => inRange q (List.mem_cons_of_mem _ hq)
    have lt : p < idoms.size := inRange p List.mem_cons_self
    have entryOf : idoms[p]? = some idoms[p] := Array.getElem?_eq_getElem lt
    cases parent : idoms[p] with
    | none =>
      obtain ⟨result, met, closest⟩ := ih inRest known
      refine ⟨result, by rw [meetAll, entryOf, parent]; exact met, fun x aboveFound above => ?_⟩
      exact closest x aboveFound fun q hq => above q (List.mem_cons_of_mem _ hq)
    | some d =>
      rw [parent] at entryOf
      have kp : IsKnown idoms p := ⟨d, entryOf⟩
      obtain ⟨next, kn, closestNext, goOn⟩ : ∃ next, IsKnown idoms next ∧
          (∀ x, (∀ q ∈ found, Climbs idoms x q) → Climbs idoms x p → Climbs idoms x next) ∧
          ∀ result, meetAll places idoms f.entry rest (some next) = .ok result →
            meetAll places idoms f.entry (p :: rest) found = .ok result := by
        cases found with
        | none =>
          refine ⟨p, kp, fun x _ above => above, fun result run => ?_⟩
          rw [meetAll, entryOf]
          exact run
        | some q =>
          have kq := known q rfl
          have fits := tree.length_order_le hf.nodup
          have hp := List.idxOf_lt_length_iff.mpr (tree.member p kp)
          have hq := List.idxOf_lt_length_iff.mpr (tree.member q kq)
          have square : 2 * idoms.size ≤ idoms.size * idoms.size + 1 := by nlinarith
          have enough : order.idxOf p + order.idxOf q < idoms.size * idoms.size + 1 := by omega
          obtain ⟨next, met, closest⟩ := tree.meet_spec hf placed kp kq enough
          refine ⟨next, tree.known_of_climbs kp (tree.climbs_of_meet kp kq met).1,
            fun x aboveFound aboveP => closest x aboveP (aboveFound q rfl), fun result run => ?_⟩
          rw [meetAll, entryOf]
          exact bind_eq_ok.mpr ⟨next, met, run⟩
      obtain ⟨result, run, closest⟩ := @ih (some next) inRest (by simpa using kn)
      refine ⟨result, goOn result run, fun x aboveFound above => ?_⟩
      refine closest x ?_ fun q hq => above q (List.mem_cons_of_mem _ hq)
      simpa using closestNext x aboveFound (above p List.mem_cons_self kp)

end IsPartialTree

/-- Block `c` is where the known predecessors of `b` meet in a partial tree. -/
structure Joins (f : Procedure) (idoms : Array (Option BlockId)) (b c : BlockId) : Prop where
  known : IsKnown idoms c
  above : ∀ p, b ∈ f.successors p → IsKnown idoms p → Climbs idoms c p
  closest : ∀ x, (∀ p, b ∈ f.successors p → IsKnown idoms p → Climbs idoms x p) → Climbs idoms x c

/-- What the search has established after `k` passes, and of the next pass for the first `done`
blocks of the order. -/
structure Searched (f : Procedure) (order : List BlockId) (k done : Nat)
    (idoms : Array (Option BlockId)) : Prop where
  tree : IsPartialTree order f.entry idoms
  size : idoms.size = f.blocks.size
  known : ∀ b ∈ order, 0 < k ∨ order.idxOf b < done → IsKnown idoms b
  kept : ∀ b d : BlockId, idoms[b]? = some (some d) → ∀ a, f.Dominates a b → a ≠ b →
    f.Dominates a d
  within : ∀ b d : BlockId, idoms[b]? = some (some d) → f.DominatesWithin order k d b
  further : ∀ b d : BlockId, idoms[b]? = some (some d) → order.idxOf b < done →
    f.DominatesWithin order (k + 1) d b

namespace Searched

variable {k done : Nat} (h : Searched f order k done idoms)

include h

/-- A dominator of a known block lies above it in the tree. -/
theorem climbs_of_dominates (known : IsKnown idoms b) (dominates : f.Dominates a b) :
    Climbs idoms a b := by
  induction position : order.idxOf b using Nat.strong_induction_on generalizing b with
  | _ position' ih =>
    by_cases same : a = b
    · exact same ▸ .refl
    · obtain ⟨d, parent⟩ := known
      have ne : b ≠ f.entry := by
        rintro rfl
        exact same dominates.eq_entry
      have earlier := h.tree.earlier b d parent ne
      exact .up parent
        (ih _ (position ▸ earlier) (h.tree.parent b d parent) (h.kept b d parent a dominates same)
          rfl)

/-- A dominator of a block dominates every block between the two in the tree. -/
theorem dominates_of_climbs (known : IsKnown idoms a) (between : Climbs idoms a c)
    (climb : Climbs idoms c p) (dominates : f.Dominates a p) : f.Dominates a c := by
  induction climb with
  | refl => exact dominates
  | @up p d parent rest ih =>
    by_cases same : a = p
    · subst same
      obtain rfl := h.tree.climbs_antisymm known between (.up parent rest)
      exact fun blocks path => path.mem
    · exact ih (h.kept p d parent a dominates same)

omit h in
/-- What lies above a block stands on the paths to it with few retreating edges, when that is so for
the parent of each block that comes no later. -/
theorem mem_of_climbs (tree : IsPartialTree order f.entry idoms) {blocks : List BlockId} {j : Nat}
    (path : f.PathTo p blocks) (few : retreats order blocks < j) (climb : Climbs idoms c p)
    (within : ∀ b d : BlockId, idoms[b]? = some (some d) → order.idxOf b ≤ order.idxOf p →
      f.DominatesWithin order j d b) : c ∈ blocks := by
  induction climb generalizing blocks with
  | refl => exact path.mem
  | @up p d parent rest ih =>
    obtain ⟨front, back, rfl, first⟩ := path.cut (within p d parent (Nat.le_refl _) blocks path few)
    have earlier : order.idxOf d ≤ order.idxOf p := tree.idxOf_le_of_climbs (.up parent .refl)
    have fewer := retreats_append order front (d :: back)
    refine List.mem_append_right front (ih first (by omega) fun b e he le => ?_)
    exact within b e he (le.trans earlier)

/-- The block where the predecessors of `b` meet stands on the paths to `b` that have no more than
`k` retreating edges, when `b` is the next block of the pass. -/
theorem dominatesWithin_of_joins (hf : f.IsReversePostorder order) (position : order.idxOf b = done)
    (ne : b ≠ f.entry) (joins : Joins f idoms b c) : f.DominatesWithin order (k + 1) c b := by
  intro blocks path few
  cases path with
  | entry => exact absurd rfl ne
  | @step p _ blocks path edge inside =>
    have hp := hf.mem_of_path path
    obtain ⟨rest, rfl⟩ := path.eq_cons
    simp only [retreats] at few
    refine List.mem_cons_of_mem _ ?_
    split at few
    · next forward =>
      have climb := joins.above p edge (h.known p hp (.inr (by omega)))
      have few : retreats order (p :: rest) < k + 1 := by omega
      exact mem_of_climbs h.tree path few climb fun x d parent le =>
        h.further x d parent (by omega)
    · have climb := joins.above p edge (h.known p hp (.inl (by omega)))
      have few : retreats order (p :: rest) < k := by omega
      exact mem_of_climbs h.tree path few climb fun x d parent _ => h.within x d parent

/-- Every strict dominator of `b` dominates the block where the predecessors of `b` meet. -/
theorem dominates_of_joins (hb : b < f.blocks.size) (edge : b ∈ f.successors p)
    (kp : IsKnown idoms p) (joins : Joins f idoms b c) (dominates : f.Dominates a b)
    (strict : a ≠ b) : f.Dominates a c := by
  have above : ∀ q, b ∈ f.successors q → IsKnown idoms q → Climbs idoms a q := fun q hq kq =>
    h.climbs_of_dominates kq (dominates.pred strict hq hb)
  have known := h.tree.known_of_climbs kp (above p edge kp)
  exact h.dominates_of_climbs known (joins.closest a above) (joins.above p edge kp)
    (dominates.pred strict edge hb)

/-- One block of a pass: it takes the block where its predecessors meet as its parent. -/
theorem step (hf : f.IsReversePostorder order) (hb : b ∈ order) (position : order.idxOf b = done)
    (ne : b ≠ f.entry) (edge : b ∈ f.successors p) (kp : IsKnown idoms p)
    (joins : Joins f idoms b c) (earlier : order.idxOf c < order.idxOf b) :
    Searched f order k (done + 1) (idoms.setIfInBounds b (some c)) where
  tree := h.tree.set hb ne joins.known earlier
  size := by rw [Array.size_setIfInBounds, h.size]
  known x hx early := by
    by_cases same : x = b
    · subst same
      exact ⟨c, by simp [h.tree.room x hx]⟩
    · have other : order.idxOf x ≠ order.idxOf b := fun eq => same ((List.idxOf_inj hx).mp eq)
      exact IsPartialTree.known_set (h.known x hx (early.imp_right fun lt => by omega))
  kept x d parent a dominates strict := by
    rcases IsPartialTree.parent_set parent with ⟨rfl, rfl⟩ | ⟨other, parent⟩
    · exact h.dominates_of_joins (hf.inBounds x hb) edge kp joins dominates strict
    · exact h.kept x d parent a dominates strict
  within x d parent := by
    rcases IsPartialTree.parent_set parent with ⟨rfl, rfl⟩ | ⟨other, parent⟩
    · intro blocks path few
      exact h.dominatesWithin_of_joins hf position ne joins blocks path (by omega)
    · exact h.within x d parent
  further x d parent early := by
    rcases IsPartialTree.parent_set parent with ⟨rfl, rfl⟩ | ⟨other, parent⟩
    · exact h.dominatesWithin_of_joins hf position ne joins
    · have hx := h.tree.member x ⟨d, parent⟩
      have apart : order.idxOf x ≠ order.idxOf b := fun eq => other ((List.idxOf_inj hx).mp eq)
      exact h.further x d parent (by omega)

/-- A pass starts with the entry, which keeps itself as its parent. -/
theorem enter (hf : f.IsReversePostorder order) : Searched f order k 1 idoms where
  tree := h.tree
  size := h.size
  known b hb early := by
    rcases early with early | early
    · exact h.known b hb (.inl early)
    · by_cases same : b = f.entry
      · exact ⟨f.entry, same ▸ h.tree.root⟩
      · have := hf.idxOf_pos same
        omega
  kept := h.kept
  within := h.within
  further b d parent early := by
    by_cases same : b = f.entry
    · subst same
      obtain rfl := Option.some.inj (Option.some.inj (h.tree.root.symm.trans parent))
      exact fun blocks path _ => path.mem
    · have := hf.idxOf_pos same
      omega

/-- A pass has ended when it has gone through all blocks. -/
theorem finish (all : done = order.length) : Searched f order (k + 1) 0 idoms where
  tree := h.tree
  size := h.size
  known b hb _ := h.known b hb (.inr (all ▸ List.idxOf_lt_length_iff.mpr hb))
  kept := h.kept
  within b d parent :=
    h.further b d parent (all ▸ List.idxOf_lt_length_iff.mpr (h.tree.member b ⟨d, parent⟩))
  further _ _ _ early := absurd early (Nat.not_lt_zero _)

/-- After as many passes as there are blocks, the block where the predecessors of `b` meet is the
parent that `b` has already: each of the two dominates the other. -/
theorem parent_of_joins (hf : f.IsReversePostorder order) (enough : order.length ≤ k)
    (hb : b ∈ order) (position : order.idxOf b = done) (ne : b ≠ f.entry)
    (edge : b ∈ f.successors p) (kp : IsKnown idoms p) (joins : Joins f idoms b c)
    (earlier : order.idxOf c < order.idxOf b) : idoms[b]? = some (some c) := by
  have positive : 0 < k := Nat.lt_of_lt_of_le (List.length_pos_of_mem hb) enough
  obtain ⟨d, parent⟩ := h.known b hb (.inl positive)
  have before := h.tree.earlier b d parent ne
  have dominatesD : f.Dominates d b := (h.within b d parent).dominates hf enough
  have dominatesC : f.Dominates c b :=
    (h.dominatesWithin_of_joins hf position ne joins).dominates hf (by omega)
  have strictC : c ≠ b := fun same => by simp [same] at earlier
  have strictD : d ≠ b := fun same => by simp [same] at before
  have kd := h.tree.parent b d parent
  have up := h.climbs_of_dominates kd (h.kept b d parent c dominatesC strictC)
  have down := h.climbs_of_dominates joins.known
    (h.dominates_of_joins (hf.inBounds b hb) edge kp joins dominatesD strictD)
  rw [h.tree.climbs_antisymm joins.known up down]
  exact parent

end Searched

/-- In a pass, a block takes the block where its predecessors meet as its parent, and the pass
reports a change when that is a new one. -/
theorem improve_cons {rest : List BlockId} {changed : Bool}
    (met : meetAll places idoms entry (preds[b]?.getD []) none = .ok (some c)) :
    improve preds places entry (b :: rest) (idoms, changed) =
      improve preds places entry rest
        (idoms.setIfInBounds b (some c), changed || decide (idoms[b]? ≠ some (some c))) := by
  have join : (idoms[b]?).join = some c ↔ idoms[b]? = some (some c) := Option.join_eq_some_iff
  rw [improve, met]
  by_cases same : idoms[b]? = some (some c)
  · have kept : idoms.setIfInBounds b (some c) = idoms := by
      apply Array.ext_getElem?
      intro x
      rw [Array.getElem?_setIfInBounds]
      split
      · next own =>
        subst own
        obtain ⟨lt, -⟩ := Array.getElem?_eq_some_iff.mp same
        rw [if_pos lt, same]
      · rfl
    simp [bind, Except.bind, same, kept]
  · simp [bind, Except.bind, same, join]

section Passes

variable (hf : f.IsReversePostorder order) (size : preds.size = f.blocks.size)
  (exact : ∀ b < f.blocks.size, ∀ p, p ∈ preds[b]?.getD [] ↔ b ∈ f.successors p)
  (placed : ∀ b : BlockId, (places[b]?).join = order.idxOf? b) {before rest : List BlockId}

include hf exact placed

/-- The known predecessors of a block whose turn it is meet in an earlier block. -/
theorem Searched.meets {k : Nat} (h : Searched f order k before.length idoms)
    (split : order = before ++ b :: rest) (position : order.idxOf b = before.length)
    (ne : b ≠ f.entry) :
    ∃ c p, meetAll places idoms f.entry (preds[b]?.getD []) none = .ok (some c) ∧
      Joins f idoms b c ∧ order.idxOf c < order.idxOf b ∧ b ∈ f.successors p ∧
      IsKnown idoms p := by
  have hb : b ∈ order := by simp [split]
  have preds := exact b (hf.inBounds b hb)
  obtain ⟨p, hp, edge⟩ := (hf.led before b rest split).resolve_left ne
  have earlier : order.idxOf p < order.idxOf b := by
    subst split
    exact idxOf_lt_of_mem_before hf.nodup hp
  have kp : IsKnown idoms p := h.known p (by simp [split, hp]) (.inr (by omega))
  have nothing : ∀ q ∈ (none : Option BlockId), IsKnown idoms q := by simp
  obtain ⟨result, met, closest⟩ := h.tree.meetAll_spec hf placed
    (fun q hq => h.size ▸ lt_size_of_mem_successors ((preds q).mp hq)) nothing
  obtain ⟨ofResult, -, above⟩ := h.tree.climbs_of_meetAll nothing met
  obtain ⟨c, rfl, climb⟩ := above p ((preds p).mpr edge) kp
  refine ⟨c, p, met, ⟨ofResult c rfl, fun q hq kq => ?_, fun x common => ?_⟩, ?_, edge, kp⟩
  · obtain ⟨_, ⟨⟩, climb⟩ := above q ((preds q).mpr hq) kq
    exact climb
  · exact closest x (by simp) (fun q hq kq => common q ((preds q).mp hq) kq) c rfl
  · exact Nat.lt_of_le_of_lt (h.tree.idxOf_le_of_climbs climb) earlier

/-- A pass goes through; it changes nothing once there were as many passes as there are blocks. -/
theorem Searched.improve {k : Nat} {changed : Bool} (h : Searched f order k before.length idoms)
    (split : order = before ++ rest) (started : f.entry ∈ before) :
    ∃ result more, improve preds places f.entry rest (idoms, changed) = .ok (result, more) ∧
      Searched f order k order.length result ∧ (order.length ≤ k → more = changed) := by
  induction rest generalizing before idoms changed with
  | nil =>
    rw [List.append_nil] at split
    exact ⟨idoms, changed, rfl, split ▸ h, fun _ => rfl⟩
  | cons b rest ih =>
    have nodup : (before ++ b :: rest).Nodup := split ▸ hf.nodup
    have fresh : b ∉ before := fun mem => (List.nodup_append.mp nodup).2.2 b mem b (by simp) rfl
    have hb : b ∈ order := by simp [split]
    have position : order.idxOf b = before.length := by
      simp [split, List.idxOf_append, fresh]
    have ne : b ≠ f.entry := fun same => fresh (same ▸ started)
    obtain ⟨c, p, met, joins, earlier, edge, kp⟩ := h.meets hf exact placed split position ne
    have step : Searched f order k (before ++ [b]).length (idoms.setIfInBounds b (some c)) := by
      simpa using h.step hf hb position ne edge kp joins earlier
    obtain ⟨result, more, run, searched, settled⟩ := @ih _ (before ++ [b])
      (changed || decide (idoms[b]? ≠ some (some c))) step (by simp [split])
      (List.mem_append_left _ started)
    refine ⟨result, more, (improve_cons met).trans run, searched, fun enough => ?_⟩
    rw [settled enough, h.parent_of_joins hf enough hb position ne edge kp joins earlier]
    simp

include size

/-- The search for dominators ends, and every dominator of a reachable block lies above it in the
tree that the search ends with. -/
theorem immediateDominators_complete :
    ∃ result, immediateDominators preds order places f.entry = .ok result ∧
      ∀ a, ∀ b ∈ order, f.Dominates a b → Climbs result a b := by
  obtain ⟨rest, split⟩ := List.head?_eq_some_iff.mp hf.first
  have start : Searched f order 0 0
      ((Array.replicate preds.size none).setIfInBounds f.entry (some f.entry)) :=
    { tree := isPartialTree_start hf size
      size := by simp [size]
      known := fun _ _ early => by omega
      kept := by
        intro b d parent a dominates strict
        obtain ⟨rfl, rfl⟩ := parent_start parent
        exact absurd dominates.eq_entry strict
      within := fun _ _ _ _ _ few => absurd few (Nat.not_lt_zero _)
      further := fun _ _ _ early => absurd early (Nat.not_lt_zero _) }
  have pass : ∀ k s, Searched f order k 0 s → ∃ t changed,
      improve preds places f.entry order.tail (s, false) = .ok (t, changed) ∧
        Searched f order (k + 1) 0 t ∧ (changed = true → k < order.length) := by
    intro k s h
    obtain ⟨t, changed, run, searched, settled⟩ :=
      @Searched.improve f order s preds places hf exact placed [f.entry] order.tail k false
        (h.enter hf) (by rw [split]; rfl) (by simp)
    refine ⟨t, changed, run, searched.finish rfl, fun change => ?_⟩
    by_contra late
    rw [settled (Nat.le_of_not_lt late)] at change
    cases change
  have fits : order.length ≤ preds.size := by
    simpa using start.tree.length_order_le hf.nodup
  obtain ⟨tree, k, settled, searched⟩ := settle_succeeds (fun k => Searched f order k 0)
    order.length pass start (Nat.zero_le _)
    (show order.length < 0 + (preds.size * preds.size + 2) by nlinarith)
  refine ⟨tree.setIfInBounds f.entry none, ?_, fun a b hb dominates => ?_⟩
  · simp only [immediateDominators, bind_eq_ok, pure_eq_ok]
    exact ⟨tree, settled, rfl⟩
  · have known := searched.known b hb (.inl (Nat.succ_pos k))
    exact searched.tree.climbs_dropRoot (searched.climbs_of_dominates known dominates)

end Passes

/-- A procedure whose entry exists and whose blocks are numbered has a flow graph, and in its tree
every dominator of a reachable block lies above it. -/
theorem build_complete (numbered : f.BlocksNumbered) (inside : f.entry < f.blocks.size) :
    ∃ g, build f = .ok g ∧ ∀ a, ∀ b ∈ g.order, f.Dominates a b → g.Above a b := by
  obtain ⟨order, ordered, hf⟩ := reversePostorder_spec inside
  let preds := ((List.range f.blocks.size).map f.predecessors).toArray
  let places := ((List.range f.blocks.size).map fun b => order.idxOf? b).toArray
  have exact : ∀ b < f.blocks.size, ∀ p, p ∈ preds[b]?.getD [] ↔ b ∈ f.successors p := by
    intro b hb p
    simpa [preds, hb] using mem_predecessors numbered
  have placed : ∀ b : BlockId, (places[b]?).join = order.idxOf? b := by
    intro b
    by_cases hb : b < f.blocks.size
    · simp [places, hb]
    · rw [List.idxOf?_eq_none_iff.mpr fun mem => hb (hf.inBounds b mem)]
      simp [places, hb]
  obtain ⟨idoms, found, complete⟩ :=
    immediateDominators_complete hf (show preds.size = f.blocks.size by simp [preds]) exact placed
  refine ⟨⟨preds, order, places, idoms⟩, ?_, complete⟩
  simp only [build, ordered, bind_eq_ok, pure_eq_ok, Except.ok.injEq, exists_eq_left']
  exact ⟨idoms, found, rfl⟩

/-- The immediate dominator in the tree is the closest strict dominator, when the blocks above a
block are its dominators. -/
theorem Describes.idom_iff {g : FlowGraph} {d : BlockId} (h : g.Describes f)
    (complete : ∀ a, ∀ b ∈ g.order, f.Dominates a b → g.Above a b) :
    g.idom b = some d ↔ f.IsImmediateDominator d b := by
  have closest : ∀ {e : BlockId}, g.idom b = some e → f.IsImmediateDominator e b := by
    intro e parent
    obtain ⟨hb, he, earlier⟩ := h.parent b e parent
    have strict : e ≠ b := fun same => by simp [same] at earlier
    refine ⟨h.order.reachable_iff.mpr hb, strict, ?_, fun a ne dominates => ?_⟩
    · exact h.dominates_of_above (.up (idom_eq_some.mp parent) .refl)
    · exact h.dominates_of_above ((complete a b hb dominates).of_idom ne parent)
  refine ⟨closest, fun immediate => ?_⟩
  have hb := h.order.reachable_iff.mp immediate.reachable
  have ne : b ≠ f.entry := by
    rintro rfl
    exact immediate.strict immediate.dominates.eq_entry
  obtain ⟨e, parent, -⟩ := h.dominated b hb ne
  have found := closest parent
  have aboveD := complete d b hb immediate.dominates
  have hd := h.mem_order_of_above hb aboveD
  have up : g.Above e d := complete e d hd (immediate.closest e found.strict found.dominates)
  rw [h.above_antisymm (aboveD.of_idom immediate.strict parent) up]
  exact parent

/-- Every procedure whose entry exists and whose blocks are numbered has a flow graph: the search
for dominators ends. A block dominates another one in the graph exactly when both can be reached and
every path from the entry to the second passes through the first. The immediate dominator is the
closest strict dominator, and a block has none exactly when it is the entry or cannot be reached. -/
theorem dominators_exact (numbered : f.BlocksNumbered) (inside : f.entry < f.blocks.size) :
    ∃ g, build f = .ok g ∧
      (∀ a b, g.dominates a b = true ↔ f.Reachable a ∧ f.Reachable b ∧ f.Dominates a b) ∧
      (∀ b d, g.idom b = some d ↔ f.IsImmediateDominator d b) ∧
      ∀ b, g.idom b = none ↔ b = f.entry ∨ ¬f.Reachable b := by
  obtain ⟨g, built, complete⟩ := build_complete numbered inside
  have h := build_describes numbered inside built
  refine ⟨g, built, fun a b => ?_, fun b d => h.idom_iff complete, fun b => ?_⟩
  · rw [h.dominates_iff, h.order.reachable_iff, h.order.reachable_iff]
    constructor
    · rintro ⟨hb, above⟩
      exact ⟨h.mem_order_of_above hb above, hb, h.dominates_of_above above⟩
    · rintro ⟨-, hb, dominates⟩
      exact ⟨hb, complete a b hb dominates⟩
  · rw [h.order.reachable_iff]
    constructor
    · intro none
      by_contra other
      obtain ⟨ne, hb⟩ := not_or.mp other
      obtain ⟨d, parent, -⟩ := h.dominated b (not_not.mp hb) ne
      rw [none] at parent
      cases parent
    · rintro (rfl | unreachable)
      · exact h.root
      · cases parent : g.idom b with
        | none => rfl
        | some d => exact absurd (h.parent b d parent).1 unreachable

/-- Two blocks that jump to each other and are both entered from the start, a block that jumps to
itself or to a block that does not exist, and a block that nothing jumps to. -/
def crossing : Procedure where
  name := "crossing"
  entry := 0
  blocks := #[⟨0, [], [], .branch 0 1 2, false⟩, ⟨1, [], [], .goto 2, false⟩,
    ⟨2, [], [], .branch 0 1 3, false⟩, ⟨3, [], [], .branch 0 3 9, false⟩,
    ⟨4, [], [], .goto 3, false⟩]
  values := #[]
  unsupported := false
  reasons := []

/-- The graph with crossing jumps satisfies the conditions. -/
theorem crossing_exact :
    (crossing.BlocksNumbered ∧ crossing.entry < crossing.blocks.size) ∧
    ∃ g, build crossing = .ok g ∧
      (∀ a b, g.dominates a b = true ↔
        crossing.Reachable a ∧ crossing.Reachable b ∧ crossing.Dominates a b) ∧
      (∀ b d, g.idom b = some d ↔ crossing.IsImmediateDominator d b) ∧
      ∀ b, g.idom b = none ↔ b = crossing.entry ∨ ¬crossing.Reachable b := by
  have each : ∀ b : Fin crossing.blocks.size, crossing.blocks[b].id = b := by decide
  have numbered : crossing.BlocksNumbered := by
    intro b block found
    obtain ⟨lt, rfl⟩ := Array.getElem?_eq_some_iff.mp found
    exact each ⟨b, lt⟩
  have inside : crossing.entry < crossing.blocks.size := by decide
  exact ⟨⟨numbered, inside⟩, dominators_exact numbered inside⟩

end FlowGraph

end Rangefinder
