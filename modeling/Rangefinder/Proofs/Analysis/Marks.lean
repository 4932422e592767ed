import Rangefinder.Proofs.Analysis.NormalRanges
import Rangefinder.Proofs.Range.Intersection

/-!
# Marked blocks

A beta stands where a branch was taken, and its refinement says what the branch has found out about its
input. Where no number is in the refinement and in the range of the input, the branch is never taken.
Bringing a beta up to date marks its block then and only then, because normal ranges have no intersection
exactly when they share no number, be it finite, infinite or NaN.
-/

namespace Rangefinder

open Range

namespace Procedure

variable {f f' : Procedure} {g : FlowGraph} {v : ValueId} {b c : BlockId}

/-- Ranges set no mark. -/
theorem isMarked_setRange {range : Option Range} : (f.setRange v range).isMarked b = f.isMarked b := rfl

/-- One block is marked. -/
theorem isMarked_markUnreachable {block : Block} (present : f.block c = .ok block) :
    (f.markUnreachable c).isMarked b = true ↔ f.isMarked b = true ∨ c = b := by
  rw [block_eq_ok] at present
  simp only [isMarked, markUnreachable, modifyBlock, Array.getElem?_modify]
  by_cases own : c = b
  · subst own
    simp [present]
  · simp [own]

/-- The value is a beta in the block, and no number is in its refinement and in the range that is read
from its input. -/
def RulesOut (f : Procedure) (v : ValueId) (b : BlockId) : Prop :=
  ∃ input refinement range, f.opcode? v = some (.beta input refinement) ∧ f.home? v = some b ∧
    f.rangeRead input = .ok range ∧ ∀ a, ¬(range.contains a = true ∧ refinement.contains a = true)

/-- When a beta rules out its block. -/
theorem rulesOut_iff {value : Value} {input : ValueId} {refinement r : Range}
    (found : f.value v = .ok value) (beta : value.opcode = .beta input refinement)
    (reading : f.rangeRead input = .ok r) : f.RulesOut v b ↔
      value.block = some b ∧ ∀ a, ¬(r.contains a = true ∧ refinement.contains a = true) := by
  rw [value_eq_ok] at found
  rw [RulesOut, opcode?_of_value found, home?_of_value found, beta]
  constructor
  · rintro ⟨input', refinement', r', code, home, reading', disjoint⟩
    injection Option.some.inj code with sameInput sameRefinement
    subst sameInput sameRefinement
    obtain rfl := Except.ok.inj (reading.symm.trans reading')
    exact ⟨home, disjoint⟩
  · rintro ⟨home, disjoint⟩
    exact ⟨input, refinement, r, rfl, home, reading, disjoint⟩

/-- Bringing a value up to date marks the blocks that the value rules out, and no others. -/
theorem refresh_marks (normal : ∀ v r, f.range? v = some r → r.Normal) (refined : f.NormalRefinements)
    (run : f.refresh g v = .ok f') : f'.isMarked b = true ↔ f.isMarked b = true ∨ f.RulesOut v b := by
  obtain ⟨value, found, refreshed⟩ := refresh_cases run
  have code := opcode?_of_value (value_eq_ok.mp found)
  have shares : ∀ {input refinement r t}, value.opcode = .beta input refinement →
      f.rangeRead input = .ok r → r.intersect refinement = .ok t → r.Shares refinement t :=
    fun beta reading meeting => (intersect_shares (rangeRead_normal normal reading)
      (refined v _ _ (beta ▸ code))).of_eq meeting
  cases refreshed with
  | meets beta reading meeting _ =>
    rw [isMarked_setRange, rulesOut_iff found beta reading]
    obtain ⟨⟨a, both⟩, -⟩ := shares beta reading meeting
    exact (or_iff_left fun ⟨_, disjoint⟩ => disjoint a both).symm
  | unplaced beta reading _ _ nowhere =>
    rw [isMarked_setRange, rulesOut_iff found beta reading, nowhere]
    simp
  | marks beta reading meeting _ home present =>
    rw [isMarked_setRange, isMarked_markUnreachable present, rulesOut_iff found beta reading, home,
      Option.some.injEq]
    exact or_congr_right (and_iff_left (shares beta reading meeting)).symm
  | computes other _ =>
    rw [isMarked_setRange]
    refine (or_iff_left ?_).symm
    rintro ⟨input, refinement, _, beta, _⟩
    exact other input refinement (Option.some.inj (code.symm.trans beta))

end Procedure

/-- Intersections of normal ranges are sound. Every number in both ranges is in the intersection. There is
none exactly when no number is in both, so a block is marked for a beta exactly when its refinement shares
no number with its input. And the intersection holds nothing but numbers in both, unless it is the range of
all numbers. -/
theorem intersect_sound {r s : Range} (n : r.Normal) (m : s.Normal) :
    (∀ a, r.contains a = true → s.contains a = true →
      ∃ u, r.intersect s = .ok (some u) ∧ u.contains a = true) ∧
    (r.intersect s = .ok none ↔ ∀ a, ¬(r.contains a = true ∧ s.contains a = true)) ∧
    (∀ u, r.intersect s = .ok (some u) → u = unknown ∨
      ∀ a, u.contains a = true → r.contains a = true ∧ s.contains a = true) ∧
    ∀ (f f' : Procedure) (g : FlowGraph) (v : ValueId) (b : BlockId),
      (∀ v r, f.range? v = some r → r.Normal) → f.NormalRefinements → f.refresh g v = .ok f' →
      (f'.isMarked b = true ↔ f.isMarked b = true ∨ ∃ input refinement range,
        f.opcode? v = some (.beta input refinement) ∧ f.home? v = some b ∧
        f.rangeRead input = .ok range ∧
        ∀ a, ¬(range.contains a = true ∧ refinement.contains a = true)) := by
  obtain ⟨t, run, shares⟩ := intersect_shares n m
  refine ⟨fun a left right => ?_, ⟨fun none => ?_, fun disjoint => ?_⟩, fun u meets => ?_, ?_⟩
  · cases t with
    | none => exact absurd ⟨left, right⟩ (shares a)
    | some u =>
      refine ⟨u, run, ?_⟩
      rcases shares.2 with rfl | precise
      · exact unknown_contains a
      · exact (precise a).mpr ⟨left, right⟩
  · obtain rfl := Except.ok.inj (run.symm.trans none)
    exact shares
  · cases t with
    | none => exact run
    | some u =>
      obtain ⟨⟨a, both⟩, -⟩ := shares
      exact absurd both (disjoint a)
  · obtain rfl := Except.ok.inj (run.symm.trans meets)
    exact shares.2.imp_right fun precise a => (precise a).mp
  · intro f f' g v b normal refined refresh
    exact Procedure.refresh_marks normal refined refresh

/-- The numbers up to zero, with NaN. -/
def upToZero : Range := ⟨none, some 0, true, nanExponent, none, none⟩

/-- The numbers from zero on, with NaN. -/
def zeroOn : Range := ⟨some 0, none, true, nanExponent, none, none⟩

/-- The integers from -5 to -1. -/
def belowZero : Range := ⟨some (-5), some (-1), false, 2, none, none⟩

/-- A value that is known not to be negative, in a block that is entered if it is. -/
def deadBranch : Procedure where
  name := "deadBranch"
  entry := 0
  blocks := #[⟨0, [], [0, 1], .exit none, false⟩]
  values := #[⟨0, .param 0, .double, some 0, some .fromZeroOn⟩,
    ⟨1, .beta 0 belowZero, .double, some 0, none⟩]
  unsupported := false
  reasons := []

/-- Ranges that close each other and share NaN meet, and the block of the dead branch is marked. -/
theorem deadBranch_marked :
    (∃ u, upToZero.intersect zeroOn = .ok (some u) ∧ u.contains .nan = true) ∧
    ∀ flow, ∃ f', deadBranch.refresh flow 1 = .ok f' ∧ f'.isMarked 0 = true := by
  obtain ⟨held, -⟩ := intersect_sound (r := upToZero) (s := zeroOn) (by decide) (by decide)
  obtain ⟨-, apart, -, marks⟩ := intersect_sound (r := .fromZeroOn) (s := belowZero) (by decide)
    (by decide)
  refine ⟨held .nan rfl rfl, fun flow => ?_⟩
  have run : deadBranch.refresh flow 1 =
      .ok ((deadBranch.markUnreachable 0).setRange 1 (some .fromZeroOn)) := rfl
  refine ⟨_, run, (marks _ _ flow 1 0 ?_ (by decide) run).mpr (.inr ?_)⟩
  · intro v r known
    match v with
    | 0 => exact Option.some.inj known ▸ (by decide : Range.fromZeroOn.Normal)
    | 1 => cases known
    | v + 2 => simp [Procedure.range?, deadBranch] at known
  · exact ⟨0, belowZero, Range.fromZeroOn, rfl, rfl, rfl, apart.mp rfl⟩

end Rangefinder
