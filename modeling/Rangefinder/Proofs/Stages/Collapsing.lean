import Rangefinder.Proofs.Machine.Contents
import Rangefinder.Proofs.Machine.Lockstep
import Rangefinder.Proofs.Stages.Removal

/-!
# Runs without an instruction that repeats another value

Bounds checks, conversions and bitwise identities are collapsed into one of their operands when that holds
the same. The procedure with such an instruction and the one without it run in lockstep.
-/

namespace Rangefinder

namespace Procedure

open Machine

variable {f f' : Procedure} {g : FlowGraph} {v x : ValueId} {o : Opcode} {args : List Number}

/-- Collapsing leaves all other instructions in place. -/
theorem Collapsed.parallel (h : Collapsed f f' v x) (s : f.Structured) (code : f.opcode? v = some o)
    (kind : o.isPhi = false) (quiet : o.isQuiet = true) :
    f.Parallel f' (· != v) (movedUses f v x) (fun w _ => movedUses f v x w) fun _ => substitute v x := by
  refine ⟨h.flow, fun w _ => by rw [h.count], fun w _ => h.opcode? w, fun w _ => h.type? w, h.phisAt,
    fun c w mem => ?_, fun c => ?_, h.terminator?, fun c w _ extra => ?_, fun c w mem extra => ?_⟩
  · have isPhi := (s.phis c w mem).1
    rw [bne_iff_ne]
    rintro rfl
    rw [isPhi_eq code, kind] at isPhi
    cases isPhi
  · rw [h.instrsAt, List.filter_filter]
    simp
  · obtain rfl : w = v := by simpa using extra
    exact ⟨o, code, quiet⟩
  · rw [h.instrsAt, List.mem_filter] at mem
    rw [mem.2] at extra
    cases extra

/-- An instruction that is available does not read itself. -/
theorem ne_of_available {s : State} (consistent : f.Consistent g) (stands : Stands f g s)
    (avail : Available f g s v) (code : f.opcode? v = some o) (kind : o.isPhi = false)
    (hx : x ∈ o.operands) : x ≠ v := by
  rintro rfl
  obtain ⟨before, split, home, homeX, here⟩ := avail
  have listed := consistent.wellFormed.structured.mem_instrsAt_of_home consistent.listed homeX code kind
  have reachable : home ∈ g.order := by
    split at here
    · next own => exact own ▸ stands.reachable
    · obtain ⟨below, above⟩ := consistent.describes.dominates_iff.mp here
      exact consistent.describes.mem_order_of_above below above
  exact consistent.wellFormed.not_mem_operands consistent.describes reachable reachable listed listed code
    code hx hx

/-- The procedure with the instruction and the one without it run in lockstep, if the instruction holds what
it is collapsed into. -/
theorem Collapsed.lockstep (h : Collapsed f f' v x) (before : f.Consistent g) (after : f'.Consistent g)
    (code : f.opcode? v = some o) (kind : o.isPhi = false) (quiet : o.isQuiet = true)
    (hx : x ∈ o.operands)
    (same : ∀ s, Reached f args s → Available f g s v → s.memory.slots[v]? = s.memory.slots[x]?) :
    Lockstep f f' (· != v) args := by
  refine Faithful.lockstep ⟨h.parallel before.wellFormed.structured code kind quiet, before, after,
    fun s s' reached _ m y z avail avail' use => ?_⟩
  have cases : z = y ∨ y = v ∧ z = x := by
    rcases use with ⟨w, rfl⟩ | ⟨p, q, rfl⟩ | ⟨c, rfl⟩
    · exact movedUses_cases f v x w y
    · exact movedUses_cases f v x p y
    · by_cases same : y = v <;> simp [substitute, same]
  rcases cases with rfl | ⟨rfl, rfl⟩
  · refine m.memory.slots z ?_
    rw [bne_iff_ne]
    rintro rfl
    obtain ⟨-, -, home, stands, -⟩ := avail'
    simp [h.home?] at stands
  · have stands := reached.stands before.wellFormed before.describes
    have ne := ne_of_available before stands avail code kind hx
    rw [m.memory.slots z (by simpa using ne), same s reached avail]

/-- No run ends at the instruction once it is gone. -/
theorem Collapsed.not_endsAt {halt : Halt} (h : Collapsed f f' v x) (after : f'.Consistent g) :
    ¬EndsAt f' args (some v) halt := by
  rintro ⟨s, reached, head, -⟩
  obtain ⟨rest, next⟩ : ∃ rest, s.pending = v :: rest := List.head?_eq_some_iff.mp head
  obtain ⟨before, split⟩ := (reached.stands after.wellFormed after.describes).position
  have listed : v ∈ f'.instrsAt s.block := by simp [split, next]
  rw [h.instrsAt, List.mem_filter] at listed
  simp at listed

/-- Collapsing keeps the procedure on int32 numbers. -/
theorem Collapsed.onInt32 (h : Collapsed f f' v x) (on : f.OnInt32 g) (after : f'.Consistent g)
    (whole : f.isWhole v = true → f.isWhole x = true) : f'.OnInt32 g := by
  have moves : ∀ w y, f.isWhole y = true → f.isWhole (movedUses f v x w y) = true := by
    intro w y kept
    rcases movedUses_cases f v x w y with same | ⟨rfl, moved⟩
    · rwa [same]
    · rw [moved]
      exact whole kept
  refine ⟨after, by rw [h.phisAt, h.flow.entry, on.noPhis], fun w o' type code' typed kind => ?_,
    fun w o' code' y' hy' => ?_, fun w o' code' => ?_⟩
  all_goals
    rw [h.opcode?, Option.map_eq_some_iff] at code'
    obtain ⟨o, code', rfl⟩ := code'
  · rw [Opcode.isWholeForm_rename]
    exact on.integral.form w o type code' (h.type? w ▸ typed) kind
  · rw [isWhole_congr (h.type? y')]
    obtain ⟨y, hy, moved⟩ := Opcode.mem_wholeOperands_rename hy'
    have kept := on.integral.operands w o code' y hy
    rcases moved with rfl | ⟨q, rfl⟩
    · exact moves w y kept
    · exact moves w y kept
  · rw [Opcode.limits_rename]
    exact on.integral.limits w o code'

end Procedure

end Rangefinder
