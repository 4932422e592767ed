import Rangefinder.Proofs.Flow.Paths
import Rangefinder.Proofs.Procedure.Placement

/-!
# The order in which values are computed

The reachable blocks in their order, with the members of each one after the other, list the values of
a procedure in an order in which they can be computed: every instruction comes after its operands.
Phis are an exception, as their inputs may come from blocks further down. A recursion over operands
that stops at phis therefore goes down in the schedule, and it is not deeper than there are values.
-/

namespace Rangefinder

namespace Procedure

/-- The value is listed in a block that can be reached. -/
def Scheduled (f : Procedure) (v : ValueId) : Prop := ∃ b, f.Reachable b ∧ v ∈ f.membersAt b

end Procedure

namespace FlowGraph

open Procedure

/-- The values listed in the reachable blocks, block by block. -/
def schedule (g : FlowGraph) (f : Procedure) : List ValueId := g.order.flatMap f.membersAt

variable {f : Procedure} {g : FlowGraph} {v x : ValueId} {a b : BlockId}

/-- What is scheduled. -/
theorem mem_schedule (d : g.Describes f) : v ∈ g.schedule f ↔ f.Scheduled v := by
  simp only [schedule, List.mem_flatMap, Scheduled, d.order.reachable_iff]

/-- The schedule lists no value twice. -/
theorem nodup_schedule (d : g.Describes f) (s : f.Structured) : (g.schedule f).Nodup := by
  rw [schedule, List.nodup_flatMap]
  refine ⟨fun b _ => s.nodup b, d.order.nodup.imp fun {b c} ne v inB inC => ne ?_⟩
  exact Option.some.inj ((s.home_of_mem inB).symm.trans (s.home_of_mem inC))

/-- The schedule is no longer than there are values. -/
theorem length_schedule_le (d : g.Describes f) (s : f.Structured) :
    (g.schedule f).length ≤ f.values.size := by
  have exist : g.schedule f ⊆ List.range f.values.size := by
    intro v hv
    obtain ⟨b, -, mem⟩ := (mem_schedule d).mp hv
    exact List.mem_range.mpr (lt_size_of_home? (s.home_of_mem mem))
  simpa using ((nodup_schedule d s).subperm exist).length_le

/-- A block with a smaller place stands before the other one. -/
theorem mem_before_of_idxOf_lt {order before after : List BlockId} (nodup : order.Nodup)
    (split : order = before ++ b :: after) (lt : order.idxOf a < order.idxOf b) :
    a ∈ before := by
  rw [split] at lt nodup
  by_contra out
  have fresh : b ∉ before := fun mem => (List.nodup_append.mp nodup).2.2 b mem b (by simp) rfl
  simp only [List.idxOf_append, out, fresh, if_false, List.idxOf_cons_self] at lt
  omega

/-- What stands in an earlier block is scheduled before what stands in a later one. -/
theorem scheduled_before (d : g.Describes f) (s : f.Structured) (hb : b ∈ g.order)
    (lt : g.order.idxOf a < g.order.idxOf b) (hx : x ∈ f.membersAt a) (hv : v ∈ f.membersAt b) :
    x ∈ g.schedule f ∧ (g.schedule f).idxOf x < (g.schedule f).idxOf v := by
  obtain ⟨front, back, order⟩ := List.append_of_mem hb
  obtain ⟨before, after, listed⟩ := List.append_of_mem hv
  have early : x ∈ front.flatMap f.membersAt ++ before :=
    List.mem_append_left _
      (List.mem_flatMap.mpr ⟨a, mem_before_of_idxOf_lt d.order.nodup order lt, hx⟩)
  have split : g.schedule f =
      (front.flatMap f.membersAt ++ before) ++ v :: (after ++ back.flatMap f.membersAt) := by
    simp [schedule, order, listed]
  have nodup := nodup_schedule d s
  rw [split] at nodup ⊢
  exact ⟨List.mem_append_left _ early, idxOf_lt_of_mem_before nodup early⟩

/-- The operands of a scheduled instruction are scheduled, and before it. -/
theorem operand_earlier (d : g.Describes f) (wf : f.WellFormed g) (all : f.AllListed) {o : Opcode}
    (hv : v ∈ g.schedule f) (code : f.opcode? v = some o) (kind : o.isPhi = false)
    (hx : x ∈ o.operands) :
    x ∈ g.schedule f ∧ (g.schedule f).idxOf x < (g.schedule f).idxOf v := by
  have s := wf.structured
  obtain ⟨b, hb, mem⟩ := List.mem_flatMap.mp hv
  have instr := s.mem_instrsAt_of_home all (s.home_of_mem mem) code kind
  obtain ⟨before, after, listed⟩ := List.append_of_mem instr
  obtain ⟨home, stands, here⟩ := (wf.uses b hb).reads before v after listed o code x hx
  split at here
  · obtain ⟨front, back, order⟩ := List.append_of_mem hb
    have early : x ∈ front.flatMap f.membersAt ++ (f.phisAt b ++ before) :=
      List.mem_append_right _ here
    have split : g.schedule f =
        (front.flatMap f.membersAt ++ (f.phisAt b ++ before)) ++ v ::
          (after ++ back.flatMap f.membersAt) := by
      simp [schedule, order, membersAt, listed]
    have nodup := nodup_schedule d s
    rw [split] at nodup ⊢
    exact ⟨List.mem_append_left _ early, idxOf_lt_of_mem_before nodup early⟩
  · next other =>
    obtain ⟨-, above⟩ := d.dominates_iff.mp here
    exact scheduled_before d s hb (d.idxOf_lt_of_above above other) (all x home stands) mem

end FlowGraph

end Rangefinder
