import Rangefinder.Proofs.Analysis.Readings
import Rangefinder.Proofs.Procedure.Schedule

/-!
# Readings are exact

Reading a value as another value plus a constant ends for every value of a reachable block, since it
goes down in the order in which values are computed. What is read is right for every choice of
integers that solves the defining equations of the values, and an inequality that is read from a test
is true exactly when the test turns out that way.

The equations are needed of the values of reachable blocks only. This matters, as the equations of
code that is never reached need not have a solution: an instruction there may add one to itself.
-/

namespace Rangefinder.Procedure

variable {f : Procedure} {g : FlowGraph} {v : ValueId} {val : ValueId → Int}

/-! ### Reading ends -/

section Ends

variable (d : g.Describes f) (wf : f.WellFormed g)

include d wf

/-- A scheduled value exists. -/
theorem lt_size_of_scheduled (hv : v ∈ g.schedule f) : v < f.values.size := by
  obtain ⟨b, -, mem⟩ := (FlowGraph.mem_schedule d).mp hv
  exact lt_size_of_home? (wf.structured.home_of_mem mem)

/-- There are more values than there are positions before a scheduled value. -/
theorem idxOf_schedule_lt (hv : v ∈ g.schedule f) : (g.schedule f).idxOf v < f.values.size :=
  Nat.lt_of_lt_of_le (List.idxOf_lt_length_iff.mpr hv)
    (FlowGraph.length_schedule_le d wf.structured)

variable (all : f.AllListed)

include all

/-- Following betas from a scheduled value ends at a scheduled value that comes no later. -/
theorem throughBetas_yields {steps : Nat} (hv : v ∈ g.schedule f)
    (enough : (g.schedule f).idxOf v < steps) :
    Yields (f.throughBetas steps v) fun w =>
      w ∈ g.schedule f ∧ (g.schedule f).idxOf w ≤ (g.schedule f).idxOf v := by
  induction steps generalizing v with
  | zero => omega
  | succ steps ih =>
    refine (opcode_yields (lt_size_of_scheduled d wf hv)).bind fun o code => ?_
    split
    · next input range =>
      obtain ⟨scheduled, earlier⟩ := FlowGraph.operand_earlier d wf all hv code rfl
        (show input ∈ _ by simp [Opcode.operands])
      exact (ih scheduled (by omega)).mono fun w found => ⟨found.1, found.2.trans earlier.le⟩
    · exact .ok ⟨hv, Nat.le_refl _⟩

/-- Reading a scheduled value ends. -/
theorem readOffset_yields {depth : Nat} (hv : v ∈ g.schedule f)
    (enough : (g.schedule f).idxOf v < depth) : Yields (f.readOffset depth v) fun _ => True := by
  induction depth generalizing v with
  | zero => omega
  | succ depth ih =>
    refine (throughBetas_yields d wf all hv (Nat.lt_succ_of_lt (idxOf_schedule_lt d wf hv))).bind
      fun w ⟨hw, le⟩ => ?_
    refine (value_yields (lt_size_of_scheduled d wf hw)).bind fun value found => ?_
    split
    · exact .ok trivial
    · split
      · exact .ok trivial
      · next op lhs rhs flags binary =>
        have code : f.opcode? w = some (.binary op lhs rhs flags) := by
          rw [opcode?_of_value found, binary]
        have operand : ∀ x ∈ [lhs, rhs], Yields (f.readOffset depth x) fun _ => True := by
          intro x hx
          obtain ⟨scheduled, earlier⟩ := FlowGraph.operand_earlier d wf all hw code rfl hx
          exact ih scheduled (by omega)
        split
        · exact (operand lhs (by simp)).bind fun _ _ => (operand rhs (by simp)).bind fun _ _ =>
            .ok trivial
        · exact .ok trivial
      · exact .ok trivial

/-- Every scheduled value can be read. -/
theorem offset_yields (hv : v ∈ g.schedule f) : Yields (f.offset v) fun _ => True :=
  readOffset_yields d wf all hv (Nat.lt_succ_of_lt (idxOf_schedule_lt d wf hv))

/-- Every scheduled value can be read as a test. -/
theorem inequality_yields (hv : v ∈ g.schedule f) (truth : Bool) :
    Yields (f.inequality v truth) fun _ => True := by
  refine (opcode_yields (lt_size_of_scheduled d wf hv)).bind fun o code => ?_
  split
  · next op lhs rhs =>
    have scheduled : ∀ x ∈ [lhs, rhs], x ∈ g.schedule f := fun x hx =>
      (FlowGraph.operand_earlier d wf all hv code rfl hx).1
    have typed : ∀ x ∈ [lhs, rhs], Yields (f.typeOf x) fun _ => True := fun x hx =>
      (value_yields (lt_size_of_scheduled d wf (scheduled x hx))).bind fun _ _ => .ok trivial
    have read : ∀ x ∈ [lhs, rhs], Yields (f.offset x) fun _ => True := fun x hx =>
      offset_yields d wf all (scheduled x hx)
    refine (typed lhs (by simp)).bind fun _ _ => ?_
    split
    · exact .ok trivial
    · refine (typed rhs (by simp)).bind fun _ _ => ?_
      split
      · exact .ok trivial
      · exact (read lhs (by simp)).bind fun _ _ => (read rhs (by simp)).bind fun _ _ => .ok trivial
  · exact .ok trivial

end Ends

/-! ### What is read is right -/

/-- A reading gives the integer of the value, when the equations hold of a set of values that contains
it and the operands of the instructions in it. -/
theorem IsOffset.eq_eval {o : Offset} (read : f.IsOffset v o) (within : ValueId → Prop)
    (hv : within v)
    (closed : ∀ v o x, within v → f.opcode? v = some o → o.isPhi = false → x ∈ o.operands → within x)
    (solves : ∀ v, within v → f.SolvesAt [.add, .sub] val v) : val v = o.eval val := by
  induction read with
  | self => simp [Offset.eval]
  | const code => simp [Offset.eval, (solves _ hv).const _ code]
  | beta code _ ih =>
    rw [(solves _ hv).beta _ _ code]
    exact ih (closed _ _ _ hv code rfl (by simp [Opcode.operands]))
  | combine code typed sum checked _ _ combined left right =>
    have exact := (solves _ hv).binary _ _ _ _ code (by simpa using sum) typed checked
    rw [left (closed _ _ _ hv code rfl (by simp [Opcode.operands])),
      right (closed _ _ _ hv code rfl (by simp [Opcode.operands])),
      combineOffsets_eval sum combined] at exact
    exact (Option.some.inj exact).symm

/-- An inequality holds exactly when the comparison that it is read from turns out that way. -/
theorem inequality_holds_iff {op : CompareOp} {left right : Offset} {i : LinearInequality}
    {truth : Bool} {a b : Int} (ha : a = left.eval val) (hb : b = right.eval val)
    (read : inequalityOf (if truth then op else op.negate) left right = some i) :
    op.holds (.ofInt a) (.ofInt b) = truth ↔ i.Holds val := by
  rw [inequalityOf_holds_iff read, CompareOp.holds_of_toRat? (a := a) (b := b) rfl rfl, ← ha, ← hb]
  cases truth with
  | true => rfl
  | false => simp [CompareOp.onInts_negate]

/-- In a procedure that the verifier accepts and that lists every value in the block it stands in, each
value of a reachable block can be read, and it is what is read: the term, if there is one, plus the
constant. A test in a reachable block can be read too, and when an inequality comes out, it is true
exactly when the comparison has the truth value that it was read with. This holds of all integers that
solve the equations of the values of reachable blocks, and for tests elsewhere of those that solve the
equations of all values. -/
theorem readings_exact (accepted : f.verify = .ok (.ok ())) (all : f.AllListed) :
    (∀ v, f.Scheduled v → ∃ o, f.offset v = .ok o ∧
      ∀ val, (∀ w, f.Scheduled w → f.SolvesAt [.add, .sub] val w) → val v = o.eval val) ∧
    ∀ cond truth, (f.Scheduled cond → ∃ r, f.inequality cond truth = .ok r) ∧
      ∀ i, f.inequality cond truth = .ok (some i) →
        ∃ op lhs rhs, f.opcode? cond = some (.compare op lhs rhs) ∧
          ∀ val, (∀ w, f.Scheduled w ∨ ¬f.Scheduled cond → f.SolvesAt [.add, .sub] val w) →
            (op.holds (.ofInt (val lhs)) (.ofInt (val rhs)) = truth ↔ i.Holds val) := by
  obtain ⟨-, g, built, wf⟩ := verify_eq_ok.mp accepted
  have d := FlowGraph.build_describes wf.structured.numbered wf.structured.entry built
  have closed : ∀ v o x, f.Scheduled v → f.opcode? v = some o → o.isPhi = false → x ∈ o.operands →
      f.Scheduled x := by
    intro v o x hv code kind hx
    rw [← FlowGraph.mem_schedule d] at hv ⊢
    exact (FlowGraph.operand_earlier d wf all hv code kind hx).1
  refine ⟨fun v hv => ?_, fun cond truth => ⟨fun hc => ?_, fun i read => ?_⟩⟩
  · obtain ⟨o, read, -⟩ := offset_yields d wf all ((FlowGraph.mem_schedule d).mpr hv)
    exact ⟨o, read, fun val solves => (offset_spec read).eq_eval f.Scheduled hv closed solves⟩
  · obtain ⟨r, read, -⟩ := inequality_yields d wf all ((FlowGraph.mem_schedule d).mpr hc) truth
    exact ⟨r, read⟩
  · obtain ⟨op, lhs, rhs, left, right, code, -, -, readLeft, readRight, read⟩ :=
      SimpleLoop.inequality_spec read
    refine ⟨op, lhs, rhs, code, fun val solves => ?_⟩
    have closed' : ∀ v o x, f.Scheduled v ∨ ¬f.Scheduled cond → f.opcode? v = some o →
        o.isPhi = false → x ∈ o.operands → f.Scheduled x ∨ ¬f.Scheduled cond :=
      fun v o x hv code kind hx => hv.imp_left fun hv => closed v o x hv code kind hx
    have sides : ∀ x ∈ [lhs, rhs], f.Scheduled x ∨ ¬f.Scheduled cond := fun x hx =>
      closed' cond _ x (em _) code rfl hx
    exact inequality_holds_iff
      (readLeft.eq_eval _ (sides lhs (by simp)) closed' solves)
      (readRight.eq_eval _ (sides rhs (by simp)) closed' solves) read

/-- Adds three to its parameter, takes ten off what a beta makes of the sum, and compares the result
with the parameter. -/
def shifted : Procedure where
  name := "shifted"
  entry := 0
  blocks := #[⟨0, [], [0, 1, 2, 3, 4, 5, 6], .exit (some 6), false⟩]
  values := #[⟨0, .param 0, .int32, some 0, none⟩, ⟨1, .const (.int 3), .int32, some 0, none⟩,
    ⟨2, .const (.int 10), .int32, some 0, none⟩,
    ⟨3, .binary .add 0 1 .checked, .int32, some 0, none⟩,
    ⟨4, .beta 3 .anyInt32, .int32, some 0, none⟩,
    ⟨5, .binary .sub 4 2 .checked, .int32, some 0, none⟩,
    ⟨6, .compare .lt 5 0, .boolean, some 0, none⟩]
  unsupported := false
  reasons := []

/-- The equation of a constant, a beta or an operation, as a test. -/
def balances (f : Procedure) (val : ValueId → Int) (v : ValueId) : Bool :=
  match f.opcode? v with
  | some (.const (.int c)) => val v = c
  | some (.beta x _) => val v = val x
  | some (.binary op x y _) => op.onIntegers? (val x) (val y) = some (val v)
  | _ => true

/-- The equations of `shifted` have a solution. -/
theorem shifted_solvable : ∃ val, ∀ w, shifted.SolvesAt [.add, .sub] val w := by
  let val : ValueId → Int := fun v => [5, 3, 10, 8, 8, -2].getD v 0
  have each : ∀ v < shifted.values.size, shifted.balances val v = true := by decide
  refine ⟨val, fun w => ⟨fun c code => ?_, fun x range code => ?_, fun op x y flags code _ _ _ => ?_⟩⟩
  all_goals
    have equation := each w (lt_size_of_opcode? code)
    rw [balances, code] at equation
    exact of_decide_eq_true equation

/-- The result is read as the parameter less seven, and the test as an inequality with the parameter on
both sides. -/
theorem shifted_exact :
    (shifted.verify = .ok (.ok ()) ∧ shifted.AllListed ∧ shifted.Scheduled 5 ∧
      shifted.offset 5 = .ok ⟨some 0, -7⟩ ∧
      shifted.inequality 6 true = .ok (some ⟨⟨some 0, -6⟩, some 0, true⟩)) ∧
    ∃ val, (∀ w, shifted.SolvesAt [.add, .sub] val w) ∧ val 5 = val 0 + -7 ∧
      (CompareOp.lt.holds (.ofInt (val 5)) (.ofInt (val 0)) = true ↔ val 0 + -6 ≤ val 0) := by
  have accepted : shifted.verify = .ok (.ok ()) := by decide +kernel
  have listed : shifted.AllListed := by decide +kernel
  have scheduled : shifted.Scheduled 5 := ⟨0, ⟨[0], .entry⟩, by decide⟩
  have read : shifted.offset 5 = .ok ⟨some 0, -7⟩ := by decide +kernel
  have test : shifted.inequality 6 true = .ok (some ⟨⟨some 0, -6⟩, some 0, true⟩) := by decide +kernel
  obtain ⟨values, tests⟩ := readings_exact accepted listed
  obtain ⟨o, read', value⟩ := values 5 scheduled
  obtain rfl := Except.ok.inj (read.symm.trans read')
  obtain ⟨op, lhs, rhs, code, holds⟩ := (tests 6 true).2 _ test
  have own : shifted.opcode? 6 = some (.compare .lt 5 0) := by decide
  obtain ⟨rfl, rfl, rfl⟩ := Opcode.compare.inj (Option.some.inj (own.symm.trans code))
  obtain ⟨val, solves⟩ := shifted_solvable
  exact ⟨⟨accepted, listed, scheduled, read, test⟩, val, solves, value val fun w _ => solves w,
    holds val fun w _ => solves w⟩

end Rangefinder.Procedure
