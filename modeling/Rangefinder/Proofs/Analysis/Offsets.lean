import Rangefinder.Linear.Extract
import Rangefinder.Proofs.Procedure.Integral
import Rangefinder.Proofs.Stages.Insertion

/-!
# Readings of values

The reading of a value as another value plus a constant follows betas, and sums and differences
that do not wrap around. `IsOffset` says which readings arise in this way. The value that is read
stands no lower than the one it is read from, so it is computed wherever that one is.
-/

namespace Rangefinder.Procedure

variable {f : Procedure} {g : FlowGraph} {o : Offset} {v t : ValueId}

/-- The second value is reached from the first one by following betas. -/
inductive Refines (f : Procedure) : ValueId → ValueId → Prop
  | refl {v : ValueId} : Refines f v v
  | beta {v x w : ValueId} {range : Range} : f.opcode? v = some (.beta x range) → Refines f x w →
    Refines f v w

/-- The value is another value plus a constant by its definition. -/
inductive IsOffset (f : Procedure) : ValueId → Offset → Prop
  | self {v : ValueId} : IsOffset f v ⟨some v, 0⟩
  | const {v : ValueId} {c : Int} : f.opcode? v = some (.const (.int c)) → IsOffset f v ⟨none, c⟩
  | beta {v x : ValueId} {range : Range} {o : Offset} : f.opcode? v = some (.beta x range) →
    IsOffset f x o → IsOffset f v o
  | combine {v lhs rhs : ValueId} {op : BinaryOp} {flags : ArithFlags} {l r o : Offset} :
    f.opcode? v = some (.binary op lhs rhs flags) → f.type? v = some .int32 →
    op = .add ∨ op = .sub → flags.wrapping = false → IsOffset f lhs l → IsOffset f rhs r →
    combineOffsets op l r = some o → IsOffset f v o

/-- Following betas ends at a value that is no beta. -/
theorem throughBetas_spec {steps : Nat} {v w : ValueId} (h : f.throughBetas steps v = .ok w) :
    f.Refines v w ∧ ∀ x range, f.opcode? w ≠ some (.beta x range) := by
  induction steps generalizing v with
  | zero => cases h
  | succ steps ih =>
    obtain ⟨o, op, h⟩ := bind_eq_ok.mp h
    rw [opcode_eq_ok] at op
    split at h
    · obtain ⟨refines, last⟩ := ih h
      exact ⟨.beta op refines, last⟩
    · next other =>
      obtain rfl := pure_eq_ok.mp h
      exact ⟨.refl, fun x range beta => other x range (Option.some.inj (op.symm.trans beta))⟩

/-- The reading of a value is that of the value it refines. -/
theorem Refines.isOffset {v w : ValueId} (h : f.Refines v w) (read : f.IsOffset w o) :
    f.IsOffset v o := by
  induction h with
  | refl => exact read
  | beta op _ ih => exact .beta op (ih read)

/-- A reading stays right while the values on the way keep their definitions. -/
theorem IsOffset.mono {f' : Procedure} (h : f.IsOffset v o)
    (codes : ∀ w o, f.opcode? w = some o → f'.opcode? w = some o)
    (types : ∀ w o, f.opcode? w = some o → f'.type? w = f.type? w) : f'.IsOffset v o := by
  induction h with
  | self => exact .self
  | const code => exact .const (codes _ _ code)
  | beta code _ ih => exact .beta (codes _ _ code) ih
  | combine code typed sum checked _ _ combined left right =>
    exact .combine (codes _ _ code) ((types _ _ code).trans typed) sum checked left right combined

/-- A reading is right by the definitions of the values on the way. -/
theorem readOffset_spec {depth : Nat} (h : f.readOffset depth v = .ok o) :
    f.IsOffset v o := by
  induction depth generalizing v o with
  | zero => cases h
  | succ depth ih =>
    obtain ⟨w, follow, h⟩ := bind_eq_ok.mp h
    obtain ⟨value, found, h⟩ := bind_eq_ok.mp h
    rw [value_eq_ok] at found
    refine (throughBetas_spec follow).1.isOffset ?_
    split at h
    · exact pure_eq_ok.mp h ▸ .self
    · next int32 =>
      have type : f.type? w = some .int32 := by
        rw [type?_of_value found, not_not.mp int32]
      split at h
      · next c const =>
        exact pure_eq_ok.mp h ▸ .const (by rw [opcode?_of_value found, const])
      · next op lhs rhs flags binary =>
        split at h
        · next sum =>
          obtain ⟨l, left, h⟩ := bind_eq_ok.mp h
          obtain ⟨r, right, h⟩ := bind_eq_ok.mp h
          obtain rfl := pure_eq_ok.mp h
          cases combined : combineOffsets op l r with
          | none => exact .self
          | some o =>
            exact .combine (by rw [opcode?_of_value found, binary]) type sum.1 sum.2 (ih left)
              (ih right) combined
        · exact pure_eq_ok.mp h ▸ .self
      · exact pure_eq_ok.mp h ▸ .self

/-- The reading of a value is right by the definitions of the values on the way. -/
theorem offset_spec (h : f.offset v = .ok o) : f.IsOffset v o :=
  readOffset_spec h

/-- A combined reading reads what one of the operands reads. -/
theorem combineOffsets_term {op : BinaryOp} {l r o : Offset} (h : combineOffsets op l r = some o)
    (term : o.term = some t) :
    l.term = some t ∨ r.term = some t := by
  rw [combineOffsets] at h
  split at h
  · cases h
  · split at h
    · obtain ⟨c, -, rfl⟩ := Option.map_eq_some_iff.mp h
      cases left : l.term with
      | none =>
        rw [left] at term
        exact .inr term
      | some s =>
        rw [left] at term
        exact .inl term
    · split at h
      · obtain ⟨c, -, rfl⟩ := Option.map_eq_some_iff.mp h
        exact .inl term
      · cases h

/-- A value that is neither a beta nor a sum or difference is read as itself. -/
theorem IsOffset.eq_self {c : Int} (h : f.IsOffset v ⟨some t, c⟩)
    (noBeta : ∀ x range, f.opcode? v ≠ some (.beta x range))
    (noSum : ∀ op l r flags, f.opcode? v ≠ some (.binary op l r flags)) : t = v ∧ c = 0 := by
  cases h with
  | self => exact ⟨rfl, rfl⟩
  | beta op _ => exact absurd op (noBeta _ _)
  | combine op => exact absurd op (noSum _ _ _ _)

/-- What a value reads belongs to every set of values that holds the value and, with an instruction,
what the instruction computes with. -/
theorem IsOffset.mem (h : f.IsOffset v o) (live : ValueId → Prop) (term : o.term = some t) (hv : live v)
    (closed : ∀ v o x, live v → f.opcode? v = some o → o.isPhi = false → x ∈ o.wholeOperands → live x) :
    live t := by
  induction h with
  | self => exact Option.some.inj term ▸ hv
  | const => cases term
  | beta op _ ih => exact ih term (closed _ _ _ hv op rfl (by simp [Opcode.wholeOperands]))
  | combine op _ _ _ _ _ combined left right =>
    rcases combineOffsets_term combined term with ofLeft | ofRight
    · exact left ofLeft (closed _ _ _ hv op rfl (by simp [Opcode.wholeOperands]))
    · exact right ofRight (closed _ _ _ hv op rfl (by simp [Opcode.wholeOperands]))

/-- What a value reads is defined at the end of every block at whose end the value is. -/
theorem IsOffset.definedAtEnd {q : BlockId} (h : f.IsOffset v o) (term : o.term = some t)
    (wf : f.WellFormed g) (d : g.Describes f) (all : f.AllListed) (defined : f.DefinedAtEnd g v q) :
    f.DefinedAtEnd g t q := by
  refine h.mem (fun x => f.DefinedAtEnd g x q) term defined fun v o x defined op kind hx => ?_
  obtain ⟨home, stands, -⟩ := id defined
  exact wf.definedAtEnd_operand d (wf.structured.mem_instrsAt_of_home all stands op kind) op
    (o.wholeOperands_subset hx) defined

/-- What a whole value reads is whole. -/
theorem IsOffset.isWhole (h : f.IsOffset v o) (term : o.term = some t) (integral : f.Integral)
    (whole : f.isWhole v = true) : f.isWhole t = true :=
  h.mem (fun x => f.isWhole x = true) term whole fun v o x _ code _ hx =>
    integral.operands v o code x hx

end Rangefinder.Procedure
