import Rangefinder.Proofs.Procedure.Testing

/-!
# Procedures on int32 values

`Int32Only` describes the procedures in which every number is an int32 or a truth value: the types say
so, and the opcodes of each type are ones that give such numbers. It is a condition on the text of a
procedure and can be evaluated.

The passes do not keep it to the letter. A use of an int32 may come to read a truth value, when a
bounds check collapses into its index, and betas appear. `Integral` is what they do keep: every whole
value, as int32 and truth values are called together, is computed by an opcode that gives an int32 from
whole operands, and nothing else than whole values is stored in arrays.
-/

namespace Rangefinder

/-- Values of the type are int32 numbers or truth values. -/
def ValueType.isWhole : ValueType → Bool
  | int32 | boolean => true
  | _ => false

/-- Elements of such a typed array are int32 numbers. -/
def ElementType.isInt32 : ElementType → Bool
  | int8 | uint8 | uint8Clamped | int16 | uint16 | int32 => true
  | _ => false

/-- The operation gives an int32 for an int32, or an overflow. -/
def UnaryOp.isInt32 : UnaryOp → Bool
  | bitNot | abs | toInt32 => true
  | _ => false

namespace Procedure

/-- The value is an int32 number or a truth value. -/
def isWhole (f : Procedure) (v : ValueId) : Bool := (f.type? v).any ValueType.isWhole

end Procedure

namespace Opcode

variable {f : Procedure} {o : Opcode} {ρ : ValueId → ValueId} {π : BlockId → ValueId → ValueId}

/-- The opcode computes an int32 number from whole values or from arrays. -/
def isInt32Form (f : Procedure) : Opcode → Bool
  | const (.int n) => decide (IsInt32 n)
  | param _ | arrayLength _ | typedArrayLength _ => true
  | phi inputs => inputs.all fun input => f.isWhole input.1
  | binary _ lhs rhs _ => f.isWhole lhs && f.isWhole rhs
  | unary op operand => op.isInt32 && f.isWhole operand
  | boundsCheck index length minimum maximum _ =>
    f.isWhole index && f.isWhole length && decide (IsInt32 minimum) && decide (IsInt32 maximum)
  | loadTyped _ _ element => element.isInt32
  | _ => false

/-- The opcode gives a truth value: a constant, an argument, a comparison of int32 numbers, or a choice
of truth values. -/
def isBooleanForm (f : Procedure) : Opcode → Bool
  | const (.bool _) | param _ => true
  | compare _ lhs rhs => f.type? lhs == some .int32 && f.type? rhs == some .int32
  | phi inputs => inputs.all fun input => f.type? input.1 == some .boolean
  | _ => false

/-- The opcode is a lower check, or stores an int32 number. -/
def isEffectForm (f : Procedure) : Opcode → Bool
  | lowerCheck _ _ => true
  | storeElement _ _ stored => f.type? stored == some .int32
  | _ => false

/-- The opcode is an argument. -/
def isParam : Opcode → Bool
  | param _ => true
  | _ => false

/-- The opcode fits a type of a procedure that computes with int32 numbers only. -/
def isInt32Only (f : Procedure) (o : Opcode) : ValueType → Bool
  | .int32 => o.isInt32Form f
  | .boolean => o.isBooleanForm f
  | .object => o.isParam
  | .effect => o.isEffectForm f
  | _ => false

/-- The operation is no assertion. If it is arithmetic, it checks for every edge case or wraps. -/
def isPlain : Opcode → Bool
  | binary op _ _ flags => op.isBitwise || flags == .checked || flags == .wraps
  | assertRange _ _ => false
  | _ => true

/-- The opcode gives an int32 number if the operands that it computes with are whole. -/
def isWholeForm (type : ValueType) : Opcode → Bool
  | const (.int n) => decide (IsInt32 n)
  | const (.bool _) | param _ | phi _ | beta _ _ | compare _ _ _ | arrayLength _
  | typedArrayLength _ | boundsCheck _ _ _ _ _ => true
  | binary _ _ _ _ => type == .int32
  | unary op _ => type == .int32 && op.isInt32
  | loadTyped _ _ element => element.isInt32
  | _ => false

/-- The limits of a bounds check. -/
def limits : Opcode → List Int
  | boundsCheck _ _ minimum maximum _ => [minimum, maximum]
  | _ => []

/-- The operands that an opcode computes with, and what it stores in an array. -/
def wholeOperands : Opcode → List ValueId
  | phi inputs => inputs.map Prod.fst
  | beta input _ => [input]
  | binary _ lhs rhs _ => [lhs, rhs]
  | unary _ operand => [operand]
  | boundsCheck index length _ _ _ => [index, length]
  | storeElement _ _ stored => [stored]
  | _ => []

/-- Whole operands are operands. -/
theorem wholeOperands_subset (o : Opcode) : o.wholeOperands ⊆ o.operands := by
  cases o <;> simp [wholeOperands, operands]

/-- Renaming keeps the form. -/
theorem isWholeForm_rename {type : ValueType} :
    (o.rename ρ π).isWholeForm type = o.isWholeForm type := by
  cases o <;> rfl

/-- Renaming keeps the limits. -/
theorem limits_rename : (o.rename ρ π).limits = o.limits := by
  cases o <;> rfl

/-- Whole operands are renamed. -/
theorem wholeOperands_rename (h : o.isPhi = false) :
    (o.rename ρ π).wholeOperands = o.wholeOperands.map ρ := by
  cases o with
  | phi inputs => cases h
  | _ => rfl

/-- Each comes from an operand. -/
theorem mem_wholeOperands_rename {x' : ValueId} (h : x' ∈ (o.rename ρ π).wholeOperands) :
    ∃ x ∈ o.wholeOperands, x' = ρ x ∨ ∃ q, x' = π q x := by
  cases kind : o.isPhi with
  | false =>
    rw [wholeOperands_rename kind] at h
    obtain ⟨x, hx, rfl⟩ := List.mem_map.mp h
    exact ⟨x, hx, .inl rfl⟩
  | true =>
    cases o with
    | phi inputs =>
      simp only [rename, wholeOperands, List.map_map, List.mem_map, Function.comp] at h
      obtain ⟨i, hi, rfl⟩ := h
      exact ⟨i.1, List.mem_map_of_mem hi, .inr ⟨i.2, rfl⟩⟩
    | _ => cases kind

end Opcode

namespace Procedure

variable {f f' : Procedure} {v : ValueId}

/-- The procedure computes with int32 numbers and truth values only. -/
def Int32Only (f : Procedure) : Prop :=
  ∀ v o type, f.opcode? v = some o → f.type? v = some type → o.isInt32Only f type = true

instance : Decidable f.Int32Only :=
  decidable_of_iff (∀ v < f.values.size, ∀ o ∈ f.opcode? v, ∀ type ∈ f.type? v,
    o.isInt32Only f type = true)
    ⟨fun h v o type code typed => h v (lt_size_of_opcode? code) o code type typed,
      fun h v _ o code type typed => h v o type code typed⟩

/-- No operation is an assertion, and arithmetic checks for every edge case or wraps. -/
def Plain (f : Procedure) : Prop := ∀ v o, f.opcode? v = some o → o.isPlain = true

instance : Decidable f.Plain :=
  decidable_of_iff (∀ v < f.values.size, ∀ o ∈ f.opcode? v, o.isPlain = true)
    ⟨fun h v o code => h v (lt_size_of_opcode? code) o code, fun h v _ => h v⟩

/-- Every whole value is computed by an opcode that gives an int32 from whole operands, only whole
values are stored, and the limits of checks are int32. -/
structure Integral (f : Procedure) : Prop where
  form : ∀ v o type, f.opcode? v = some o → f.type? v = some type → type.isWhole = true →
    o.isWholeForm type = true
  operands : ∀ v o, f.opcode? v = some o → ∀ x ∈ o.wholeOperands, f.isWhole x = true
  limits : ∀ v o, f.opcode? v = some o → ∀ n ∈ o.limits, IsInt32 n

/-- The type of a value tells if it is whole. -/
theorem isWhole_congr (same : f'.type? v = f.type? v) :
    f'.isWhole v = f.isWhole v := by
  rw [isWhole, isWhole, same]

/-- A whole type is enough. -/
theorem isWhole_of_type {type : ValueType} (typed : f.type? v = some type) (whole : type.isWhole = true) :
    f.isWhole v = true := by
  rw [isWhole, typed, Option.any_some, whole]

/-- What whole means. -/
theorem isWhole_iff :
    f.isWhole v = true ↔ ∃ type, f.type? v = some type ∧ type.isWhole = true := by
  rw [isWhole, Option.any_eq_true]

end Procedure

namespace Opcode

variable {f : Procedure} {o : Opcode}

/-- Int32 forms compute whole values. -/
theorem isInt32Form.whole (h : o.isInt32Form f = true) :
    o.isWholeForm .int32 = true ∧ (∀ x ∈ o.wholeOperands, f.isWhole x = true) ∧
      ∀ n ∈ o.limits, IsInt32 n := by
  cases o with
  | const literal => cases literal <;> simp_all [isInt32Form, isWholeForm, wholeOperands, limits]
  | phi inputs =>
    refine ⟨rfl, fun x hx => ?_, nofun⟩
    obtain ⟨input, mem, rfl⟩ := List.mem_map.mp hx
    exact List.all_eq_true.mp h input mem
  | _ => simp_all [isInt32Form, isWholeForm, wholeOperands, limits]

/-- So do boolean forms. -/
theorem isBooleanForm.whole (h : o.isBooleanForm f = true) :
    o.isWholeForm .boolean = true ∧ (∀ x ∈ o.wholeOperands, f.isWhole x = true) ∧ o.limits = [] := by
  cases o with
  | const literal => cases literal <;> simp_all [isBooleanForm, isWholeForm, wholeOperands, limits]
  | phi inputs =>
    refine ⟨rfl, fun x hx => ?_, rfl⟩
    obtain ⟨input, mem, rfl⟩ := List.mem_map.mp hx
    exact Procedure.isWhole_of_type (beq_iff_eq.mp (List.all_eq_true.mp h input mem)) rfl
  | _ => simp_all [isBooleanForm, isWholeForm, wholeOperands, limits]

/-- Effects use whole values. -/
theorem isEffectForm.whole (h : o.isEffectForm f = true) :
    (∀ x ∈ o.wholeOperands, f.isWhole x = true) ∧ o.limits = [] := by
  cases o with
  | lowerCheck index minimum => exact ⟨nofun, rfl⟩
  | storeElement array index stored =>
    refine ⟨fun x hx => ?_, rfl⟩
    obtain rfl := List.mem_singleton.mp hx
    exact Procedure.isWhole_of_type (beq_iff_eq.mp h) rfl
  | _ => cases h

end Opcode

namespace Procedure

variable {f f' : Procedure} {before after : List ValueId} {type : ValueType} {o : Opcode} {v : ValueId}
  {b : BlockId}

/-- An opcode that fits its type computes with whole operands, and its limits are int32. -/
theorem Int32Only.whole (h : f.Int32Only) (code : f.opcode? v = some o) :
    (∀ x ∈ o.wholeOperands, f.isWhole x = true) ∧ ∀ n ∈ o.limits, IsInt32 n := by
  obtain ⟨value, found, -⟩ := Option.map_eq_some_iff.mp code
  have fits := h v o value.type code (type?_of_value found)
  generalize value.type = type at fits
  cases type with
  | int32 => exact (Opcode.isInt32Form.whole fits).2
  | boolean =>
    obtain ⟨-, operands, none⟩ := Opcode.isBooleanForm.whole fits
    exact ⟨operands, by simp [none]⟩
  | effect =>
    obtain ⟨operands, none⟩ := Opcode.isEffectForm.whole fits
    exact ⟨operands, by simp [none]⟩
  | object =>
    cases o with
    | param index => exact ⟨nofun, nofun⟩
    | _ => cases fits
  | double | boxed => cases fits

/-- A procedure that computes with int32 numbers only is integral. -/
theorem Int32Only.integral (h : f.Int32Only) : f.Integral where
  form v o type code typed whole := by
    have fits := h v o type code typed
    cases type with
    | int32 => exact (Opcode.isInt32Form.whole fits).1
    | boolean => exact (Opcode.isBooleanForm.whole fits).1
    | _ => cases whole
  operands v o code := (h.whole code).1
  limits v o code := (h.whole code).2

/-- No value is a double. -/
def NoDoubles (f : Procedure) : Prop := ∀ v, f.type? v ≠ some .double

/-- No opcode fits a double. -/
theorem Int32Only.noDoubles (h : f.Int32Only) : f.NoDoubles := by
  intro v typed
  obtain ⟨value, found, -⟩ := Option.map_eq_some_iff.mp typed
  cases h v value.opcode .double (opcode?_of_value found) typed

/-- Where no value is a double, numbers are whole. -/
theorem NoDoubles.isWhole (h : f.NoDoubles) (typed : f.type? v = some type)
    (number : type.isNumber = true) : f.isWhole v = true := by
  cases type with
  | int32 => exact isWhole_of_type typed rfl
  | double => exact absurd typed (h v)
  | _ => cases number

/-- What a whole value hands on is whole, so branches of the procedure test what can be tested. -/
theorem Int32Only.testable (h : f.Int32Only) (branches : f.BranchesTestable) : f.Testable := by
  refine ⟨branches, fun v o x code handed _ => ?_⟩
  have whole : f.isWhole x = true := by
    refine h.integral.operands v o code x ?_
    unfold Opcode.handsOn at handed
    split at handed <;> simp_all [Opcode.wholeOperands]
  obtain ⟨type, typed, whole⟩ := isWhole_iff.mp whole
  rw [isTestable, ← type?, typed]
  cases type with
  | int32 | boolean => rfl
  | _ => cases whole

/-- Values keep their type when a new one is placed. -/
theorem Placed.isWhole {x : ValueId} (placed : f.Placed f' b before after o type)
    (whole : f.isWhole x = true) :
    f'.isWhole x = true := by
  obtain ⟨type', typed, whole⟩ := isWhole_iff.mp whole
  refine isWhole_of_type ?_ whole
  rw [placed.type?, if_neg (Nat.ne_of_lt (lt_size_of_type? typed)), typed]

namespace Integral

/-- Ranges and marks do not matter. -/
theorem of_sameCode (h : f.Integral) (same : SameCode f f') : f'.Integral where
  form v o type code typed := h.form v o type (same.opcode? v ▸ code) (same.type? v ▸ typed)
  operands v o code x hx := by
    rw [isWhole_congr (same.type? x)]
    exact h.operands v o (same.opcode? v ▸ code) x hx
  limits v o code := h.limits v o (same.opcode? v ▸ code)

/-- A new value is computed like the others. -/
theorem place (h : f.Integral) (placed : f.Placed f' b before after o type)
    (form : type.isWhole = true → o.isWholeForm type = true)
    (operands : ∀ x ∈ o.wholeOperands, f.isWhole x = true) (limits : ∀ n ∈ o.limits, IsInt32 n) :
    f'.Integral := by
  refine ⟨fun v o' type' code typed whole => ?_, fun v o' code x hx => placed.isWhole ?_,
    fun v o' code => ?_⟩
  · rw [placed.opcode?] at code
    rw [placed.type?] at typed
    split at code
    · next new =>
      rw [if_pos new] at typed
      obtain rfl := Option.some.inj code
      obtain rfl := Option.some.inj typed
      exact form whole
    · next other =>
      rw [if_neg other] at typed
      exact h.form v o' type' code typed whole
  · rw [placed.opcode?] at code
    split at code
    · exact operands x (Option.some.inj code ▸ hx)
    · exact h.operands v o' code x hx
  · rw [placed.opcode?] at code
    split at code
    · exact Option.some.inj code ▸ limits
    · exact h.limits v o' code

/-- Uses may be renamed as long as whole values stay whole. -/
theorem rename {ρ : ValueId → ValueId → ValueId} {π : ValueId → BlockId → ValueId → ValueId}
    {τ : BlockId → ValueId → ValueId} (h : f.Integral) (renamed : Renaming f f' ρ π τ)
    (operand : ∀ v x, f.isWhole x = true → f.isWhole (ρ v x) = true)
    (input : ∀ v q x, f.isWhole x = true → f.isWhole (π v q x) = true) : f'.Integral where
  form v o' type code typed whole := by
    rw [renamed.opcode?, Option.map_eq_some_iff] at code
    obtain ⟨o, code, rfl⟩ := code
    rw [Opcode.isWholeForm_rename]
    exact h.form v o type code (renamed.type? v ▸ typed) whole
  operands v o' code x' hx' := by
    rw [renamed.opcode?, Option.map_eq_some_iff] at code
    obtain ⟨o, code, rfl⟩ := code
    obtain ⟨x, hx, moved⟩ := Opcode.mem_wholeOperands_rename hx'
    have whole := h.operands v o code x hx
    rw [isWhole_congr (renamed.type? x')]
    rcases moved with rfl | ⟨q, rfl⟩
    · exact operand v x whole
    · exact input v q x whole
  limits v o' code := by
    rw [renamed.opcode?, Option.map_eq_some_iff] at code
    obtain ⟨o, code, rfl⟩ := code
    rw [Opcode.limits_rename]
    exact h.limits v o code

/-- Uses of a value may be redirected to a beta of the same type. -/
theorem redirect {g : FlowGraph} {old beta : ValueId} {dom : BlockId} (h : f.Integral)
    (redirects : Redirects g old beta dom f f') (type : f.type? beta = f.type? old) :
    f'.Integral := by
  obtain ⟨ρ, π, τ, renamed, hρ, hπ, -⟩ := redirects
  have same : f.isWhole beta = f.isWhole old := by rw [isWhole, isWhole, type]
  refine h.rename renamed (fun v x whole => ?_) fun v q x whole => ?_
  · rcases hρ v x with stays | ⟨⟨rfl, moves⟩, -⟩
    · rwa [stays]
    · rwa [moves, same]
  · rcases hπ v q x with stays | ⟨⟨rfl, moves⟩, -⟩
    · rwa [stays]
    · rwa [moves, same]

/-- A value may be recoded by an operation on whole operands that gives what its type asks for. -/
theorem recode (h : f.Integral) (opcode? : ∀ w, f'.opcode? w = if w = v then some o else f.opcode? w)
    (type? : ∀ w, f'.type? w = f.type? w)
    (form : ∀ type, f.type? v = some type → type.isWhole = true → o.isWholeForm type = true)
    (operands : ∀ x ∈ o.wholeOperands, f.isWhole x = true) (limits : ∀ n ∈ o.limits, IsInt32 n) :
    f'.Integral := by
  refine ⟨fun w o' type code typed whole => ?_, fun w o' code x hx => ?_, fun w o' code => ?_⟩
  all_goals
    rw [opcode?] at code
    split at code
  · next own =>
    obtain rfl := Option.some.inj code
    exact form type (own ▸ type? w ▸ typed) whole
  · exact h.form w o' type code (type? w ▸ typed) whole
  · rw [isWhole_congr (type? x)]
    exact operands x (Option.some.inj code ▸ hx)
  · rw [isWhole_congr (type? x)]
    exact h.operands w o' code x hx
  · exact Option.some.inj code ▸ limits
  · exact h.limits w o' code

end Integral

end Procedure

end Rangefinder
