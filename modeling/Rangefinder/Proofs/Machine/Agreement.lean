import Rangefinder.Proofs.Machine.Safety

/-!
# Runs that agree

Two procedures agree on a run when their steps do: either both steps end the run, and for the same
reason as far as its caller can tell, or both go on with related states. `Agree` is this relation
between two computations, and the lemmas here say that the machine respects it: an instruction whose
operands were renamed computes the same result when the operands hold the same contents, and so do a
phi and a terminator.

What a failed run blames depends on the names of values, so failures are only required to correspond
to failures.
-/

namespace Rangefinder

/-- What the caller of a run learns of its end. A failure is a defect and not an answer. -/
def Halt.observed : Halt → Option Halt
  | failed _ | faulted _ => none
  | halt => some halt

/-- Two computations end the run with the same outcome, or both succeed with related results. -/
inductive Agree {α β : Type} (related : α → β → Prop) : Except Halt α → Except Halt β → Prop
  | ok {a : α} {b : β} (h : related a b) : Agree related (.ok a) (.ok b)
  | error {h h' : Halt} (same : h'.observed = h.observed) : Agree related (.error h) (.error h')

namespace Agree

variable {α β γ δ : Type} {related : α → β → Prop} {after : γ → δ → Prop}
  {x : Except Halt α} {y : Except Halt β}

/-- Results agree with themselves. -/
theorem refl (x : Except Halt α) : Agree Eq x x := by
  cases x with
  | ok a => exact .ok rfl
  | error h => exact .error rfl

/-- Sequences agree when their parts do. -/
theorem bind {next : α → Except Halt γ} {next' : β → Except Halt δ} (first : Agree related x y)
    (second : ∀ a b, related a b → Agree after (next a) (next' b)) :
    Agree after (x >>= next) (y >>= next') := by
  cases first with
  | ok h => exact second _ _ h
  | error same => exact .error same

/-- Related results are the results of the two computations. -/
theorem attach (h : Agree related x y) :
    Agree (fun a b => related a b ∧ x = .ok a ∧ y = .ok b) x y := by
  cases h with
  | ok h => exact .ok ⟨h, rfl, rfl⟩
  | error same => exact .error same

/-- Agreement is symmetric. -/
theorem symm {related' : β → α → Prop} (flip : ∀ a b, related a b → related' b a)
    (h : Agree related x y) : Agree related' y x := by
  cases h with
  | ok h => exact .ok (flip _ _ h)
  | error same => exact .error same.symm

/-- Successes agree. -/
theorem of_ok {a : α} (h : Agree related (.ok a) y) : ∃ b, y = .ok b ∧ related a b := by
  cases h with
  | ok h => exact ⟨_, rfl, h⟩

/-- Failures agree. -/
theorem of_error {halt : Halt} (h : Agree related (.error halt) y) :
    ∃ halt', y = .error halt' ∧ halt'.observed = halt.observed := by
  cases h with
  | error same => exact ⟨_, rfl, same⟩

end Agree

namespace Memory

variable {m m' : Memory} {v w : ValueId}

/-- Reads agree. -/
theorem read_agree (user user' : ValueId) (same : m'.slots[w]? = m.slots[v]?) :
    Agree Eq (m.read user v) (m'.read user' w) := by
  rw [read, read, same]
  cases found : m.slots[v]? with
  | none => exact .error rfl
  | some slot =>
    cases slot with
    | unset => exact .error rfl
    | empty | number x | array place => exact .ok rfl

/-- Numbers agree. -/
theorem number_agree (same : m'.slots[w]? = m.slots[v]?) : Agree Eq (m.number v) (m'.number w) := by
  refine (read_agree v w same).bind fun slot slot' eq => ?_
  subst eq
  cases slot with
  | number x => exact .ok rfl
  | unset | empty | array place => exact .error rfl

/-- Arrays agree. -/
theorem arrayAt_agree (store : m'.store = m.store) (same : m'.slots[w]? = m.slots[v]?) :
    Agree Eq (m.arrayAt v) (m'.arrayAt w) := by
  refine (read_agree v w same).bind fun slot slot' eq => ?_
  subst eq
  cases slot with
  | array place =>
    simp only [store]
    cases m.store[place]? with
    | none => exact .error rfl
    | some content => exact .ok rfl
  | unset | empty | number x => exact .error rfl

/-- The memories have the same store, and the same slots of the values that are kept. -/
structure SameOn (keep : ValueId → Bool) (m m' : Memory) : Prop where
  store : m'.store = m.store
  slots : ∀ v, keep v = true → m'.slots[v]? = m.slots[v]?

variable {keep : ValueId → Bool}

/-- The relation is symmetric. -/
theorem SameOn.symm (h : SameOn keep m m') : SameOn keep m' m :=
  ⟨h.store.symm, fun v kept => (h.slots v kept).symm⟩

/-- Equal writes keep it. -/
theorem SameOn.write (h : SameOn keep m m') (slot : Slot) :
    SameOn keep (m.write v slot) (m'.write v slot) := by
  refine ⟨h.store, fun w kept => ?_⟩
  rw [slots_write, slots_write, h.slots w kept]
  by_cases own : w = v
  · subst own
    have size : w < m'.slots.size ↔ w < m.slots.size := by
      rw [← not_iff_not, Nat.not_lt, Nat.not_lt, ← Array.getElem?_eq_none_iff,
        ← Array.getElem?_eq_none_iff, h.slots w kept]
    simp only [size]
  · rw [if_neg fun same => own same.1, if_neg fun same => own same.1]

/-- So do extra writes. -/
theorem SameOn.write_extra (h : SameOn keep m m') (extra : keep v = false) (slot : Slot) :
    SameOn keep m (m'.write v slot) := by
  refine ⟨h.store, fun w kept => ?_⟩
  have other : w ≠ v := by
    rintro rfl
    rw [kept] at extra
    cases extra
  rw [slots_write, if_neg fun same => other same.1, h.slots w kept]

/-- So do many writes. -/
theorem SameOn.writeAll (h : SameOn keep m m') (l : List (ValueId × Slot)) :
    SameOn keep (l.foldl (fun m e => m.write e.1 e.2) m)
      (l.foldl (fun m e => m.write e.1 e.2) m') := by
  induction l generalizing m m' with
  | nil => exact h
  | cons e rest ih => exact ih (h.write e.2)

end Memory

namespace Machine

variable {f f' : Procedure} {args : List Number} {m m' : Memory}

/-- Elements agree. -/
theorem element_agree {v array index array' index' : ValueId} (store : m'.store = m.store)
    (sameArray : m'.slots[array']? = m.slots[array]?)
    (sameIndex : m'.slots[index']? = m.slots[index]?) :
    Agree Eq (element m v array index) (element m' v array' index') := by
  refine (Memory.arrayAt_agree store sameArray).bind fun found found' eq => ?_
  subst eq
  refine (Memory.number_agree sameIndex).bind fun i i' eq => ?_
  subst eq
  exact .refl _

/-- Computing an instruction with renamed operands gives the same result when the operands hold the
same contents. -/
theorem compute_agree {v : ValueId} {type : ValueType} {o : Opcode} {ρ : ValueId → ValueId}
    (store : m'.store = m.store) (same : ∀ x ∈ o.operands, m'.slots[ρ x]? = m.slots[x]?) :
    Agree (fun r r' => r'.1.store = r.1.store ∧ r'.2 = r.2) (compute args m v type o)
      (compute args m' v type (o.mapOperands ρ)) := by
  cases o with
  | const literal => exact .ok ⟨store, rfl⟩
  | param index =>
    cases type with
    | object => exact .ok ⟨by simp [parameter, store], by simp [parameter, store]⟩
    | _ => exact .ok ⟨store, rfl⟩
  | phi inputs => exact .error rfl
  | beta input refinement =>
    refine (Memory.read_agree v v (same input (by simp [Opcode.operands]))).bind fun a b eq => ?_
    exact .ok ⟨store, eq.symm⟩
  | binary op lhs rhs flags =>
    refine (Memory.number_agree (same lhs (by simp [Opcode.operands]))).bind fun a a' eq => ?_
    subst eq
    refine (Memory.number_agree (same rhs (by simp [Opcode.operands]))).bind fun b b' eq => ?_
    subst eq
    refine (Agree.refl (binary v op a b flags type)).bind fun r r' eq => ?_
    exact .ok ⟨store, by rw [eq]⟩
  | unary op operand =>
    refine (Memory.number_agree (same operand (by simp [Opcode.operands]))).bind fun a a' eq => ?_
    subst eq
    refine (Agree.refl (unary v op a type)).bind fun r r' eq => ?_
    exact .ok ⟨store, by rw [eq]⟩
  | compare op lhs rhs =>
    refine (Memory.number_agree (same lhs (by simp [Opcode.operands]))).bind fun a a' eq => ?_
    subst eq
    refine (Memory.number_agree (same rhs (by simp [Opcode.operands]))).bind fun b b' eq => ?_
    exact .ok ⟨store, by rw [eq]⟩
  | arrayLength array | typedArrayLength array =>
    refine (Memory.arrayAt_agree store (same array (by simp [Opcode.operands]))).bind
      fun a a' eq => ?_
    exact .ok ⟨store, by rw [eq]⟩
  | loadElement array index | loadTyped array index element =>
    refine (element_agree store (same array (by simp [Opcode.operands]))
      (same index (by simp [Opcode.operands]))).bind fun a a' eq => ?_
    exact .ok ⟨store, by rw [eq]⟩
  | storeElement array index stored =>
    refine (Memory.number_agree (same stored (by simp [Opcode.operands]))).bind fun x x' eq => ?_
    subst eq
    refine (element_agree store (same array (by simp [Opcode.operands]))
      (same index (by simp [Opcode.operands]))).bind fun a a' eq => ?_
    exact .ok ⟨by rw [eq, store], rfl⟩
  | boundsCheck index length minimum maximum movable =>
    refine (Memory.number_agree (same index (by simp [Opcode.operands]))).bind fun i i' eq => ?_
    subst eq
    refine (Memory.number_agree (same length (by simp [Opcode.operands]))).bind fun n n' eq => ?_
    subst eq
    split
    · exact .ok ⟨store, rfl⟩
    · exact .error rfl
  | lowerCheck index minimum =>
    refine (Memory.number_agree (same index (by simp [Opcode.operands]))).bind fun i i' eq => ?_
    subst eq
    split
    · exact .ok ⟨store, rfl⟩
    · exact .error rfl
  | call callee inputs =>
    cases inputs with
    | nil => exact .ok ⟨store, rfl⟩
    | cons first rest =>
      refine (Memory.read_agree v v (same first (by simp [Opcode.operands]))).bind fun a b eq => ?_
      exact .ok ⟨store, eq.symm⟩
  | assertRange input range =>
    refine (Memory.number_agree (same input (by simp [Opcode.operands]))).bind fun x x' eq => ?_
    subst eq
    split
    · exact .ok ⟨store, rfl⟩
    · exact .error rfl

/-- The phis of a block take the same contents when their inputs for the edge hold the same. -/
theorem incoming_agree {source : BlockId} {phis : List ValueId}
    (same : ∀ phi ∈ phis, ∃ inputs inputs' x x', f.opcode? phi = some (.phi inputs) ∧
      f'.opcode? phi = some (.phi inputs') ∧
      inputs.find? (fun input => input.2 == source) = some (x, source) ∧
      inputs'.find? (fun input => input.2 == source) = some (x', source) ∧
      m'.slots[x']? = m.slots[x]?) :
    Agree Eq (incoming f m source phis) (incoming f' m' source phis) := by
  induction phis with
  | nil => exact .ok rfl
  | cons phi rest ih =>
    obtain ⟨inputs, inputs', x, x', code, code', found, found', content⟩ :=
      same phi List.mem_cons_self
    rw [incoming, incoming, ← Procedure.opcode?, ← Procedure.opcode?, code, code']
    simp only [found, found']
    refine (Memory.read_agree phi phi content).bind fun slot slot' eq => ?_
    refine (ih fun p hp => same p (List.mem_cons_of_mem _ hp)).bind fun l l' eq' => ?_
    exact .ok (by rw [eq, eq'])

/-- Entering a block that exists, in terms of what is listed there. -/
theorem enter_of_lt {source target : BlockId} (h : target < f.blocks.size) :
    enter f m source target = (incoming f m source (f.phisAt target) >>= fun slots =>
      pure ⟨target, f.instrsAt target, slots.foldl (fun m e => m.write e.1 e.2) m⟩) := by
  have found : f.blocks[target]? = some f.blocks[target] := Array.getElem?_eq_getElem h
  rw [enter, Procedure.phisAt, Procedure.instrsAt, found]
  rfl

end Machine

end Rangefinder
