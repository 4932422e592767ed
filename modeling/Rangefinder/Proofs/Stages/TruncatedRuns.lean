import Rangefinder.Proofs.Stages.Collapsing
import Rangefinder.Proofs.Stages.Narrowing

/-!
# Runs of truncated procedures

On int32 numbers the truncation does two things. Arithmetic whose result is only used modulo 2^32 is made to
wrap around: where the checked operation gave a result, the wrapping one gives the same, and where the checked
one left the procedure, the wrapping one goes on. Conversions and bitwise identities are collapsed into the
operand that they repeat, which no run can tell. So whatever a procedure returned, it returns after the
truncation (`truncate_returns`); it may return where it bailed out before.

Procedures with doubles are left aside here: a single narrowing is treated in the module on narrowing, and
nothing is said about doubles that are reduced modulo 2^32.
-/

namespace Rangefinder

open Number Procedure

namespace Machine

variable {f f' : Procedure} {g : FlowGraph} {args : List Number} {v x lhs rhs : ValueId}
  {op : BinaryOp} {flags : ArithFlags} {result : Option Number} {m : Memory}

/-! ### Arithmetic that wraps around -/

/-- Where a checked int32 operation gives a result, the one reduced modulo 2^32 gives the same. -/
theorem onWords_of_checkedInt32 {i j : Int} {a : Number} (hi : IsInt32 i) (hj : IsInt32 j)
    (arithmetic : op.isBitwise = false) (h : checkedInt32 v op (.ofInt i) (.ofInt j) flags = .ok a) :
    op.onWords (.ofInt i) (.ofInt j) = a := by
  obtain ⟨n, rfl, fits, agrees⟩ := checkedInt32_ofInt hi hj h
  have exact : exactInt32 v op (.ofInt i) (.ofInt j) flags = .ok (.ofInt n) := by
    rw [checkedInt32, isIntegral_ofInt, isIntegral_ofInt, Bool.and_self, if_pos rfl, bind_eq_ok] at h
    obtain ⟨result, computed, h⟩ := h
    split at h
    · split at h <;> cases h
    · rw [computed, pure_eq_ok.mp h]
  have own := toInt32_of_isInt32 fits
  simp only [BinaryOp.onWords, toInt32_of_isInt32 hi, toInt32_of_isInt32 hj]
  cases op with
  | add | sub | mul =>
    obtain rfl := agrees _ rfl
    rw [wrapInt32_of_isInt32 fits]
  | div =>
    have quotient : (ofInt i).div (.ofInt j) = .ofInt n := by
      simp only [exactInt32] at exact
      split_ifs at exact
      exact Except.ok.inj exact
    rw [quotient, own]
  | mod =>
    have remainder : (ofInt i).rem (.ofInt j) = .ofInt n := by
      simp only [exactInt32] at exact
      split_ifs at exact
      exact Except.ok.inj exact
    rw [remainder, own]
  | minimum =>
    obtain same := Except.ok.inj exact
    rw [minimum_ofInt] at same
    exact same
  | maximum =>
    obtain same := Except.ok.inj exact
    rw [maximum_ofInt] at same
    exact same
  | _ => cases arithmetic

/-- A checked int32 operation does not return from the procedure. -/
theorem checkedInt32_ne_returned {a b : Number} :
    checkedInt32 v op a b flags ≠ .error (.returned result) := by
  intro h
  have zero : onNegativeZero v flags ≠ .returned result := by rw [onNegativeZero]; split <;> simp
  have divisor : onZeroDivisor v flags ≠ .returned result := by rw [onZeroDivisor]; split <;> simp
  rw [checkedInt32] at h
  split at h
  · rcases bind_eq_error.mp h with h | ⟨r, -, h⟩
    · cases op <;> simp only [exactInt32] at h <;> grind
    · split_ifs at h <;> cases h
  · cases h

/-- A run ends in one way only. -/
theorem Ends.unique {s : State} {halt halt' : Halt} (ends : Ends f args halt) (reached : Reached f args s)
    (failed : step f args s = .error halt') : halt' = halt := by
  obtain ⟨budget, ended⟩ := ends
  obtain ⟨n, eq⟩ := reached.run_eq
  have here : run f args (n + 1) = some halt' := by rw [eq, resume, failed]
  have late := run_of_le ended (Nat.le_add_left budget (n + 1))
  exact Option.some.inj ((run_of_le here (Nat.le_add_right (n + 1) budget)).symm.trans late)

/-- The numbers that an instruction computes with are int32 numbers when a run comes to it. -/
theorem Reached.operand_ofInt {s : State} {o : Opcode} (reached : Reached f args s) (on : f.OnInt32 g)
    (head : s.pending.head? = some v) (code : f.opcode? v = some o) (hx : x ∈ o.wholeOperands) :
    ∃ i, s.memory.slots[x]? = some (.number (.ofInt i)) ∧ IsInt32 i := by
  obtain ⟨rest, next⟩ : ∃ rest, s.pending = v :: rest := List.head?_eq_some_iff.mp head
  have wf := on.consistent.wellFormed
  have avail := available_operand (reached.stands wf on.consistent.describes) wf next code
    (Opcode.wholeOperands_subset o hx)
  obtain ⟨_, holds, i, rfl, fits⟩ := reached.holdsInt32 on avail (on.integral.operands v o code x hx)
  exact ⟨i, holds, fits⟩

/-- What a procedure returned, it returns when a checked int32 operation of it is made to wrap around. -/
theorem makeInt32_returns {b : BlockId} {old : ArithFlags} (on : f.OnInt32 g) (hv : v ∈ f.instrsAt b)
    (code : f.opcode? v = some (.binary op lhs rhs old)) (typed : f.type? v = some .int32)
    (arithmetic : op.isBitwise = false) (checked : old.wrapping = false)
    (run : f.makeInt32 g v op lhs rhs .wraps = .ok f') (ends : Ends f args (.returned result)) :
    Ends f' args (.returned result) := by
  have whole : ∀ x ∈ [lhs, rhs], ∀ s, Reached f args s → s.pending.head? = some v →
      ∃ i, s.memory.slots[x]? = some (.number (.ofInt i)) ∧ IsInt32 i :=
    fun x hx s reached head => reached.operand_ofInt on head code hx
  obtain ⟨h, l, r, consistentH, -, member, codeH, typedH, recoded, types, sameEnds, mirrors⟩ :=
    makeInt32_supplies on.consistent on.noPhis hv code whole run
  have endsH := (sameEnds _ rfl).mp ends
  suffices alike : RunsAs h f' args from alike.ends_iff.mp endsH
  refine runsAs_of_recoded consistentH member recoded (fun w other => by rw [types, if_neg other])
    fun t rest reachedH next => ?_
  obtain ⟨s, reached, head, heldL, heldR, heldX, heldY⟩ := mirrors t reachedH (by rw [next, List.head?_cons])
  obtain ⟨i, holdsL, hi⟩ := whole lhs (by simp) s reached head
  obtain ⟨j, holdsR, hj⟩ := whole rhs (by simp) s reached head
  have before : step h args t = _ := step_of_cons next (codeH.trans code) (typedH.trans typed)
  rw [compute_arithmetic arithmetic (heldL.trans holdsL) (heldR.trans holdsR), checked,
    if_neg (by simp)] at before
  rw [step_of_cons next (by rw [recoded.opcode?, if_pos rfl]) (by rw [types, if_pos rfl]),
    compute_arithmetic arithmetic (heldX.trans holdsL) (heldY.trans holdsR), if_pos (by rfl)]
  -- The run returns, so it does not leave the procedure here and the checked operation has a result.
  cases computed : checkedInt32 v op (.ofInt i) (.ofInt j) old with
  | ok a =>
    rw [before, computed, onWords_of_checkedInt32 hi hj arithmetic computed]
  | error halt =>
    rw [computed] at before
    rw [endsH.unique reachedH before] at computed
    exact absurd computed checkedInt32_ne_returned

/-! ### Instructions that repeat an operand -/

/-- A bitwise identity gives the operand that it amounts to. -/
theorem bitwise_of_bitIdentity {left right : Option Int} {i j : Int} (flags : ArithFlags)
    (type : ValueType) (hi : IsInt32 i) (hj : IsInt32 j) (constL : ∀ c ∈ left, i = c)
    (constR : ∀ c ∈ right, j = c) (same : lhs = rhs → i = j)
    (identity : bitIdentity op lhs rhs left right = some x) :
    op.isBitwise = true ∧ (x = lhs ∧ bitwise v op (.ofInt i) (.ofInt j) flags type = .ok (.ofInt i) ∨
      x = rhs ∧ bitwise v op (.ofInt i) (.ofInt j) flags type = .ok (.ofInt j)) := by
  have noPlaces : ∀ c ∈ right, (c % 32 == 0) = true → Word.shiftCount j = 0 := fun c known multiple => by
    rw [constR c known, Word.shiftCount, eq_of_beq multiple]
    rfl
  cases op with
  | bitOr =>
    simp only [bitwise, toInt32_of_isInt32 hi, toInt32_of_isInt32 hj]
    simp only [bitIdentity] at identity
    split_ifs at identity with isRight isLeft both
    all_goals obtain rfl := Option.some.inj identity
    · obtain rfl := constR 0 isRight
      exact ⟨rfl, .inl ⟨rfl, by rw [Word.or_comm, Word.or_zero_left hi]⟩⟩
    · obtain rfl := constL 0 isLeft
      exact ⟨rfl, .inr ⟨rfl, by rw [Word.or_zero_left hj]⟩⟩
    · obtain rfl := same both.2
      exact ⟨rfl, .inl ⟨rfl, by rw [Word.or_self hi]⟩⟩
  | bitXor =>
    simp only [bitwise, toInt32_of_isInt32 hi, toInt32_of_isInt32 hj]
    simp only [bitIdentity, reduceCtorEq, false_and, if_false] at identity
    split_ifs at identity with isRight isLeft
    all_goals obtain rfl := Option.some.inj identity
    · obtain rfl := constR 0 isRight
      exact ⟨rfl, .inl ⟨rfl, by rw [Word.xor_comm, Word.xor_zero_left hi]⟩⟩
    · obtain rfl := constL 0 isLeft
      exact ⟨rfl, .inr ⟨rfl, by rw [Word.xor_zero_left hj]⟩⟩
  | bitAnd =>
    simp only [bitwise, toInt32_of_isInt32 hi, toInt32_of_isInt32 hj]
    simp only [bitIdentity] at identity
    split_ifs at identity with isRight isLeft both
    all_goals obtain rfl := Option.some.inj identity
    · obtain rfl := constR (-1) isRight
      exact ⟨rfl, .inl ⟨rfl, by rw [Word.and_comm, Word.and_negOne_left hi]⟩⟩
    · obtain rfl := constL (-1) isLeft
      exact ⟨rfl, .inr ⟨rfl, by rw [Word.and_negOne_left hj]⟩⟩
    · obtain rfl := same both
      exact ⟨rfl, .inl ⟨rfl, by rw [Word.and_self hi]⟩⟩
  | shiftLeft =>
    simp only [bitIdentity] at identity
    split_ifs at identity with places
    obtain ⟨c, known, multiple⟩ := (Option.any_eq_true _ _).mp places
    simp only [bitwise, toInt32_of_isInt32 hi, toInt32_of_isInt32 hj, noPlaces c known multiple]
    exact ⟨rfl, .inl ⟨(Option.some.inj identity).symm, by rw [Word.shiftLeft_zero hi]⟩⟩
  | shiftRight =>
    simp only [bitIdentity] at identity
    split_ifs at identity with places
    obtain ⟨c, known, multiple⟩ := (Option.any_eq_true _ _).mp places
    simp only [bitwise, toInt32_of_isInt32 hi, toInt32_of_isInt32 hj, noPlaces c known multiple]
    exact ⟨rfl, .inl ⟨(Option.some.inj identity).symm, by rw [Word.shiftRight_zero]⟩⟩
  | _ => cases identity

/-- A constant holds its number. -/
theorem Computed.constant {c : Int} (h : Computed f args m v)
    (code : f.opcode? v = some (.const (.int c))) : m.slots[v]? = some (.number (.ofInt c)) := by
  obtain ⟨value, found, -⟩ := Option.map_eq_some_iff.mp code
  obtain ⟨m₀, result, -, computed, own⟩ := h _ _ code (type?_of_value found) rfl
  obtain rfl := pure_eq_ok.mp computed
  exact own

end Machine

namespace Procedure

variable {f f' : Procedure} {g : FlowGraph} {args : List Number} {v x : ValueId} {o : Opcode} {halt : Halt}
  {b : BlockId}

open Machine

namespace Repeats

/-- What an operation repeats is a number that it computes with. -/
theorem mem_wholeOperands (h : f.Repeats x o) : x ∈ o.wholeOperands := by
  cases h with
  | conversion => simp [Opcode.wholeOperands]
  | @identity op lhs rhs flags left right _ _ identity =>
    exact @bitIdentity_mem op lhs rhs x left right flags identity

/-- The operation is no phi, and it touches no array. -/
theorem isQuiet (h : f.Repeats x o) : o.isPhi = false ∧ o.isQuiet = true := by
  cases h <;> exact ⟨rfl, rfl⟩

/-- On int32 numbers the operation succeeds with what the operand holds. -/
theorem compute_eq {m : Memory} (h : f.Repeats x o) (args : List Number) (v : ValueId) (type : ValueType)
    (whole : ∀ y ∈ o.wholeOperands, ∃ i, m.slots[y]? = some (.number (.ofInt i)) ∧ IsInt32 i)
    (consts : ∀ y ∈ o.wholeOperands, ∀ c, f.opcode? y = some (.const (.int c)) →
      m.slots[y]? = some (.number (.ofInt c))) :
    ∃ slot, m.slots[x]? = some slot ∧ compute args m v type o = .ok (m, slot) := by
  cases h with
  | conversion =>
    obtain ⟨i, held, fits⟩ := whole x (by simp [Opcode.wholeOperands])
    refine ⟨_, held, ?_⟩
    rw [compute, Memory.number_eq_ok.mpr held, ok_bind, unary, UnaryOp.apply,
      toInt32_of_isInt32 fits, if_neg (by simp [fits])]
    rfl
  | @identity op lhs rhs flags left right constL constR identity =>
    have memL : lhs ∈ (Opcode.binary op lhs rhs flags).wholeOperands := by simp [Opcode.wholeOperands]
    have memR : rhs ∈ (Opcode.binary op lhs rhs flags).wholeOperands := by simp [Opcode.wholeOperands]
    obtain ⟨i, heldL, hi⟩ := whole lhs memL
    obtain ⟨j, heldR, hj⟩ := whole rhs memR
    have number : ∀ {k c : Int} {y : ValueId}, m.slots[y]? = some (.number (.ofInt k)) →
        m.slots[y]? = some (.number (.ofInt c)) → k = c := fun held held' =>
      ofInt_inj.mp (Slot.number.inj (Option.some.inj (held.symm.trans held')))
    obtain ⟨bits, result⟩ := @bitwise_of_bitIdentity v x _ _ _ _ _ _ _ flags type hi hj
      (fun c known => number heldL (consts lhs memL c (LinearSum.constInt?_eq_some (known ▸ constL))))
      (fun c known => number heldR (consts rhs memR c (LinearSum.constInt?_eq_some (known ▸ constR))))
      (fun same => number heldL (by rw [same, heldR])) identity
    rw [compute, Memory.number_eq_ok.mpr heldL, Memory.number_eq_ok.mpr heldR, ok_bind, ok_bind, binary,
      if_pos bits]
    rcases result with ⟨rfl, computed⟩ | ⟨rfl, computed⟩
    · exact ⟨_, heldL, by rw [computed]; rfl⟩
    · exact ⟨_, heldR, by rw [computed]; rfl⟩

/-- No run ends at the operation. -/
theorem not_endsAt (h : f.Repeats x o) (on : f.OnInt32 g) (code : f.opcode? v = some o) :
    ¬EndsAt f args (some v) halt := by
  rintro ⟨s, reached, head, failed⟩
  obtain ⟨rest, next⟩ : ∃ rest, s.pending = v :: rest := List.head?_eq_some_iff.mp head
  obtain ⟨value, found, -⟩ := Option.map_eq_some_iff.mp code
  have wf := on.consistent.wellFormed
  obtain ⟨slot, -, computed⟩ := h.compute_eq args v value.type
    (fun y hy => reached.operand_ofInt on head code hy)
    fun y hy c const => (reached.computed on.consistent on.noPhis (available_operand
      (reached.stands wf on.consistent.describes) wf next code
        (Opcode.wholeOperands_subset o hy))).constant const
  rw [step_of_cons next code (type?_of_value found), computed] at failed
  cases failed

/-- The operation holds what the operand holds. -/
theorem slots_eq {s : State} (h : f.Repeats x o) (on : f.OnInt32 g) (code : f.opcode? v = some o)
    (reached : Reached f args s) (avail : Available f g s v) :
    s.memory.slots[v]? = s.memory.slots[x]? := by
  have wf := on.consistent.wellFormed
  have operand : ∀ y ∈ o.wholeOperands, Available f g s y := fun y hy =>
    avail.operand (reached.stands wf on.consistent.describes) wf on.consistent.describes
      on.consistent.listed code h.isQuiet.1 (Opcode.wholeOperands_subset o hy)
  obtain ⟨value, found, -⟩ := Option.map_eq_some_iff.mp code
  obtain ⟨m₀, result, same, computed, own⟩ := reached.computed on.consistent on.noPhis avail o _ code
    (type?_of_value found) h.isQuiet.1
  have same' : ∀ y ∈ o.wholeOperands, m₀.slots[y]? = s.memory.slots[y]? := fun y hy =>
    (same y (Opcode.wholeOperands_subset o hy)).symm
  obtain ⟨slot, held, gives⟩ := h.compute_eq args v value.type
    (fun y hy => by
      obtain ⟨_, held, i, rfl, fits⟩ :=
        reached.holdsInt32 on (operand y hy) (on.integral.operands v o code y hy)
      exact ⟨i, (same' y hy).trans held, fits⟩)
    fun y hy c const => (same' y hy).trans
      ((reached.computed on.consistent on.noPhis (operand y hy)).constant const)
  obtain rfl := Except.ok.inj (computed.symm.trans gives)
  rw [own, same x h.mem_operands, held]

end Repeats

/-! ### One edit and all of them -/

/-- The choice of an int32 operand keeps whole values whole. -/
theorem int32Operand_integral {y : ValueId} (s : f.Structured) (hv : v ∈ f.instrsAt b) (h : f.Integral)
    (none : f.NoDoubles) (whole : f.isWhole x = true) (run : f.int32Operand g v x = .ok (f', y)) :
    f'.Integral ∧ f'.NoDoubles ∧ f'.isWhole y = true ∧ (∀ z, f.isWhole z = true → f'.isWhole z = true) ∧
      f'.phisAt f'.entry = f.phisAt f.entry := by
  rcases int32Operand_cases s hv run with ⟨rfl, rfl, -⟩ | ⟨f₁, before, after, placed, same, rfl⟩
  · exact ⟨h, none, whole, fun _ => id, rfl⟩
  · have kept : ∀ z, f₁.isWhole z = true → f'.isWhole z = true := fun z kept => by
      rwa [isWhole_congr (same.type? z)]
    refine ⟨(h.place placed (fun _ => rfl) (by simpa [Opcode.wholeOperands] using whole)
      (by simp [Opcode.limits])).of_sameCode same, fun w => ?_, kept _ ?_,
      fun z old => kept z (placed.isWhole old),
      by rw [same.layout.phisAt, same.entry, placed.phisAt, placed.entry]⟩
    · rw [same.type?, placed.type?]
      split
      · simp
      · exact none w
    · exact isWhole_of_type (by rw [placed.type?, if_pos rfl]) rfl

/-- Making int32 arithmetic wrap around keeps whole values whole. -/
theorem makeInt32_integral {op : BinaryOp} {lhs rhs : ValueId} {old flags : ArithFlags}
    (intact : f.Intact g) (h : f.Integral) (none : f.NoDoubles) (hv : v ∈ f.instrsAt b)
    (code : f.opcode? v = some (.binary op lhs rhs old)) (typed : f.type? v = some .int32)
    (run : f.makeInt32 g v op lhs rhs flags = .ok f') :
    f'.Integral ∧ f'.NoDoubles ∧ f'.phisAt f'.entry = f.phisAt f.entry := by
  simp only [makeInt32, bind_eq_ok, Prod.exists, pure_eq_ok] at run
  obtain ⟨f₁, l, first, f₂, r, second, rfl⟩ := run
  have served : ∀ x ∈ [lhs, rhs], f.Serves g b v x := fun x hx => intact.serves_operand code hx
  have whole := h.operands v _ code
  obtain ⟨prepared₁, -⟩ := int32Operand_spec intact hv (served lhs (by simp)) first
  obtain ⟨prepared₂, -⟩ := int32Operand_spec prepared₁.intact prepared₁.member
    (prepared₁.serves rhs (served rhs (by simp))) second
  have prepared := prepared₁.trans prepared₂
  obtain ⟨h₁, none₁, wholeL, kept, phis₁⟩ :=
    int32Operand_integral intact.structured hv h none (whole lhs (by simp [Opcode.wholeOperands])) first
  obtain ⟨h₂, none₂, wholeR, kept', phis₂⟩ := int32Operand_integral prepared₁.intact.structured
    prepared₁.member h₁ none₁ (kept rhs (whole rhs (by simp [Opcode.wholeOperands]))) second
  obtain ⟨recoded, types⟩ := @recoded_int32 f₂ b v (.binary op l r flags) prepared.intact.structured
    prepared.member rfl
  have same : ∀ w, (f₂.modifyValue v fun value =>
      { value with type := .int32, opcode := .binary op l r flags }).type? w = f₂.type? w := by
    intro w
    rw [types]
    split
    · next own => rw [own, prepared.type? v (lt_size_of_opcode? code), typed]
    · rfl
  refine ⟨h₂.recode recoded.opcode? same (fun type typed₂ _ => ?_) ?_ (by simp [Opcode.limits]),
    fun w => by rw [same]; exact none₂ w, ?_⟩
  · rw [prepared.type? v (lt_size_of_opcode? code), typed] at typed₂
    obtain rfl := Option.some.inj typed₂
    rfl
  · simpa [Opcode.wholeOperands] using ⟨kept' l wholeL, wholeR⟩
  · rw [recoded.layout.phisAt, recoded.layout.entry, phis₂, phis₁]

/-- No answer changes when an instruction that repeats an operand is collapsed into it. -/
theorem Collapsed.ends_iff (h : Collapsed f f' v x) (on : f.OnInt32 g) (after : f'.Consistent g)
    (code : f.opcode? v = some o) (repeats : f.Repeats x o) (answer : halt.isAnswer = true) :
    Ends f args halt ↔ Ends f' args halt := by
  have lock : Lockstep f f' (· != v) args := h.lockstep on.consistent after code repeats.isQuiet.1
    repeats.isQuiet.2 repeats.mem_operands fun _ reached avail => repeats.slots_eq on code reached avail
  refine lock.ends_iff on.consistent after (fun w halt' extra => ?_) (fun w halt' extra => ?_) answer
  · obtain rfl : w = v := by simpa using extra
    exact repeats.not_endsAt on code
  · obtain rfl : w = v := by simpa using extra
    exact h.not_endsAt after

/-- What a procedure on int32 numbers returned, it returns after an edit of the truncation, and it is one on
int32 numbers still. -/
theorem Truncates.returns (edit : Truncates g f f') (intact : f.Intact g) (on : f.OnInt32 g)
    (none : f.NoDoubles) (wf' : f'.WellFormed g) :
    f'.OnInt32 g ∧ f'.NoDoubles ∧
      ∀ result, Ends f args (.returned result) → Ends f' args (.returned result) := by
  have intact' := (edit.intact intact).1
  have after : f'.Consistent g := ⟨intact'.built, wf', intact'.listed⟩
  cases edit with
  | @makes b v lhs rhs op old flags type hv code typed number kind run =>
    rcases kind with rfl | ⟨arithmetic, checked, rfl⟩
    · exact absurd typed (none v)
    obtain rfl : type = .int32 := by
      cases type with
      | int32 => rfl
      | double => exact absurd typed (none v)
      | _ => cases number
    obtain ⟨integral, none', phis⟩ := makeInt32_integral intact on.integral none hv code typed run
    exact ⟨⟨after, phis.trans on.noPhis, integral⟩, none',
      fun result => makeInt32_returns on hv code typed arithmetic checked run⟩
  | notes same =>
    exact ⟨on.of_sameCode same, fun w => same.type? w ▸ none w,
      fun result => (runsAs_of_sameCode same).ends_iff.mp⟩
  | @collapses b v x o n f₁ hv code repeats int32 moved detached =>
    have collapsed := collapsed intact.structured hv
      (intact.structured.operands v o code x repeats.mem_operands) moved detached
    exact ⟨collapsed.onInt32 on after fun _ => isWhole_of_type int32 rfl,
      fun w => collapsed.type? w ▸ none w,
      fun result => (collapsed.ends_iff on after code repeats rfl).mp⟩

/-- What a procedure on int32 numbers returned, it returns after any number of such edits. -/
theorem Truncated.returns (edits : Truncated g f f') (intact : f.Intact g) (on : f.OnInt32 g)
    (none : f.NoDoubles) (wf' : f'.WellFormed g) :
    f'.OnInt32 g ∧ f'.NoDoubles ∧
      ∀ result, Ends f args (.returned result) → Ends f' args (.returned result) := by
  -- The last edit repairs nothing, so the procedure was well-formed before each of them.
  induction edits with
  | refl => exact ⟨on, none, fun _ => id⟩
  | tail before edit ih =>
    have intact₁ := (Truncated.intact before intact).1
    obtain ⟨on₁, none₁, kept⟩ := ih ((edit.intact intact₁).2.2 wf')
    obtain ⟨on₂, none₂, kept'⟩ := edit.returns intact₁ on₁ none₁ wf'
    exact ⟨on₂, none₂, fun result ends => kept' result (kept result ends)⟩

end Procedure

namespace Session

open Machine

variable {s t : Session} {args : List Number} {result : Option Number}

/-- Whatever a procedure on int32 numbers returns, it returns after the truncation as well. -/
theorem truncate_returns (accepted : s.procedure.verify = .ok (.ok ())) (listed : s.procedure.AllListed)
    (noPhis : s.procedure.phisAt s.procedure.entry = []) (ints : s.procedure.Int32Only)
    (current : FlowGraph.build s.procedure = .ok s.graph) (run : s.truncate = .ok t)
    (verified : t.procedure.verify = .ok (.ok ())) (ends : Ends s.procedure args (.returned result)) :
    Ends t.procedure args (.returned result) := by
  obtain ⟨branches, g, built, wf⟩ := verify_eq_ok.mp accepted
  obtain rfl : s.graph = g := Except.ok.inj (current.symm.trans built)
  have intact : s.procedure.Intact s.graph :=
    ⟨built, wf.structured, listed, .inl wf, ints.testable branches⟩
  have on : s.procedure.OnInt32 s.graph := ⟨⟨built, wf, listed⟩, noPhis, ints.integral⟩
  obtain ⟨edits, -⟩ := truncate_truncated intact run
  obtain ⟨-, g', built', wf'⟩ := verify_eq_ok.mp verified
  obtain rfl := Except.ok.inj ((edits.intact intact).1.built.symm.trans built')
  exact (edits.returns intact on ints.noDoubles wf').2.2 result ends

/-- The sum of two arguments, of which only the low bits are used. -/
def lowSum : Procedure where
  name := "low"
  entry := 0
  blocks := #[⟨0, [], [0, 1, 2, 3, 4], .exit (some 4), false⟩]
  values := #[⟨0, .param 0, .int32, some 0, none⟩, ⟨1, .param 1, .int32, some 0, none⟩,
    ⟨2, .binary .add 0 1 .checked, .int32, some 0, none⟩, ⟨3, .const (.int 0), .int32, some 0, none⟩,
    ⟨4, .binary .bitOr 2 3 .checked, .int32, some 0, none⟩]
  unsupported := false
  reasons := []

-- The sum wraps around after the truncation, so that it returns where it bailed out before.
example : lowSum.Int32Only ∧
    Machine.run lowSum [.ofInt 2147483647, .ofInt 1] 6 = some (.bailout 2 .int32Overflow) ∧
    (fun t : Session => Machine.run t.procedure [.ofInt 2147483647, .ofInt 1] 6) <$>
      (start lowSum .standard >>= analyze >>= fun analyzed => analyzed.1.truncate) =
        .ok (some (.returned (some (.ofInt (-2147483648))))) := by
  decide +kernel

end Session

end Rangefinder
