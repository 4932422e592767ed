import Rangefinder.Analysis.Analyze
import Rangefinder.Proofs.Machine.Arithmetic
import Rangefinder.Proofs.Range.ArithmeticSoundness
import Rangefinder.Proofs.Stages.Transparency
import Rangefinder.Proofs.Stages.Truncation

/-!
# Narrowing to int32

Narrowing computes a double sum, difference or product in int32: its operands are converted right
before it, and the operation is recoded. The ranges that are noted for the operands and for the result
have to be int32 ranges. Where these notes hold, the conversions change nothing and the int32 operation
gives the double that was computed before, so no run can tell the difference.

There is one exception. Negative zero lies in every range that holds zero, and there is no negative zero
among the int32 numbers. Narrowing leaves products alone that may be negative zero for integers, but it
does not ask whether an operand is negative zero itself.
-/

namespace Rangefinder

namespace Range

variable {r : Range} {a : Number}

/-- A number of a normal int32 range is an integer between its endpoints, unless it is negative zero. -/
theorem eq_ofInt_of_contains (normal : r.normalize = .ok r) (int32 : r.isInt32 = true)
    (holds : r.contains a = true) (signed : a ≠ .negZero) :
    ∃ n, a = .ofInt n ∧ IsInt32 n ∧ r.lo ≤ n ∧ n ≤ r.hi := by
  rw [isInt32, Bool.and_eq_true, Bool.not_eq_true'] at int32
  obtain ⟨closed, whole⟩ := int32
  have rules := normalize_normal normal
  obtain ⟨x, value, member⟩ := rules.exists_value closed holds
  obtain ⟨n, rfl⟩ := member.integral whole
  obtain ⟨low, high⟩ := member.between_of_isClosed closed
  have low : r.lo ≤ n := Int.cast_le.mp low
  have high : n ≤ r.hi := Int.cast_le.mp high
  refine ⟨n, ?_, ⟨rules.lower_fits.trans low, high.trans rules.upper_fits⟩, low, high⟩
  exact (Number.eq_of_toRat? value).resolve_right fun zero => signed zero.1

/-- A number of a normal int32 range does not leave int32. -/
theorem leavesInt32_of_contains (normal : r.normalize = .ok r) (int32 : r.isInt32 = true)
    (holds : r.contains a = true) : a.leavesInt32 = false := by
  by_cases signed : a = .negZero
  · subst signed
    rfl
  · obtain ⟨n, rfl, fits, -⟩ := eq_ofInt_of_contains normal int32 holds signed
    rw [Number.leavesInt32_ofInt, decide_eq_false (not_not.mpr fits)]

/-- If a product of two ranges is never negative zero, it is zero only for integers without a sign. -/
theorem nonneg_of_mul_eq_zero {s : Range} {i j : Int} (never : r.mayMulToNegativeZero s = false)
    (left : r.lo ≤ i ∧ i ≤ r.hi) (right : s.lo ≤ j ∧ j ≤ s.hi) (zero : i * j = 0) :
    0 ≤ i ∧ 0 ≤ j :=
  have left := encloses_of_between (Int.cast_le.mpr left.1) (Int.cast_le.mpr left.2)
  have right := encloses_of_between (Int.cast_le.mpr right.1) (Int.cast_le.mpr right.2)
  left.nonneg_of_mul_eq_zero right never zero

end Range

/-- The slot holds a number of a normal range. -/
def Memory.HoldsIn (m : Memory) (x : ValueId) (r : Range) : Prop :=
  r.normalize = .ok r ∧ ∃ a, m.slots[x]? = some (.number a) ∧ r.contains a = true

namespace Machine

open Procedure Number

variable {f f' : Procedure} {g : FlowGraph} {args : List Number} {v : ValueId} {op : BinaryOp}
  {flags : ArithFlags} {lhs rhs : ValueId} {i j : Int} {a c : Number} {b : BlockId} {m : Memory}

/-- On int32 numbers whose product is no negative zero, int32 arithmetic starts from the result of the
doubles. -/
theorem exactInt32_eq_onDoubles (hi : IsInt32 i) (hj : IsInt32 j) (ring : op.isRing = true)
    (sign : op = .mul → i * j = 0 → 0 ≤ i ∧ 0 ≤ j) :
    exactInt32 v op (.ofInt i) (.ofInt j) flags = .ok (op.onDoubles (.ofInt i) (.ofInt j)) := by
  cases op with
  | add | sub => rfl
  | mul =>
    have wide : IsInt64 (i * j) := by
      have left := hi.natAbs_le
      have right := hj.natAbs_le
      have product : (i * j).natAbs ≤ 2147483648 * 2147483648 :=
        Int.natAbs_mul i j ▸ Nat.mul_le_mul left right
      unfold IsInt64
      omega
    have signed : ¬(i * j = 0 ∧ ((ofInt i).lt (.ofInt 0) || (ofInt j).lt (.ofInt 0)) = true) := by
      rintro ⟨zero, negative⟩
      obtain ⟨left, right⟩ := sign rfl zero
      simp only [lt_ofInt, Bool.or_eq_true, decide_eq_true_eq] at negative
      omega
    simp only [exactInt32, toInt64_ofInt hi, toInt64_ofInt hj]
    rw [if_neg (not_not.mpr wide), if_neg signed, BinaryOp.onDoubles, mul_ofInt (sign rfl)]
  | _ => cases ring

/-- Where it fits, int32 arithmetic gives the result of the doubles. -/
theorem checkedInt32_eq_onDoubles (hi : IsInt32 i) (hj : IsInt32 j) (ring : op.isRing = true)
    (sign : op = .mul → i * j = 0 → 0 ≤ i ∧ 0 ≤ j)
    (fits : (op.onDoubles (.ofInt i) (.ofInt j)).leavesInt32 = false) :
    checkedInt32 v op (.ofInt i) (.ofInt j) flags = .ok (op.onDoubles (.ofInt i) (.ofInt j)) := by
  rw [checkedInt32, isIntegral_ofInt, isIntegral_ofInt, Bool.and_self, if_pos rfl,
    exactInt32_eq_onDoubles hi hj ring sign]
  exact if_neg (by simp [fits])

/-- A conversion to int32 succeeds on every number. -/
theorem unary_toInt32 (a : Number) : unary v .toInt32 a .int32 = .ok (.ofInt a.toInt32) := by
  have fits := isInt32_toInt32 a
  have result : UnaryOp.apply .toInt32 a = .ofInt a.toInt32 := rfl
  rw [unary, result, isIntegral_ofInt, leavesInt32_ofInt, decide_eq_false (not_not.mpr fits)]
  rfl

/-! ### Conversions -/

/-- The second procedure has a value `y` for the instruction `v`, readable where `v` stands, that holds
what `x` holds in the first one whenever a run is about to compute `v`. Everything old is as it was. -/
structure Supplies (f f' : Procedure) (g : FlowGraph) (args : List Number) (b : BlockId)
    (v x y : ValueId) : Prop where
  consistent : f'.Consistent g
  noPhis : f'.phisAt f'.entry = []
  member : v ∈ f'.instrsAt b
  count : f.values.size ≤ f'.values.size
  opcode? : ∀ w < f.values.size, f'.opcode? w = f.opcode? w
  type? : ∀ w < f.values.size, f'.type? w = f.type? w
  serves : f'.Serves g b v y
  keeps : ∀ z, f.Serves g b v z → f'.Serves g b v z
  ends : ∀ halt, halt.isAnswer = true → (Ends f args halt ↔ Ends f' args halt)
  reached : ∀ s', Reached f' args s' → s'.pending.head? = some v →
    ∃ s, Reached f args s ∧ s.pending.head? = some v ∧
      (∀ w < f.values.size, s'.memory.slots[w]? = s.memory.slots[w]?) ∧
      s'.memory.slots[y]? = s.memory.slots[x]?

/-- Ranges and marks do not matter for what is supplied. -/
theorem Supplies.of_sameCode {f'' : Procedure} {x y : ValueId} (h : Supplies f f' g args b v x y)
    (same : SameCode f' f'') : Supplies f f'' g args b v x y := by
  have alike : RunsAs f' f'' args := runsAs_of_sameCode same
  have consistent : f''.Consistent g := ⟨same.layout.flow.build.trans h.consistent.built,
    same.wellFormed h.consistent.wellFormed, same.layout.allListed h.consistent.listed⟩
  exact {
    consistent := consistent
    noPhis := by rw [same.layout.phisAt, same.entry, h.noPhis]
    member := same.layout.instrsAt b ▸ h.member
    count := same.layout.valueCount ▸ h.count
    opcode? := fun w hw => (same.opcode? w).trans (h.opcode? w hw)
    type? := fun w hw => (same.type? w).trans (h.type? w hw)
    serves := h.serves.of_sameCode same
    keeps := fun z served => (h.keeps z served).of_sameCode same
    ends := fun halt answer => (h.ends halt answer).trans alike.ends_iff
    reached := fun s' reached' => h.reached s' (alike.reached_iff.mp reached') }

section Conversion

variable {f₁ : Procedure} {before after : List ValueId} {x : ValueId} {o : Opcode} {s₁ : State}

/-- A conversion may be placed before an instruction that reads what it converts. -/
theorem consistent_of_conversion (consistent : f.Consistent g) (code : f.opcode? v = some o)
    (hx : x ∈ o.operands)
    (placed : f.Placed f₁ b before (v :: after) (.unary .toInt32 x) .int32) : f₁.Consistent g := by
  have wf := consistent.wellFormed
  refine ⟨placed.flow.build.trans consistent.built, ?_, placed.allListed consistent.listed⟩
  refine wf.place placed rfl ?_ fun hb => ?_
  · simpa [Opcode.operands] using wf.structured.operands v o code x hx
  · simpa [Opcode.operands] using (wf.uses b hb).reads before v after placed.listed o code x hx

/-- When a run has come to the conversion or to the instruction behind it, a run of the procedure
without the conversion has come to the instruction. -/
theorem reached_of_conversion (consistent : f.Consistent g) (later : f₁.Consistent g)
    (placed : f.Placed f₁ b before (v :: after) (.unary .toInt32 x) .int32)
    (reached₁ : Reached f₁ args s₁)
    (head : s₁.pending.head? = some v ∨ s₁.pending.head? = some f.values.size) :
    ∃ s, Reached f args s ∧ s.pending.head? = some v ∧
      ∀ w < f.values.size, s₁.memory.slots[w]? = s.memory.slots[w]? := by
  have old : isOld f v = true := by
    refine decide_eq_true (consistent.wellFormed.structured.lt_size_of_mem (b := b) ?_)
    rw [membersAt, placed.listed]
    simp
  have first : (s₁.pending.filter (isOld f)).head? = some v := by
    rcases head with head | head
    · obtain ⟨rest, next⟩ : ∃ rest, s₁.pending = v :: rest := List.head?_eq_some_iff.mp head
      rw [next, List.filter_cons_of_pos old, List.head?_cons]
    · obtain ⟨rest, next⟩ : ∃ rest, s₁.pending = f.values.size :: rest :=
        List.head?_eq_some_iff.mp head
      obtain ⟨passed, split⟩ :=
        (reached₁.stands later.wellFormed later.describes).position
      rw [next] at split
      have own : f₁.instrsAt b = before ++ f.values.size :: v :: after := by
        rw [placed.instrsAt, if_pos rfl]
      obtain ⟨-, -, rfl⟩ := later.wellFormed.structured.split_unique split own
      rw [next, List.filter_cons_of_neg (by simp [isOld]), List.filter_cons_of_pos old,
        List.head?_cons]
  rcases (lockstep_of_placed consistent later placed rfl args).symm.reached reached₁ with
    ⟨s, reached, m, shared⟩ | ⟨w, halt, extra, ends⟩
  · refine ⟨s, reached, ?_, fun w hw => (m.memory.slots w (decide_eq_true hw)).symm⟩
    rw [← shared.head?_filter, m.pending, first]
  · exact absurd ends (not_endsAt_new consistent extra)

/-- The conversion of an int32 holds what it converts. -/
theorem slot_of_conversion {i : Int} (later : f₁.Consistent g) (noPhis : f₁.phisAt f₁.entry = [])
    (placed : f.Placed f₁ b before (v :: after) (.unary .toInt32 x) .int32)
    (reached₁ : Reached f₁ args s₁) (head : s₁.pending.head? = some v)
    (holds : s₁.memory.slots[x]? = some (.number (.ofInt i))) (fits : IsInt32 i) :
    s₁.memory.slots[f.values.size]? = some (.number (.ofInt i)) := by
  have wf := later.wellFormed
  obtain ⟨rest, next⟩ : ∃ rest, s₁.pending = v :: rest := List.head?_eq_some_iff.mp head
  have stands := reached₁.stands wf later.describes
  obtain ⟨passed, split⟩ := stands.position
  have own : f₁.instrsAt b = (before ++ [f.values.size]) ++ v :: after := by
    rw [placed.instrsAt, if_pos rfl, List.append_assoc, List.singleton_append]
  obtain ⟨here, -⟩ := wf.structured.split_unique (next ▸ split) own
  have avail : Available f₁ g s₁ f.values.size :=
    ⟨passed, split, (serves_placed wf.structured (here ▸ placed)).2 wf stands.reachable passed rest
      (next ▸ split)⟩
  have code : f₁.opcode? f.values.size = some (.unary .toInt32 x) := by
    rw [placed.opcode?, if_pos rfl]
  have typed : f₁.type? f.values.size = some .int32 := by rw [placed.type?, if_pos rfl]
  obtain ⟨m₀, result, operands, computed, written⟩ :=
    reached₁.computed later noPhis avail _ _ code typed rfl
  obtain ⟨a, read, computed⟩ := bind_eq_ok.mp computed
  have same := operands x (by simp [Opcode.operands])
  rw [holds, Memory.number_eq_ok.mp read] at same
  obtain rfl := Slot.number.inj (Option.some.inj same)
  rw [unary_toInt32, toInt32_of_isInt32 fits] at computed
  rw [written, ← pure_eq_ok.mp computed]

/-- A run does not end at the conversion of a number. -/
theorem not_endsAt_conversion {w : ValueId} {halt : Halt} (consistent : f.Consistent g)
    (later : f₁.Consistent g)
    (placed : f.Placed f₁ b before (v :: after) (.unary .toInt32 x) .int32) (hx : x < f.values.size)
    (number : ∀ s, Reached f args s → s.pending.head? = some v →
      ∃ a, s.memory.slots[x]? = some (.number a)) (extra : isOld f w = false) :
    ¬EndsAt f₁ args (some w) halt := by
  intro ends
  obtain rfl : w = f.values.size := by
    have := ends.lt_size later
    rw [placed.valueCount] at this
    exact Nat.le_antisymm (Nat.lt_succ_iff.mp this) (Nat.not_lt.mp (of_decide_eq_false extra))
  obtain ⟨s₁, reached₁, head, failed⟩ := ends
  obtain ⟨s, reached, atV, same⟩ :=
    reached_of_conversion consistent later placed reached₁ (.inr head)
  obtain ⟨a, holds⟩ := number s reached atV
  obtain ⟨rest, next⟩ : ∃ rest, s₁.pending = f.values.size :: rest := List.head?_eq_some_iff.mp head
  have read : s₁.memory.number x = .ok a := Memory.number_eq_ok.mpr ((same x hx).trans holds)
  rw [step_of_cons next (by rw [placed.opcode?, if_pos rfl]) (by rw [placed.type?, if_pos rfl]),
    compute, read] at failed
  simp only [bind, Except.bind, unary_toInt32] at failed
  cases failed

/-- A conversion of an operand that holds an int32 supplies the operand. -/
theorem supplies_of_conversion (consistent : f.Consistent g) (noPhis : f.phisAt f.entry = [])
    (code : f.opcode? v = some o) (hx : x ∈ o.operands)
    (whole : ∀ s, Reached f args s → s.pending.head? = some v →
      ∃ i, s.memory.slots[x]? = some (.number (.ofInt i)) ∧ IsInt32 i)
    (placed : f.Placed f₁ b before (v :: after) (.unary .toInt32 x) .int32) :
    Supplies f f₁ g args b v x f.values.size := by
  have later := consistent_of_conversion consistent code hx placed
  have exists_x := consistent.wellFormed.structured.operands v o code x hx
  have noPhis₁ : f₁.phisAt f₁.entry = [] := by rw [placed.phisAt, placed.entry, noPhis]
  refine ⟨later, noPhis₁, ?_, ?_, fun w hw => ?_, fun w hw => ?_,
    serves_placed later.wellFormed.structured placed,
    fun z served => served.place (fun _ => consistent.wellFormed) later.wellFormed.structured placed,
    fun halt answer => ?_, fun s₁ reached₁ head => ?_⟩
  · rw [placed.instrsAt, if_pos rfl]
    simp
  · rw [placed.valueCount]
    exact Nat.le_succ _
  · rw [placed.opcode?, if_neg (Nat.ne_of_lt hw)]
  · rw [placed.type?, if_neg (Nat.ne_of_lt hw)]
  · refine (lockstep_of_placed consistent later placed rfl args).ends_iff consistent later
      (fun w halt' => not_endsAt_new consistent) (fun w halt' extra => ?_) answer
    refine not_endsAt_conversion consistent later placed exists_x (fun s reached head => ?_) extra
    obtain ⟨i, holds, -⟩ := whole s reached head
    exact ⟨_, holds⟩
  · obtain ⟨s, reached, atV, same⟩ :=
      reached_of_conversion consistent later placed reached₁ (.inl head)
    obtain ⟨i, holds, fits⟩ := whole s reached atV
    refine ⟨s, reached, atV, same, ?_⟩
    rw [slot_of_conversion later noPhis₁ placed reached₁ head ((same x exists_x).trans holds) fits,
      holds]

/-- An int32 operand holds what the operand holds, if that is an int32. -/
theorem int32Operand_supplies {y : ValueId} (consistent : f.Consistent g)
    (noPhis : f.phisAt f.entry = []) (hv : v ∈ f.instrsAt b) (code : f.opcode? v = some o)
    (hx : x ∈ o.operands)
    (whole : ∀ s, Reached f args s → s.pending.head? = some v →
      ∃ i, s.memory.slots[x]? = some (.number (.ofInt i)) ∧ IsInt32 i)
    (run : f.int32Operand g v x = .ok (f', y)) : Supplies f f' g args b v x y := by
  have wf := consistent.wellFormed
  rcases int32Operand_cases wf.structured hv run with ⟨rfl, rfl, -⟩ |
    ⟨f₁, before, after, placed, same, rfl⟩
  · exact ⟨consistent, noPhis, hv, Nat.le_refl _, fun _ _ => rfl, fun _ _ => rfl,
      ⟨wf.structured.operands v o code _ hx, fun wf hb before after split =>
        (wf.uses b hb).reads before v after split o code _ hx⟩,
      fun _ => id, fun _ _ => Iff.rfl, fun s reached head => ⟨s, reached, head, fun _ _ => rfl, rfl⟩⟩
  · exact (supplies_of_conversion consistent noPhis code hx whole placed).of_sameCode same

end Conversion

/-! ### Narrowing -/

/-- Whenever a run is about to compute the value, its operands hold numbers of the ranges that are read
off for them, and the result lies in the range that is noted for it. -/
structure NotesHold (f : Procedure) (args : List Number) (v : ValueId) : Prop where
  operands : ∀ s o x r, Reached f args s → s.pending.head? = some v → f.opcode? v = some o →
    x ∈ o.operands → f.rangeRead x = .ok r → s.memory.HoldsIn x r
  result : ∀ s t r, Reached f args s → s.pending.head? = some v → step f args s = .ok t →
    f.range? v = some r → t.memory.HoldsIn v r

/-- No operand of the value is negative zero when a run is about to compute it. -/
def ReadsNoNegativeZero (f : Procedure) (args : List Number) (v : ValueId) : Prop :=
  ∀ s o x, Reached f args s → s.pending.head? = some v → f.opcode? v = some o → x ∈ o.operands →
    s.memory.slots[x]? ≠ some (.number .negZero)

/-- An operand for which an int32 range is read off holds an int32 of that range. -/
theorem NotesHold.operand {o : Opcode} {x : ValueId} {r : Range} {s : State}
    (notes : NotesHold f args v) (unsigned : ReadsNoNegativeZero f args v)
    (code : f.opcode? v = some o) (hx : x ∈ o.operands) (read : f.rangeRead x = .ok r)
    (int32 : r.isInt32 = true) (reached : Reached f args s) (head : s.pending.head? = some v) :
    ∃ i, s.memory.slots[x]? = some (.number (.ofInt i)) ∧ IsInt32 i ∧ r.lo ≤ i ∧ i ≤ r.hi := by
  obtain ⟨normal, a, holds, inside⟩ := notes.operands s o x r reached head code hx read
  have signed : a ≠ .negZero := by
    rintro rfl
    exact unsigned s o x reached head code hx holds
  obtain ⟨i, rfl, fits, bounds⟩ := Range.eq_ofInt_of_contains normal int32 inside signed
  exact ⟨i, holds, fits, bounds⟩

/-- The double operation succeeds. -/
theorem compute_onDoubles (ring : op.isRing = true) (holdsL : m.slots[lhs]? = some (.number a))
    (holdsR : m.slots[rhs]? = some (.number c)) :
    compute args m v .double (.binary op lhs rhs flags) = .ok (m, .number (op.onDoubles a c)) := by
  have arithmetic := BinaryOp.isBitwise_of_isRing ring
  rw [compute, Memory.number_eq_ok.mpr holdsL, Memory.number_eq_ok.mpr holdsR]
  simp only [bind, Except.bind, binary, arithmetic]
  rfl

/-- Int32 arithmetic is computed from the numbers that its operands hold. -/
theorem compute_arithmetic {l r : ValueId} (arithmetic : op.isBitwise = false)
    (holdsL : m.slots[l]? = some (.number a)) (holdsR : m.slots[r]? = some (.number c)) :
    compute args m v .int32 (.binary op l r flags) =
      ((if flags.wrapping then .ok (op.onWords a c) else checkedInt32 v op a c flags) >>=
        fun result => pure (m, .number result)) := by
  rw [compute, Memory.number_eq_ok.mpr holdsL, Memory.number_eq_ok.mpr holdsR, ok_bind, ok_bind, binary,
    if_neg (by simp [arithmetic]), if_neg (by simp)]

/-- The int32 operation on the same integers succeeds with the same result. -/
theorem compute_onInt32 {l r : ValueId} (hi : IsInt32 i) (hj : IsInt32 j) (ring : op.isRing = true)
    (sign : op = .mul → i * j = 0 → 0 ≤ i ∧ 0 ≤ j)
    (fits : (op.onDoubles (.ofInt i) (.ofInt j)).leavesInt32 = false)
    (holdsL : m.slots[l]? = some (.number (.ofInt i)))
    (holdsR : m.slots[r]? = some (.number (.ofInt j))) :
    compute args m v .int32 (.binary op l r .exact) =
      .ok (m, .number (op.onDoubles (.ofInt i) (.ofInt j))) := by
  rw [compute_arithmetic (BinaryOp.isBitwise_of_isRing ring) holdsL holdsR, if_neg (by decide),
    checkedInt32_eq_onDoubles hi hj ring sign fits]
  rfl

/-- A double operation for which an int32 range is noted gives a number that does not leave int32. -/
theorem NotesHold.leavesInt32 {r : Range} {s : State} (notes : NotesHold f args v)
    (code : f.opcode? v = some (.binary op lhs rhs flags)) (typed : f.type? v = some .double)
    (ring : op.isRing = true) (ranged : f.range? v = some r) (int32 : r.isInt32 = true)
    (reached : Reached f args s) (head : s.pending.head? = some v) (size : v < s.memory.slots.size)
    (holdsL : s.memory.slots[lhs]? = some (.number a))
    (holdsR : s.memory.slots[rhs]? = some (.number c)) :
    (op.onDoubles a c).leavesInt32 = false := by
  obtain ⟨rest, next⟩ : ∃ rest, s.pending = v :: rest := List.head?_eq_some_iff.mp head
  have run : step f args s =
      .ok ⟨s.block, rest, s.memory.write v (.number (op.onDoubles a c))⟩ := by
    rw [step_of_cons next code typed, compute_onDoubles ring holdsL holdsR]
    rfl
  obtain ⟨normal, x, holds, inside⟩ := notes.result s _ r reached head run ranged
  rw [Memory.slots_write, if_pos ⟨rfl, size⟩] at holds
  obtain rfl := Slot.number.inj (Option.some.inj holds)
  exact Range.leavesInt32_of_contains normal int32 inside

/-- Before an instruction is made an int32 one its operands are supplied as int32 values. If they hold
int32 numbers anyway, the runs up to that point are the same. -/
theorem makeInt32_supplies {old flags : ArithFlags} (consistent : f.Consistent g)
    (noPhis : f.phisAt f.entry = []) (hv : v ∈ f.instrsAt b)
    (code : f.opcode? v = some (.binary op lhs rhs old))
    (whole : ∀ x ∈ [lhs, rhs], ∀ s, Reached f args s → s.pending.head? = some v →
      ∃ i, s.memory.slots[x]? = some (.number (.ofInt i)) ∧ IsInt32 i)
    (run : f.makeInt32 g v op lhs rhs flags = .ok f') :
    ∃ h l r, h.Consistent g ∧ f'.WellFormed g ∧ v ∈ h.instrsAt b ∧
      h.opcode? v = f.opcode? v ∧ h.type? v = f.type? v ∧
      h.Recoded f' v (.binary op l r flags) ∧
      (∀ w, f'.type? w = if w = v then some .int32 else h.type? w) ∧
      (∀ halt, halt.isAnswer = true → (Ends f args halt ↔ Ends h args halt)) ∧
      ∀ t, Reached h args t → t.pending.head? = some v →
        ∃ s, Reached f args s ∧ s.pending.head? = some v ∧
          t.memory.slots[lhs]? = s.memory.slots[lhs]? ∧ t.memory.slots[rhs]? = s.memory.slots[rhs]? ∧
          t.memory.slots[l]? = s.memory.slots[lhs]? ∧ t.memory.slots[r]? = s.memory.slots[rhs]? := by
  have reads : ∀ x ∈ [lhs, rhs], x ∈ (Opcode.binary op lhs rhs old).operands := fun x hx => hx
  have exist := consistent.wellFormed.structured.operands v _ code
  have exists_v := lt_size_of_opcode? code
  simp only [makeInt32, bind_eq_ok, Prod.exists, pure_eq_ok] at run
  obtain ⟨f₁, l, first, f₂, r, second, rfl⟩ := run
  have supplies₁ : Supplies f f₁ g args b v lhs l :=
    int32Operand_supplies consistent noPhis hv code (reads lhs (by simp)) (whole lhs (by simp)) first
  have code₁ := (supplies₁.opcode? v exists_v).trans code
  have supplies₂ : Supplies f₁ f₂ g args b v rhs r := by
    refine int32Operand_supplies supplies₁.consistent supplies₁.noPhis supplies₁.member code₁
      (reads rhs (by simp)) (fun s₁ reached₁ head₁ => ?_) second
    obtain ⟨s, reached, head, same, -⟩ := supplies₁.reached s₁ reached₁ head₁
    rw [same rhs (exist rhs (reads rhs (by simp)))]
    exact whole rhs (by simp) s reached head
  have old₁ : ∀ w < f.values.size, w < f₁.values.size := fun w hw =>
    Nat.lt_of_lt_of_le hw supplies₁.count
  have servesL := supplies₂.keeps l supplies₁.serves
  have servesR := supplies₂.serves
  have wf := supplies₂.consistent.wellFormed
  obtain ⟨recoded, types⟩ :=
    @recoded_int32 f₂ b v (.binary op l r flags) wf.structured supplies₂.member rfl
  refine ⟨f₂, l, r, supplies₂.consistent, ?_, supplies₂.member,
    (supplies₂.opcode? v (old₁ v exists_v)).trans (supplies₁.opcode? v exists_v),
    (supplies₂.type? v (old₁ v exists_v)).trans (supplies₁.type? v exists_v), recoded, types,
    fun halt answer => (supplies₁.ends halt answer).trans (supplies₂.ends halt answer),
    fun t reached₂ head₂ => ?_⟩
  · refine wf.recode supplies₂.member recoded rfl ?_ fun hb before after split => ?_
    · simpa [Opcode.operands] using ⟨servesL.1, servesR.1⟩
    · simpa [Opcode.operands] using
        ⟨servesL.2 wf hb before after split, servesR.2 wf hb before after split⟩
  · obtain ⟨s₁, reached₁, head₁, same₁, heldR⟩ := supplies₂.reached t reached₂ head₂
    obtain ⟨s, reached, head, same, heldL⟩ := supplies₁.reached s₁ reached₁ head₁
    have kept : ∀ x ∈ [lhs, rhs], t.memory.slots[x]? = s.memory.slots[x]? := fun x hx =>
      (same₁ x (old₁ x (exist x (reads x hx)))).trans (same x (exist x (reads x hx)))
    refine ⟨s, reached, head, kept lhs (by simp), kept rhs (by simp),
      (same₁ l supplies₁.serves.1).trans heldL, heldR.trans ?_⟩
    exact same rhs (exist rhs (reads rhs (by simp)))

/-- Narrowing a value changes no answer, if the ranges on which it rests hold whenever a run computes the
value and no operand is then negative zero. -/
theorem narrowing_unobservable {b : BlockId} {uses : List Use} {halt : Halt}
    (accepted : f.verify = .ok (.ok ())) (current : FlowGraph.build f = .ok g)
    (noPhis : f.phisAt f.entry = []) (listed : f.AllListed) (home : f.home? v = some b)
    (narrowed : f.narrow? g v uses = .ok (some f')) (notes : NotesHold f args v)
    (unsigned : ReadsNoNegativeZero f args v) (answer : halt.isAnswer = true) :
    Ends f args halt ↔ Ends f' args halt := by
  obtain ⟨-, g', built, wellFormed⟩ := verify_eq_ok.mp accepted
  obtain rfl : g = g' := Except.ok.inj (current.symm.trans built)
  have consistent : f.Consistent g := ⟨built, wellFormed, listed⟩
  obtain ⟨op, lhs, rhs, flags, range, l, r, code, typed, ranged, ring, int32, readL, readR, int32L,
    int32R, never, making⟩ := narrow?_cases narrowed
  have hv := wellFormed.structured.mem_instrsAt_of_home listed home code rfl
  have left := fun s => @NotesHold.operand f args v _ lhs l s notes unsigned code
    (by simp [Opcode.operands]) readL int32L
  have right := fun s => @NotesHold.operand f args v _ rhs r s notes unsigned code
    (by simp [Opcode.operands]) readR int32R
  have whole : ∀ x ∈ [lhs, rhs], ∀ s, Reached f args s → s.pending.head? = some v →
      ∃ i, s.memory.slots[x]? = some (.number (.ofInt i)) ∧ IsInt32 i := by
    intro x hx s reached head
    simp only [List.mem_cons, List.not_mem_nil, or_false] at hx
    rcases hx with rfl | rfl
    · obtain ⟨i, holds, fits, -⟩ := left s reached head
      exact ⟨i, holds, fits⟩
    · obtain ⟨j, holds, fits, -⟩ := right s reached head
      exact ⟨j, holds, fits⟩
  obtain ⟨h, x, y, consistentH, wf', member, codeH, typedH, recoded, types, sameEnds, mirrors⟩ :=
    makeInt32_supplies consistent noPhis hv code whole making
  -- The recoded operation gives the same number, so the last edit changes no step.
  have alike : RunsAs h f' args := by
    refine runsAs_of_recoded consistentH member recoded (fun w other => by rw [types, if_neg other])
      fun t rest reachedH next => ?_
    obtain ⟨s, reached, head, heldL, heldR, heldX, heldY⟩ :=
      mirrors t reachedH (by rw [next, List.head?_cons])
    obtain ⟨i, holdsL, hi, boundsL⟩ := left s reached head
    obtain ⟨j, holdsR, hj, boundsR⟩ := right s reached head
    have size : v < s.memory.slots.size := by
      rw [(reached.stands wellFormed consistent.describes).size]
      exact lt_size_of_home? home
    have fits := notes.leavesInt32 code typed ring ranged int32 reached head size holdsL holdsR
    rw [step_of_cons next (codeH.trans code) (typedH.trans typed),
      step_of_cons next (by rw [recoded.opcode?, if_pos rfl]) (by rw [types, if_pos rfl]),
      compute_onDoubles ring (heldL.trans holdsL) (heldR.trans holdsR),
      compute_onInt32 hi hj ring (fun mul => Range.nonneg_of_mul_eq_zero (never mul) boundsL boundsR)
        fits (heldX.trans holdsL) (heldY.trans holdsR)]
  exact (sameEnds halt answer).trans alike.ends_iff

/-- One over the square of the last byte of an argument, with the ranges of the byte and its square. -/
def squaredByte : Procedure where
  name := "square"
  entry := 0
  blocks := #[⟨0, [], [0, 1, 2, 3, 4, 5, 6, 7], .exit (some 7), false⟩]
  values := #[⟨0, .param 0, .int32, some 0, none⟩, ⟨1, .const (.int 255), .int32, some 0, none⟩,
    ⟨2, .binary .bitAnd 0 1 .checked, .int32, some 0, none⟩,
    ⟨3, .unary .toDouble 2, .double, some 0, some ⟨some 0, some 255, false, 7, none, none⟩⟩,
    ⟨4, .binary .mul 3 3 .checked, .double, some 0,
      some ⟨some 0, some 65025, false, 15, none, none⟩⟩,
    ⟨5, .unary .toDouble 4, .double, some 0, none⟩,
    ⟨6, .const (.double (.ofInt 1)), .double, some 0, none⟩,
    ⟨7, .binary .div 6 5 .checked, .double, some 0, none⟩]
  unsupported := false
  reasons := []

/-- On 263 the byte is 7 whenever a run comes to the square, and the square is then 49. -/
theorem squaredByte_notes :
    NotesHold squaredByte [.ofInt 263] 4 ∧ ReadsNoNegativeZero squaredByte [.ofInt 263] 4 := by
  have states : ∀ s, Reached squaredByte [.ofInt 263] s → s.pending.head? = some 4 →
      s.memory.slots[3]? = some (.number (.ofInt 7)) ∧ ∀ t, step squaredByte [.ofInt 263] s = .ok t →
        t.memory.slots[4]? = some (.number (.ofInt 49)) := by
    intro s reached head
    have ended : (stateAfter squaredByte [.ofInt 263] 9).isOk = false := by decide +kernel
    have checked : ∀ n < 9, (stateAfter squaredByte [.ofInt 263] n).toOption.all (fun s =>
        s.pending.head? != some 4 || s.memory.slots[3]? == some (.number (.ofInt 7)) &&
          (step squaredByte [.ofInt 263] s).toOption.all
            (·.memory.slots[4]? == some (.number (.ofInt 49)))) = true := by decide +kernel
    have held := reached.of_stateAfter ended checked
    simp only [head, bne_self_eq_false, Bool.false_or, Bool.and_eq_true, beq_iff_eq] at held
    refine ⟨held.1, fun t run => ?_⟩
    simpa [run, Except.toOption] using held.2
  have operand : ∀ o x, squaredByte.opcode? 4 = some o → x ∈ o.operands → x = 3 := by
    intro o x code hx
    have own : squaredByte.opcode? 4 = some (.binary .mul 3 3 .checked) := rfl
    obtain rfl := Option.some.inj (own.symm.trans code)
    simpa [Opcode.operands] using hx
  refine ⟨⟨fun s o x r reached head code hx read => ?_, fun s t r reached head run ranged => ?_⟩,
    fun s o x reached head code hx negative => ?_⟩
  · obtain rfl := operand o x code hx
    have noted : squaredByte.rangeRead 3 = .ok ⟨some 0, some 255, false, 7, none, none⟩ := by decide
    obtain rfl := Except.ok.inj (noted.symm.trans read)
    exact ⟨by decide, .ofInt 7, (states s reached head).1, by decide⟩
  · have noted : squaredByte.range? 4 = some ⟨some 0, some 65025, false, 15, none, none⟩ := rfl
    obtain rfl := Option.some.inj (noted.symm.trans ranged)
    exact ⟨by decide, .ofInt 49, (states s reached head).2 t run, by decide⟩
  · obtain rfl := operand o x code hx
    rw [(states s reached head).1] at negative
    cases negative

/-- The square is narrowed, and the run on 263 cannot tell. -/
theorem squaredByte_unobservable : ∃ g f', FlowGraph.build squaredByte = .ok g ∧
    squaredByte.narrow? g 4 [.operand 5 0] = .ok (some f') ∧ f'.type? 4 = some .int32 ∧
    (squaredByte.verify = .ok (.ok ()) ∧ squaredByte.phisAt squaredByte.entry = [] ∧
      squaredByte.AllListed ∧ squaredByte.home? 4 = some 0 ∧
      NotesHold squaredByte [.ofInt 263] 4 ∧ ReadsNoNegativeZero squaredByte [.ofInt 263] 4) ∧
    ∀ halt, halt.isAnswer = true →
      (Ends squaredByte [.ofInt 263] halt ↔ Ends f' [.ofInt 263] halt) := by
  have edited : (fun r : Option Procedure => r.bind (·.type? 4)) <$>
      (FlowGraph.build squaredByte >>= fun g => squaredByte.narrow? g 4 [.operand 5 0]) =
        .ok (some .int32) := by decide +kernel
  obtain ⟨result, ran, typed⟩ := map_eq_ok.mp edited
  obtain ⟨g, current, narrowed⟩ := bind_eq_ok.mp ran
  obtain ⟨f', rfl, typed⟩ := Option.bind_eq_some_iff.mp typed
  have accepted : squaredByte.verify = .ok (.ok ()) := by decide +kernel
  have listed : squaredByte.AllListed := by decide +kernel
  obtain ⟨notes, unsigned⟩ := squaredByte_notes
  exact ⟨g, f', current, narrowed, typed, ⟨accepted, rfl, listed, rfl, notes, unsigned⟩,
    fun halt answer => narrowing_unobservable accepted current rfl listed rfl narrowed notes unsigned
      answer⟩

/-- One over twice a number. -/
def reciprocalOfSum (x : Number) : Procedure where
  name := "reciprocal"
  entry := 0
  blocks := #[⟨0, [], [0, 1, 2, 3, 4], .exit (some 4), false⟩]
  values := #[⟨0, .const (.double x), .double, some 0, none⟩,
    ⟨1, .binary .add 0 0 .checked, .double, some 0, none⟩,
    ⟨2, .unary .toDouble 1, .double, some 0, none⟩,
    ⟨3, .const (.double (.ofInt 1)), .double, some 0, none⟩,
    ⟨4, .binary .div 3 2 .checked, .double, some 0, none⟩]
  unsupported := false
  reasons := []

/-- The sum of negative zeros is narrowed, although its sign can be told from the reciprocal. -/
theorem reciprocalOfSum_observed :
    (reciprocalOfSum .negZero).verify = .ok (.ok ()) ∧ (reciprocalOfSum .negZero).AllListed ∧
      run (reciprocalOfSum .negZero) [] 6 = some (.returned (some .negInf)) ∧
      (fun t : Session => run t.procedure [] 8) <$>
        (Session.start (reciprocalOfSum .negZero) .standard >>= Session.analyze >>=
          fun analyzed => analyzed.1.truncate) = .ok (some (.returned (some .posInf))) := by
  decide +kernel

end Machine

end Rangefinder
