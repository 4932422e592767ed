import Rangefinder.Proofs.Linear.Sums
import Rangefinder.Proofs.Machine.Arithmetic
import Rangefinder.Proofs.Machine.Steps

/-!
# Runs on int32 numbers

In a procedure whose whole values are computed from whole operands, the slots of these hold int32
numbers in every state of a run. So a state can be read as an assignment of integers to values
(`Procedure.valueIn`). It solves the defining equations of constants, betas, and checked sums,
differences and products, and it satisfies the bounds checks that were passed.
-/

namespace Rangefinder

namespace ArrayObject

/-- The array is one that an argument may stand for, and its elements are int32 numbers. -/
def IsOfInt32 (a : ArrayObject) : Prop :=
  a.length ≤ 10000000 ∧ ∀ i < a.length, (a.get i).IsWhole

/-- New arrays hold int32. -/
theorem isOfInt32_fresh {n : Nat} (small : n ≤ 10000000) : (⟨n, ∅⟩ : ArrayObject).IsOfInt32 := by
  refine ⟨small, fun i lt => ?_⟩
  have content : (⟨n, ∅⟩ : ArrayObject).get i = .ofInt i := by simp [get]
  rw [content]
  refine .ofInt ?_
  unfold IsInt32 int32Min int32Max
  dsimp only at lt
  omega

/-- So do arrays after a store. -/
theorem IsOfInt32.put {a : ArrayObject} {x : Number} (h : a.IsOfInt32) (whole : x.IsWhole) (i : Nat) :
    (a.put i x).IsOfInt32 := by
  refine ⟨h.1, fun j lt => ?_⟩
  have content : (a.put i x).get j = if i = j then x else a.get j := by
    simp [get, ArrayObject.put, Std.HashMap.getD_insert]
  rw [content]
  split
  · exact whole
  · exact h.2 j lt

end ArrayObject

namespace Number

/-- Clamping an integer. -/
theorem clamp_ofInt {n lo hi : Int} (le : lo ≤ hi) :
    (ofInt n).clamp (ofInt lo) (ofInt hi) = ofInt (max lo (min n hi)) := by
  rw [clamp, lt_ofInt, lt_ofInt]
  split
  · next below =>
    have := of_decide_eq_true below
    rw [max_eq_left (by omega)]
  · next inside =>
    have : ¬n < lo := fun below => inside (decide_eq_true below)
    split
    · next above =>
      have := of_decide_eq_true above
      rw [min_eq_right (by omega), max_eq_right (by omega)]
    · next inside' =>
      have : ¬hi < n := fun above => inside' (decide_eq_true above)
      rw [min_eq_left (by omega), max_eq_right (by omega)]

/-- Rounding a natural. -/
theorem roundEven_ofInt {n : Int} (nonneg : 0 ≤ n) : (ofInt n).roundEven = ofInt n := by
  have same : nearestEven (n : Rat) = n := by
    have upper : nearestQuotient n 1 ≤ n := nearestQuotient_le (by decide) (by simp)
    have lower : n ≤ nearestQuotient n 1 := le_nearestQuotient (by decide) (by simp)
    rw [nearestEven, Rat.num_intCast, Rat.den_intCast]
    omega
  have positive : ¬((n : Rat) < 0 ∧ nearestEven (n : Rat) = 0) := by
    rintro ⟨neg, -⟩
    have : n < 0 := by exact_mod_cast neg
    omega
  rw [ofInt, roundEven, if_neg positive, same]

end Number

open Number

namespace ElementType

variable {type : ElementType}

/-- The least and the greatest number that an element of an integer type holds. -/
def limits? : ElementType → Option (Int × Int)
  | int8 => some (-128, 127)
  | uint8 | uint8Clamped => some (0, 255)
  | int16 => some (-32768, 32767)
  | uint16 => some (0, 65535)
  | int32 => some (int32Min, int32Max)
  | uint32 => some (0, uint32Max)
  | float32 | float64 => none

/-- An element that is reduced and not clamped holds an integer within its limits, whatever is stored. -/
theorem load_eq_ofInt {l h : Int} (limits : type.limits? = some (l, h)) (reduced : type ≠ .uint8Clamped)
    (x : Number) : ∃ n, type.load x = .ofInt n ∧ l ≤ n ∧ n ≤ h := by
  cases type with
  | int8 =>
    obtain ⟨rfl, rfl⟩ := Prod.mk.inj (Option.some.inj limits)
    have lower := Int.le_bmod (x := x.toInt32) (m := 256) (by decide)
    have upper := Int.bmod_lt (x := x.toInt32) (m := 256) (by decide)
    exact ⟨_, rfl, by omega, by omega⟩
  | int16 =>
    obtain ⟨rfl, rfl⟩ := Prod.mk.inj (Option.some.inj limits)
    have lower := Int.le_bmod (x := x.toInt32) (m := 65536) (by decide)
    have upper := Int.bmod_lt (x := x.toInt32) (m := 65536) (by decide)
    exact ⟨_, rfl, by omega, by omega⟩
  | uint8 | uint16 =>
    obtain ⟨rfl, rfl⟩ := Prod.mk.inj (Option.some.inj limits)
    exact ⟨_, rfl, by omega, by omega⟩
  | int32 =>
    obtain ⟨rfl, rfl⟩ := Prod.mk.inj (Option.some.inj limits)
    exact ⟨_, rfl, isInt32_toInt32 x⟩
  | uint32 =>
    obtain ⟨rfl, rfl⟩ := Prod.mk.inj (Option.some.inj limits)
    refine ⟨_, rfl, Int.natCast_nonneg _, ?_⟩
    unfold wrapUint32 uint32Max
    omega
  | uint8Clamped => exact absurd rfl reduced
  | float32 | float64 => cases limits

/-- An element of an array of int32 numbers is one. -/
theorem load_isWhole {x : Number} (int32 : type.isInt32 = true) (whole : x.IsWhole) :
    (type.load x).IsWhole := by
  by_cases clamped : type = .uint8Clamped
  · obtain ⟨n, rfl, -⟩ := whole
    rw [clamped, load, isNaN_ofInt, if_neg (by simp), clamp_ofInt (by decide), roundEven_ofInt (by omega)]
    refine .ofInt ?_
    unfold IsInt32 int32Min int32Max
    omega
  · have narrow : ∃ l h, type.limits? = some (l, h) ∧ int32Min ≤ l ∧ h ≤ int32Max := by
      cases type with
      | uint32 | float32 | float64 => cases int32
      | _ => exact ⟨_, _, rfl, by decide, by decide⟩
    obtain ⟨l, h, limits, low, high⟩ := narrow
    obtain ⟨n, result, lower, upper⟩ := load_eq_ofInt limits clamped x
    exact ⟨n, result, low.trans lower, upper.trans high⟩

end ElementType

namespace Machine

variable {f : Procedure} {g : FlowGraph} {args : List Number} {m m' : Memory} {s t : State}
  {v : ValueId} {type : ValueType} {o : Opcode} {slot : Slot}

/-- Arguments are short. -/
theorem argumentLength_le (x : Number) : argumentLength x ≤ 10000000 := by
  rw [argumentLength]
  split
  · exact Nat.zero_le _
  · have le : (x.clamp (.ofInt 0) (.ofInt 10000000)).toRat ≤ ((10000000 : Int) : Rat) := by
      rw [clamp]
      split
      · rw [toRat_ofInt]
        norm_num
      · split
        · rw [toRat_ofInt]
        · next inside =>
          cases x with
          | finite value =>
            have : ¬((10000000 : Int) : Rat) < value := fun above => inside (decide_eq_true above)
            exact not_lt.mp this
          | nan | negInf | posInf | negZero => norm_num [toRat, toRat?]
    have := Rat.floor_monotone le
    rw [Rat.floor_intCast] at this
    omega

/-! ### Whole values hold int32 numbers -/

end Machine

namespace Memory

/-- The slot of the value holds an int32 number. -/
def HoldsInt32 (m : Memory) (v : ValueId) : Prop := ∃ x, m.slots[v]? = some (.number x) ∧ x.IsWhole

/-- All arrays are arrays of int32 numbers. -/
def StoresInt32 (m : Memory) : Prop :=
  ∀ (place : Nat) (a : ArrayObject), m.store[place]? = some a → a.IsOfInt32

variable {m : Memory} {v : ValueId}

/-- What is read is whole. -/
theorem HoldsInt32.of_number {x : Number} (h : m.HoldsInt32 v) (read : m.number v = .ok x) :
    x.IsWhole := by
  obtain ⟨y, found, whole⟩ := h
  obtain rfl := Slot.number.inj (Option.some.inj (found.symm.trans (number_eq_ok.mp read)))
  exact whole

end Memory

namespace Machine

variable {f : Procedure} {g : FlowGraph} {args : List Number} {m m' : Memory} {s t : State}
  {v : ValueId} {type : ValueType} {o : Opcode} {slot : Slot}

/-- An element that an instruction refers to is one of an array in the store. -/
theorem element_eq_ok {array index : ValueId} {place i : Nat} {content : ArrayObject}
    (h : element m v array index = .ok (place, content, i)) :
    m.store[place]? = some content ∧ i < content.length := by
  obtain ⟨⟨place', content'⟩, found, h⟩ := bind_eq_ok.mp h
  obtain ⟨x, -, h⟩ := bind_eq_ok.mp h
  dsimp only at h
  split at h
  · cases h
  · split at h
    · next inside =>
      obtain ⟨rfl, rest⟩ := Prod.mk.inj (pure_eq_ok.mp h)
      obtain ⟨rfl, rfl⟩ := Prod.mk.inj rest
      exact ⟨(Memory.arrayAt_eq_ok.mp found).2, inside⟩
    · cases h

/-- An opcode for whole values gives an int32 number when its operands hold such numbers. -/
theorem compute_isWhole (whole : type.isWhole = true) (form : o.isWholeForm type = true)
    (operands : ∀ x ∈ o.wholeOperands, m.HoldsInt32 x) (stored : m.StoresInt32)
    (h : compute args m v type o = .ok (m', slot)) : ∃ x, slot = .number x ∧ x.IsWhole := by
  cases o with
  | const literal =>
    obtain ⟨-, rfl⟩ := Prod.mk.inj (pure_eq_ok.mp h)
    cases literal with
    | int n => exact ⟨_, rfl, .ofInt (of_decide_eq_true form)⟩
    | bool b => exact ⟨_, rfl, isWhole_ofBool b⟩
    | double x => cases form
  | param index =>
    have h := pure_eq_ok.mp h
    cases type with
    | int32 => exact ⟨_, (Prod.mk.inj h).2.symm, .ofInt (isInt32_toInt32 _)⟩
    | boolean => exact ⟨_, (Prod.mk.inj h).2.symm, isWhole_ofBool _⟩
    | double | boxed | object | effect => cases whole
  | phi inputs => cases h
  | beta input refinement =>
    obtain ⟨read, found, h⟩ := bind_eq_ok.mp h
    obtain ⟨-, rfl⟩ := Prod.mk.inj (pure_eq_ok.mp h)
    obtain ⟨x, holds, fits⟩ := operands input (by simp [Opcode.wholeOperands])
    exact ⟨x, Option.some.inj ((Memory.read_eq_ok.mp found).1.symm.trans holds), fits⟩
  | binary op lhs rhs flags =>
    obtain ⟨a, readA, h⟩ := bind_eq_ok.mp h
    obtain ⟨b, readB, h⟩ := bind_eq_ok.mp h
    obtain ⟨r, computed, h⟩ := bind_eq_ok.mp h
    obtain ⟨-, rfl⟩ := Prod.mk.inj (pure_eq_ok.mp h)
    obtain rfl : type = .int32 := beq_iff_eq.mp form
    exact ⟨r, rfl, binary_isWhole ((operands lhs (by simp [Opcode.wholeOperands])).of_number readA)
      ((operands rhs (by simp [Opcode.wholeOperands])).of_number readB) computed⟩
  | unary op operand =>
    obtain ⟨a, readA, h⟩ := bind_eq_ok.mp h
    obtain ⟨r, computed, h⟩ := bind_eq_ok.mp h
    obtain ⟨-, rfl⟩ := Prod.mk.inj (pure_eq_ok.mp h)
    obtain ⟨int32, kind⟩ := Bool.and_eq_true_iff.mp form
    obtain rfl : type = .int32 := beq_iff_eq.mp int32
    exact ⟨r, rfl, unary_isWhole kind
      ((operands operand (by simp [Opcode.wholeOperands])).of_number readA) computed⟩
  | compare op lhs rhs =>
    obtain ⟨a, -, h⟩ := bind_eq_ok.mp h
    obtain ⟨b, -, h⟩ := bind_eq_ok.mp h
    obtain ⟨-, rfl⟩ := Prod.mk.inj (pure_eq_ok.mp h)
    exact ⟨_, rfl, isWhole_ofBool _⟩
  | arrayLength array | typedArrayLength array =>
    obtain ⟨⟨place, content⟩, found, h⟩ := bind_eq_ok.mp h
    obtain ⟨-, rfl⟩ := Prod.mk.inj (pure_eq_ok.mp h)
    have := (stored place content (Memory.arrayAt_eq_ok.mp found).2).1
    refine ⟨_, rfl, .ofInt ?_⟩
    unfold IsInt32 int32Min int32Max
    omega
  | loadTyped array index element =>
    obtain ⟨⟨place, content, i⟩, found, h⟩ := bind_eq_ok.mp h
    obtain ⟨-, rfl⟩ := Prod.mk.inj (pure_eq_ok.mp h)
    obtain ⟨isStored, inside⟩ := element_eq_ok found
    exact ⟨_, rfl, element.load_isWhole form ((stored place content isStored).2 i inside)⟩
  | boundsCheck index length minimum maximum movable =>
    obtain ⟨i, readI, h⟩ := bind_eq_ok.mp h
    obtain ⟨n, -, h⟩ := bind_eq_ok.mp h
    split at h
    · obtain ⟨-, rfl⟩ := Prod.mk.inj (pure_eq_ok.mp h)
      exact ⟨i, rfl, (operands index (by simp [Opcode.wholeOperands])).of_number readI⟩
    · cases h
  | loadElement | storeElement | lowerCheck | call | assertRange => cases form

/-- Arrays stay arrays of int32 numbers when int32 numbers are stored in them. -/
theorem compute_storesInt32 (operands : ∀ x ∈ o.wholeOperands, m.HoldsInt32 x)
    (stored : m.StoresInt32) (h : compute args m v type o = .ok (m', slot)) : m'.StoresInt32 := by
  cases quiet : o.isQuiet with
  | true => exact compute_quiet quiet h ▸ stored
  | false =>
    cases o with
    | param index =>
      have h := pure_eq_ok.mp h
      cases type with
      | object =>
        obtain ⟨rfl, -⟩ := Prod.mk.inj h
        intro place a found
        rw [Array.getElem?_push] at found
        split at found
        · obtain rfl := Option.some.inj found
          exact ArrayObject.isOfInt32_fresh (argumentLength_le _)
        · exact stored place a found
      | int32 | boolean | double | boxed | effect => exact (Prod.mk.inj h).1 ▸ stored
    | storeElement array index value =>
      obtain ⟨x, readX, h⟩ := bind_eq_ok.mp h
      obtain ⟨⟨place, content, i⟩, found, h⟩ := bind_eq_ok.mp h
      obtain ⟨rfl, -⟩ := Prod.mk.inj (pure_eq_ok.mp h)
      have whole := (operands value (by simp [Opcode.wholeOperands])).of_number readX
      intro place' a at_place
      rw [Array.getElem?_setIfInBounds] at at_place
      split at at_place
      · split at at_place
        · obtain rfl := Option.some.inj at_place
          exact (stored place content (element_eq_ok found).1).put whole i
        · cases at_place
      · exact stored place' a at_place
    | _ => cases quiet

end Machine

/-- What makes a procedure run on int32 numbers. -/
structure Procedure.OnInt32 (f : Procedure) (g : FlowGraph) : Prop where
  consistent : f.Consistent g
  noPhis : f.phisAt f.entry = []
  integral : f.Integral

/-- Ranges and marks do not matter for the numbers of a run. -/
theorem Procedure.OnInt32.of_sameCode {f f' : Procedure} {g : FlowGraph} (h : f.OnInt32 g)
    (same : SameCode f f') : f'.OnInt32 g where
  consistent := ⟨same.layout.flow.build.trans h.consistent.built,
    same.wellFormed h.consistent.wellFormed, same.layout.allListed h.consistent.listed⟩
  noPhis := by rw [same.entry, same.layout.phisAt, h.noPhis]
  integral := h.integral.of_sameCode same

namespace Machine

variable {f : Procedure} {g : FlowGraph} {args : List Number} {s : State} {v : ValueId}

/-- In every state of a run the available whole values hold int32 numbers, and so do the arrays. -/
theorem maintained_holdsInt32 (h : f.OnInt32 g) :
    Maintained f g args (fun m v => f.isWhole v = true → m.HoldsInt32 v)
      fun s => s.memory.StoresInt32 where
  frame m m' v same holds whole := by
    obtain ⟨x, found, fits⟩ := holds whole
    exact ⟨x, same.1.trans found, fits⟩
  start s started place a found := by
    rw [(start_spec started).2.2] at found
    simp [Memory.initial] at found
  instr s t v rest holds next run := by
    have wf := h.consistent.wellFormed
    obtain ⟨before, split⟩ := holds.stands.position
    have listed : v ∈ f.instrsAt s.block := by simp [split, next]
    obtain ⟨o, code⟩ :=
      Procedure.exists_opcode? (Procedure.lt_size_of_home? (wf.structured.instrs _ v listed).2)
    obtain ⟨type, m, slot, typed, computed, rfl, written⟩ := step_computes holds.stands next code run
    have operands : ∀ x ∈ o.wholeOperands, s.memory.HoldsInt32 x := fun x hx =>
      holds.values x (available_operand holds.stands wf next code (o.wholeOperands_subset hx))
        (h.integral.operands v o code x hx)
    have stored : m.StoresInt32 := compute_storesInt32 operands holds.state computed
    refine ⟨fun whole => ?_, stored⟩
    obtain ⟨type', typed', whole⟩ := Procedure.isWhole_iff.mp whole
    obtain rfl := Option.some.inj (typed.symm.trans typed')
    obtain ⟨x, rfl, fits⟩ := compute_isWhole whole (h.integral.form v o type code typed whole) operands
      holds.state computed
    exact ⟨x, written, fits⟩
  enter s t holds last entered := by
    have wf := h.consistent.wellFormed
    have d := h.consistent.describes
    have reachable : t.block ∈ g.order := (holds.stands.enters wf d entered).reachable
    refine ⟨fun phi mem whole => ?_, fun place a found => holds.state place a (entered.store ▸ found)⟩
    obtain ⟨inputs, x, slot, code, input, found, -, written⟩ := entered.phis phi mem
    have listed := List.mem_of_find?_eq_some input
    obtain ⟨y, holdsInput, fits⟩ := holds.values x
      (available_input wf d h.consistent.listed holds.stands last reachable mem code listed)
      (h.integral.operands phi _ code x (List.mem_map_of_mem listed))
    refine ⟨y, ?_, fits⟩
    rw [written, ← found, holdsInput]
    rw [holds.stands.size]
    exact Procedure.lt_size_of_home? (wf.structured.phis _ phi mem).2

/-- Whole values hold int32. -/
theorem Reached.holdsInt32 (reached : Reached f args s) (h : f.OnInt32 g)
    (avail : Available f g s v) (whole : f.isWhole v = true) : s.memory.HoldsInt32 v :=
  ((maintained_holdsInt32 h).reached h.consistent.wellFormed h.consistent.describes
    h.consistent.listed h.noPhis reached).values v avail whole

end Machine

/-! ### States as assignments of integers -/

namespace Memory

variable {m m' : Memory} {v w : ValueId} {n : Int}

/-- The integer in the slot of a value. -/
def intAt (m : Memory) (v : ValueId) : Int :=
  match m.slots[v]? with
  | some (.number x) => truncate x.toRat
  | _ => 0

/-- The slot of the value holds the integer; a zero may have either sign. -/
def HoldsInt (m : Memory) (v : ValueId) (n : Int) : Prop :=
  ∃ x : Number, m.slots[v]? = some (.number x) ∧ x.toRat? = some (n : Rat)

/-- The integer is read. -/
theorem HoldsInt.intAt_eq (h : m.HoldsInt v n) : m.intAt v = n := by
  obtain ⟨x, found, value⟩ := h
  rw [intAt, found]
  dsimp only
  rw [toRat, value, Option.getD_some, truncate_intCast]

/-- It depends on the slot. -/
theorem HoldsInt.congr (h : m.HoldsInt v n) (same : m'.slots[w]? = m.slots[v]?) :
    m'.HoldsInt w n := by
  obtain ⟨x, found, value⟩ := h
  exact ⟨x, same.trans found, value⟩

/-- The slot of an int32. -/
theorem HoldsInt32.slot_eq (h : m.HoldsInt32 v) :
    m.slots[v]? = some (.number (.ofInt (m.intAt v))) ∧ IsInt32 (m.intAt v) := by
  obtain ⟨_, found, n, rfl, fits⟩ := h
  have value : m.intAt v = n := HoldsInt.intAt_eq ⟨_, found, rfl⟩
  rw [value]
  exact ⟨found, fits⟩

end Memory

namespace Procedure

/-- The integer that a value stands for: constants have their own, other values the one in their
slot. -/
def valueIn (f : Procedure) (m : Memory) (v : ValueId) : Int :=
  match f.opcode? v with
  | some (.const (.int c)) => c
  | _ => m.intAt v

/-- Constants are respected. -/
theorem respectsConstants_valueIn (f : Procedure) (m : Memory) :
    LinearSum.RespectsConstants f (f.valueIn m) := by
  intro v c code
  rw [valueIn, code]

/-- The assignment solves the equation that defines the value, if that is a constant, a beta, or one of
the given operations on int32 numbers without wrap-around. -/
structure SolvesAt (f : Procedure) (ops : List BinaryOp) (val : ValueId → Int) (v : ValueId) :
    Prop where
  const : ∀ c, f.opcode? v = some (.const (.int c)) → val v = c
  beta : ∀ x range, f.opcode? v = some (.beta x range) → val v = val x
  binary : ∀ op x y flags, f.opcode? v = some (.binary op x y flags) → op ∈ ops →
    f.type? v = some .int32 → flags.wrapping = false → op.onIntegers? (val x) (val y) = some (val v)

end Procedure

namespace Machine

variable {f : Procedure} {g : FlowGraph} {args : List Number} {s : State} {v x y : ValueId}

/-- An available value that holds an integer stands for that integer. -/
theorem Reached.valueIn_eq {n : Int} (reached : Reached f args s) (consistent : f.Consistent g)
    (noPhis : f.phisAt f.entry = []) (avail : Available f g s v) (holds : s.memory.HoldsInt v n) :
    f.valueIn s.memory v = n := by
  rw [Procedure.valueIn]
  split
  · next c code =>
    obtain ⟨value, found, -⟩ := Option.map_eq_some_iff.mp code
    obtain ⟨m₀, result, -, computed, own⟩ :=
      reached.computed consistent noPhis avail _ _ code (Procedure.type?_of_value found) rfl
    obtain rfl := pure_eq_ok.mp computed
    obtain ⟨x, held, value⟩ := holds
    obtain rfl := Slot.number.inj (Option.some.inj (own.symm.trans held))
    exact Int.cast_inj.mp (Option.some.inj value)
  · exact holds.intAt_eq

/-- The slot of an available whole value holds the integer that the value stands for. -/
theorem Reached.slot_eq (reached : Reached f args s) (h : f.OnInt32 g) (avail : Available f g s v)
    (whole : f.isWhole v = true) :
    s.memory.slots[v]? = some (.number (.ofInt (f.valueIn s.memory v))) ∧
      IsInt32 (f.valueIn s.memory v) := by
  obtain ⟨found, fits⟩ := (reached.holdsInt32 h avail whole).slot_eq
  rw [reached.valueIn_eq h.consistent h.noPhis avail ⟨_, found, rfl⟩]
  exact ⟨found, fits⟩

end Machine

/-- What makes the readings of a procedure right: in every run, the values of type int32 hold
integers. -/
structure Procedure.KeepsIntegers (f : Procedure) (g : FlowGraph) : Prop where
  consistent : f.Consistent g
  noPhis : f.phisAt f.entry = []
  holds : ∀ args s v, Machine.Reached f args s → Machine.Available f g s v →
    f.type? v = some .int32 → ∃ n, s.memory.HoldsInt v n

/-- Integers are kept. -/
theorem Procedure.OnInt32.keepsIntegers {f : Procedure} {g : FlowGraph} (h : f.OnInt32 g) :
    f.KeepsIntegers g :=
  ⟨h.consistent, h.noPhis, fun _ _ _ reached avail typed =>
    ⟨_, _, (reached.slot_eq h avail (isWhole_of_type typed rfl)).1, rfl⟩⟩

namespace Machine

variable {f : Procedure} {g : FlowGraph} {args : List Number} {s : State} {v x y : ValueId}

/-- What was read from the slot of an operand is what the operand holds now. -/
theorem Reached.number_eq (reached : Reached f args s) (h : f.OnInt32 g) (avail : Available f g s x)
    (whole : f.isWhole x = true) {m₀ : Memory} {a : Number}
    (same : s.memory.slots[x]? = m₀.slots[x]?) (read : m₀.number x = .ok a) :
    a = .ofInt (f.valueIn s.memory x) := by
  have found := Memory.number_eq_ok.mp read
  rw [← same, (reached.slot_eq h avail whole).1] at found
  exact (Slot.number.inj (Option.some.inj found)).symm

/-- A state of a run solves the equations that define the available whole values. -/
theorem Reached.solvesAt (reached : Reached f args s) (h : f.OnInt32 g) (avail : Available f g s v)
    (whole : f.isWhole v = true) :
    f.SolvesAt [.add, .sub, .mul] (f.valueIn s.memory) v := by
  have wf := h.consistent.wellFormed
  have d := h.consistent.describes
  have stands := reached.stands wf d
  have own := (reached.slot_eq h avail whole).1
  have operand : ∀ {o : Opcode} {x : ValueId}, f.opcode? v = some o → o.isPhi = false →
      x ∈ o.wholeOperands → Available f g s x ∧ f.isWhole x = true := fun code kind hx =>
    ⟨avail.operand stands wf d h.consistent.listed code kind (Opcode.wholeOperands_subset _ hx),
      h.integral.operands v _ code _ hx⟩
  refine ⟨fun c code => ?_, fun x range code => ?_, fun op x y flags code mem typed checked => ?_⟩
  · exact f.respectsConstants_valueIn s.memory v c code
  · obtain ⟨availX, wholeX⟩ := operand code rfl (x := x) (by simp [Opcode.wholeOperands])
    have same := (reached.computed h.consistent h.noPhis avail).beta code
    rw [own, (reached.slot_eq h availX wholeX).1] at same
    exact ofInt_inj.mp (Slot.number.inj (Option.some.inj same))
  · obtain ⟨availX, wholeX⟩ := operand code rfl (x := x) (by simp [Opcode.wholeOperands])
    obtain ⟨availY, wholeY⟩ := operand code rfl (x := y) (by simp [Opcode.wholeOperands])
    obtain ⟨m₀, result, operands, computed, holds⟩ :=
      reached.computed h.consistent h.noPhis avail _ _ code typed rfl
    obtain ⟨a, readA, computed⟩ := bind_eq_ok.mp computed
    obtain ⟨b, readB, computed⟩ := bind_eq_ok.mp computed
    obtain ⟨r, combined, done⟩ := bind_eq_ok.mp computed
    obtain rfl := pure_eq_ok.mp done
    obtain rfl := reached.number_eq h availX wholeX (operands x (by simp [Opcode.operands])) readA
    obtain rfl := reached.number_eq h availY wholeY (operands y (by simp [Opcode.operands])) readB
    obtain ⟨e, exact⟩ : ∃ e, op.onIntegers? (f.valueIn s.memory x) (f.valueIn s.memory y) = some e := by
      simp only [List.mem_cons, List.not_mem_nil, or_false] at mem
      rcases mem with rfl | rfl | rfl <;> exact ⟨_, rfl⟩
    obtain rfl := binary_exact (reached.slot_eq h availX wholeX).2 (reached.slot_eq h availY wholeY).2
      exact checked combined
    rw [exact, ofInt_inj.mp (Slot.number.inj (Option.some.inj (own.symm.trans holds)))]

/-- A bounds check that was passed was passed for the integers that its operands stand for. -/
theorem Reached.boundsCheck_holds {index length : ValueId} {minimum maximum : Int} {movable : Bool}
    (reached : Reached f args s) (h : f.OnInt32 g) (avail : Available f g s v)
    (code : f.opcode? v = some (.boundsCheck index length minimum maximum movable)) :
    0 ≤ f.valueIn s.memory index + minimum ∧
      f.valueIn s.memory index + maximum < f.valueIn s.memory length := by
  have wf := h.consistent.wellFormed
  have d := h.consistent.describes
  have stands := reached.stands wf d
  have operand : ∀ x ∈ [index, length], Available f g s x ∧ f.isWhole x = true := fun x hx =>
    ⟨avail.operand stands wf d h.consistent.listed code rfl hx, h.integral.operands v _ code x hx⟩
  obtain ⟨availI, wholeI⟩ := operand index (by simp)
  obtain ⟨availN, wholeN⟩ := operand length (by simp)
  obtain ⟨value, found, -⟩ := Option.map_eq_some_iff.mp code
  obtain ⟨m₀, result, operands, computed, -⟩ := reached.computed h.consistent h.noPhis avail _ _ code
    (Procedure.type?_of_value found) rfl
  obtain ⟨i, readI, computed⟩ := bind_eq_ok.mp computed
  obtain ⟨n, readN, computed⟩ := bind_eq_ok.mp computed
  obtain rfl := reached.number_eq h availI wholeI (operands index (by simp [Opcode.operands])) readI
  obtain rfl := reached.number_eq h availN wholeN (operands length (by simp [Opcode.operands])) readN
  have small := (reached.slot_eq h availI wholeI).2.natAbs_le
  have low := (h.integral.limits v _ code minimum (by simp [Opcode.limits])).natAbs_le
  have high := (h.integral.limits v _ code maximum (by simp [Opcode.limits])).natAbs_le
  split at computed
  · next passed =>
    rw [add_ofInt (by omega), add_ofInt (by omega), le_ofInt, lt_ofInt, Bool.and_eq_true,
      decide_eq_true_eq, decide_eq_true_eq] at passed
    exact passed
  · cases computed

/-- A lower check that was passed was passed for the integer that its operand stands for. -/
theorem Reached.lowerCheck_holds {index : ValueId} {minimum : Int} (reached : Reached f args s)
    (h : f.OnInt32 g) (avail : Available f g s v)
    (code : f.opcode? v = some (.lowerCheck index minimum)) (whole : f.isWhole index = true) :
    minimum ≤ f.valueIn s.memory index := by
  have wf := h.consistent.wellFormed
  have d := h.consistent.describes
  have availI := avail.operand (reached.stands wf d) wf d h.consistent.listed code rfl (x := index)
    (by simp [Opcode.operands])
  obtain ⟨value, found, -⟩ := Option.map_eq_some_iff.mp code
  obtain ⟨m₀, result, operands, computed, -⟩ := reached.computed h.consistent h.noPhis avail _ _ code
    (Procedure.type?_of_value found) rfl
  obtain ⟨i, readI, computed⟩ := bind_eq_ok.mp computed
  obtain rfl := reached.number_eq h availI whole (operands index (by simp [Opcode.operands])) readI
  split at computed
  · next passed =>
    rw [le_ofInt, decide_eq_true_eq] at passed
    exact passed
  · cases computed

end Machine

end Rangefinder
