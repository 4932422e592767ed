import Rangefinder.Procedure.Verify
import Rangefinder.Proofs.Analysis.NormalRanges
import Rangefinder.Proofs.Machine.Contents
import Rangefinder.Proofs.Range.Intersection

/-!
# Ranges of checked indices and of loaded elements

The range of a bounds check is the range of its index, cut down to the integers that can pass. The machine
compares doubles, so an index with a fraction passes as well and is cut off, and so is an index from 2^32 on
that is compared with a length without an upper bound. For every other index the machine and the range agree:
sums with the offsets of the check are exact in int32, and rounding brings no other sum back into it.

An element of an integer type lies within the limits of the type, whatever is stored. The range of a load is
confined to the type of the value, but the machine does not convert what it loads: an element of 32 unsigned
bits that is read as an int32 may be above all numbers of its range.
-/

namespace Rangefinder

open Number

/-- A number with an integer value leaves int32 when that integer does. -/
theorem Number.leavesInt32_of_toRat? {x : Number} {n : Int} (value : x.toRat? = some (n : Rat)) :
    x.leavesInt32 = decide (¬IsInt32 n) := by
  rw [leavesInt32, lt_of_toRat? value rfl, lt_of_toRat? rfl value, ← Bool.decide_or]
  exact decide_eq_decide.mpr (by unfold IsInt32; omega)

namespace Range

variable {r s : Range} {x : Number} {k minimum maximum : Int}

/-- The numbers of an int32 range are int32. -/
theorem NormalInt32.exists_int (n : r.NormalInt32) (member : r.contains x = true) :
    ∃ k : Int, x.toRat? = some (k : Rat) ∧ IsInt32 k := by
  obtain ⟨_, value, holds⟩ := n.exists_value n.closed member
  obtain ⟨k, rfl⟩ := holds.integral n.integral
  obtain ⟨lower, upper⟩ := holds.between_of_isClosed n.closed
  exact ⟨k, value, n.lower_fits.trans (Int.cast_le.mp lower), (Int.cast_le.mp upper).trans n.upper_fits⟩

/-- Confining a range to int32 keeps exactly those of its integers that are int32. -/
theorem clipToInt32_contains (n : r.Normal) (value : x.toRat? = some (k : Rat))
    (member : r.contains x = true) :
    Yields r.clipToInt32 fun t => t.contains x = true ↔ IsInt32 k := by
  refine (clipToInt32_yields n).mono fun t ⟨clipped, low, high⟩ => ?_
  constructor
  · intro inside
    obtain ⟨_, own, fits⟩ := clipped.exists_int inside
    rwa [Int.cast_inj.mp (Option.some.inj (value.symm.trans own))]
  · intro fits
    have holds := (contains_iff_of_toRat? value).mp member
    refine (contains_iff_of_toRat? value).mpr (clipped.holds_intCast ?_ ?_)
    · exact low.trans_le (Int.cast_le.mp (holds.lo_le (Int.cast_le.mpr fits.1)))
    · exact (Int.cast_le.mp (holds.le_hi (Int.cast_le.mpr fits.2))).trans_eq high.symm

/-- The range of a bounds check holds the integers of its index that lie between the limits of the check. -/
theorem ofBoundsCheck_contains (n : r.Normal) (member : r.contains x = true)
    (value : x.toRat? = some (k : Rat)) (lower : -minimum ≤ k)
    (upper : ∀ h ∈ s.upper, k ≤ h - 1 - maximum) (small : k.natAbs ≤ 4294967295) :
    Yields (ofBoundsCheck r s minimum maximum) fun t => t.contains x = true := by
  simp only [ofBoundsCheck]
  split
  · exact .ok member
  next ordered =>
  have passing : Yields (between (-minimum) _ false int32Exponent) fun t =>
      t.Normal ∧ t.contains x = true := (int32_yields (not_lt.mp ordered)).of_run fun t run m => by
    refine ⟨m, (contains_iff_of_toRat? value).mpr
      (between_holds run (.inr (Int.cast_le.mpr lower)) ?_ (fun _ => ⟨k, rfl⟩) fun _ => ?_)⟩
    · cases bound : s.upper with
      | none => exact .inl (lt_add_one int32Max)
      | some h => exact .inr (Int.cast_le.mpr (upper h bound))
    · rw [← Int.cast_abs, Int.abs_eq_natAbs, Int.cast_natCast]
      exact Nat.cast_lt.mpr (small.trans_lt (by decide))
  refine passing.bind ?_
  rintro t ⟨m, passes⟩
  refine (intersect_shares n m).bind fun met shares => .ok ?_
  cases met with
  | none => exact member
  | some u =>
    rcases shares.2 with rfl | both
    · exact unknown_contains x
    · exact (both x).mpr ⟨member, passes⟩

end Range

open Range

namespace ElementType

variable {type : ElementType} {l h : Int}

/-- Integer types have limits. -/
theorem exists_limits (single : type ≠ .float32) (double : type ≠ .float64) :
    ∃ limits, type.limits? = some limits := by
  cases type with
  | float32 => exact absurd rfl single
  | float64 => exact absurd rfl double
  | _ => exact ⟨_, rfl⟩

/-- The limits are the range. -/
theorem range_of_limits (limits : type.limits? = some (l, h)) (held : ValueType) :
    type.range held = Range.int32 l h := by
  cases type with
  | float32 | float64 => cases limits
  | _ =>
    obtain ⟨rfl, rfl⟩ := Prod.mk.inj (Option.some.inj limits)
    rfl

/-- The limits fit 32 bits. -/
theorem limits_fit (limits : type.limits? = some (l, h)) : int32Min ≤ l ∧ l ≤ h ∧ h ≤ uint32Max ∧
    (type ≠ .uint32 → h ≤ int32Max) := by
  cases type with
  | float32 | float64 => cases limits
  | uint32 =>
    obtain ⟨rfl, rfl⟩ := Prod.mk.inj (Option.some.inj limits)
    exact ⟨by decide, by decide, by decide, fun other => absurd rfl other⟩
  | _ =>
    obtain ⟨rfl, rfl⟩ := Prod.mk.inj (Option.some.inj limits)
    decide

/-- An element of an integer type holds an integer within its limits, whatever is stored. -/
theorem load_between (limits : type.limits? = some (l, h)) (x : Number) :
    ∃ k : Int, (type.load x).toRat? = some (k : Rat) ∧ l ≤ k ∧ k ≤ h := by
  by_cases clamped : type = .uint8Clamped
  · subst clamped
    obtain ⟨rfl, rfl⟩ := Prod.mk.inj (Option.some.inj limits)
    rw [load]
    split
    · exact ⟨0, rfl, by decide, by decide⟩
    · next number =>
      have number : x ≠ nan := fun nan => number (isNaN_iff.mpr nan)
      obtain ⟨q, value, lower, upper⟩ := clamp_between number (show (0 : Int) ≤ 255 by decide)
      exact roundEven_between value lower upper
  · obtain ⟨k, result, inside⟩ := load_eq_ofInt limits clamped x
    exact ⟨k, result ▸ rfl, inside⟩

/-- The range of the element type holds what is loaded. -/
theorem range_contains_load (limits : type.limits? = some (l, h)) (held : ValueType) (x : Number) :
    Yields (type.range held) fun t => t.Normal ∧ t.contains (type.load x) = true := by
  obtain ⟨k, value, lower, upper⟩ := load_between limits x
  obtain ⟨low, ordered, high, -⟩ := limits_fit limits
  have small : k.natAbs ≤ 4294967295 := by
    unfold int32Min at low
    unfold uint32Max at high
    omega
  rw [range_of_limits limits]
  obtain ⟨t, run, inside⟩ := uint32_contains small lower upper
  exact ⟨t, run, (int32_yields ordered).of_eq run,
    (contains_iff_of_toRat? value).mpr (contains_ofInt.mp inside)⟩

end ElementType

namespace Procedure

variable {f : Procedure} {g : FlowGraph} {v : ValueId} {value : Value} {r : Range} {x : Number}

/-- The number belongs to the range that is read of the value. -/
def Admits (f : Procedure) (v : ValueId) (x : Number) : Prop :=
  ∃ r, f.rangeRead v = .ok r ∧ r.contains x = true

/-- What is read of an int32 value is an int32 range. -/
theorem rangeRead_normalInt32 (normal : ∀ w r, f.range? w = some r → r.Normal)
    (typed : f.type? v = some .int32) (reading : f.rangeRead v = .ok r) : r.NormalInt32 := by
  obtain ⟨value, found, h⟩ := bind_eq_ok.mp reading
  have found := value_eq_ok.mp found
  rw [type?_of_value found, Option.some.injEq] at typed
  have known : ((value.range.map Range.numeric).getD value.type.range).Normal := by
    cases range : value.range with
    | none => exact value.type.range_normal
    | some s => exact (normal v s ((range?_of_value found).trans range)).numeric
  rw [typed] at h known
  exact ((clipToInt32_yields known).of_eq h).1

variable {args : List Number} {m m' : Memory} {slot : Slot} {index length : ValueId}
  {minimum maximum : Int} {i n : Number} {element : ElementType} {type : ValueType} {array : ValueId}

/-- An index that has passed the machine's check lies between the limits of the check, if it is an
integer. -/
theorem passes_between {s : Range} {k : Int} (normal : s.Normal) (member : s.contains n = true)
    (value : i.toRat? = some (k : Rat))
    (passed : (ofInt 0).le (i.add (.ofInt minimum)) = true ∧ (i.add (.ofInt maximum)).lt n = true) :
    -minimum ≤ k ∧ ∀ h ∈ s.upper, k ≤ h - 1 - maximum := by
  constructor
  · have := le_sum_of_le_add value rfl (by decide) passed.1
    omega
  · intro h bound
    have number := (ne_nan_of_le (le_of_lt passed.2)).2
    have below := ((contains_iff_spans number).mp member).upper h bound
    have fits : IsInt32 h := hi_eq bound ▸ normal.isInt32_hi
    have := sum_lt_of_add_lt value rfl fits (lt_of_lt_of_le passed.2 below)
    omega

/-- The check passes when the sums with its offsets do, and its value is the index. -/
theorem compute_boundsCheck {movable : Bool} (readI : m.number index = .ok i)
    (readN : m.number length = .ok n) :
    Machine.compute args m v type (.boundsCheck index length minimum maximum movable) = .ok (m', slot) ↔
      m = m' ∧ .number i = slot ∧ (ofInt 0).le (i.add (.ofInt minimum)) = true ∧
        (i.add (.ofInt maximum)).lt n = true := by
  rw [Machine.compute, readI, readN, ← Bool.and_eq_true]
  show (if ((ofInt 0).le (i.add (.ofInt minimum)) && (i.add (.ofInt maximum)).lt n) = true then _
    else _) = _ ↔ _
  split
  · next passed => rw [pure_eq_ok, Prod.mk.injEq, and_iff_left passed]
  · next failed => simp [failed]

/-- A load at a position within its array gives the element at that position. -/
theorem compute_loadTyped {place p : Nat} {content : ArrayObject}
    (found : m.arrayAt array = .ok (place, content)) (read : m.number index = .ok (.ofInt p))
    (inside : p < content.length) :
    Machine.compute args m v type (.loadTyped array index element) =
      .ok (m, .number (element.load (content.get p))) := by
  have position : Machine.element m v array index = .ok (place, content, p) := by
    rw [Machine.element, found, read]
    have above : ¬(p : Int) < 0 := by omega
    have below : (p : Int) < content.length := by omega
    show (if (!(ofInt p).isIntegral || (ofInt p).lt (.ofInt 0) || !(ofInt p).lt (.ofInt content.length)) =
      true then _ else _) = _
    rw [isIntegral_ofInt, lt_ofInt, lt_ofInt, decide_eq_false above, decide_eq_true below]
    show (if (ofInt p).toRat.floor.toNat < content.length then _ else _) = _
    rw [toRat_ofInt, Rat.floor_intCast, Int.toNat_natCast, if_pos inside]
    rfl
  rw [Machine.compute, position]
  rfl

/-- The index is one that the range of a bounds check speaks of: an int32, or any other integer that is
below 2^32 unless the length has an upper bound. -/
def IsCheckable (f : Procedure) (index length : ValueId) (i : Number) : Prop :=
  f.type? index = some .int32 ∨ i.isIntegral = true ∧
    ∀ s, f.rangeRead length = .ok s → s.upper = none → i.lt (.ofInt 4294967296) = true

/-- What a checkable index is that passes: an integer of 32 bits between the limits of the check. -/
theorem IsCheckable.exists_int {r s : Range} (normal : ∀ w r, f.range? w = some r → r.Normal)
    (checkable : f.IsCheckable index length i) (readR : f.rangeRead index = .ok r)
    (readS : f.rangeRead length = .ok s) (memberI : r.contains i = true) (memberN : s.contains n = true)
    (low : IsInt32 minimum) (high : IsInt32 maximum)
    (passed : (ofInt 0).le (i.add (.ofInt minimum)) = true ∧ (i.add (.ofInt maximum)).lt n = true) :
    ∃ k : Int, i.toRat? = some (k : Rat) ∧ -minimum ≤ k ∧ (∀ h ∈ s.upper, k ≤ h - 1 - maximum) ∧
      k.natAbs ≤ 4294967295 := by
  have normalS : s.Normal := rangeRead_normal normal readS
  rcases checkable with typed | ⟨whole, limited⟩
  · obtain ⟨k, value, fits⟩ := (rangeRead_normalInt32 normal typed readR).exists_int memberI
    obtain ⟨lower, upper⟩ := passes_between normalS memberN value passed
    exact ⟨k, value, lower, upper, fits.natAbs_le.trans (by decide)⟩
  · obtain ⟨k, value⟩ := isIntegral_iff.mp whole
    obtain ⟨lower, upper⟩ := passes_between normalS memberN value passed
    refine ⟨k, value, lower, upper, ?_⟩
    have above : k ≤ 4294967295 := by
      cases bound : s.upper with
      | none =>
        have below := limited s readS bound
        rw [lt_of_toRat? value rfl, decide_eq_true_iff] at below
        omega
      | some h =>
        have := upper h bound
        have := (hi_eq bound ▸ normalS.isInt32_hi : IsInt32 h).2
        have := high.1
        unfold int32Min int32Max at *
        omega
    have := low.2
    unfold int32Max at this
    omega

/-- A value with a range has the range of its opcode, confined to its type. -/
theorem rangeOf_of_opcodeRange (found : f.values[v]? = some value) (ranged : value.type.hasRange = true)
    (own : f.opcodeRange g value = .ok (some r)) : f.rangeOf g v = some <$> value.confine r := by
  rw [rangeOf, value_eq_ok.mpr found]
  show (if value.type.hasRange = true then _ else _) = _
  rw [if_pos ranged, own]
  rfl

/-- The range of a load from an array of integers, and when it holds the loaded number. -/
theorem load_in_range {l h : Int} (found : f.values[v]? = some value)
    (code : value.opcode = .loadTyped array index element) (limits : element.limits? = some (l, h))
    (typed : value.type = .int32 ∨ value.type = .double) (x : Number) :
    ∃ t, f.rangeOf g v = .ok (some t) ∧ (t.contains (element.load x) = true ↔
      (element = .uint32 → value.type = .int32 → (element.load x).leavesInt32 = false)) := by
  obtain ⟨k, loaded, lower, upper⟩ := ElementType.load_between limits x
  obtain ⟨low, -, -, high⟩ := ElementType.limits_fit limits
  obtain ⟨r, range, normal, member⟩ := ElementType.range_contains_load limits value.type x
  have ranged : value.type.hasRange = true := by
    rcases typed with type | type <;> rw [type] <;> rfl
  have own : f.opcodeRange g value = .ok (some r) := by
    rw [opcodeRange, code]
    exact congrArg (some <$> ·) range
  rw [rangeOf_of_opcodeRange found ranged own, leavesInt32_of_toRat? loaded, decide_eq_false_iff_not,
    not_not]
  rcases typed with type | type
  · obtain ⟨t, clipped, inside⟩ := clipToInt32_contains normal loaded member
    have confines : value.confine r = r.clipToInt32 := by
      rw [Value.confine, type, code]
      rfl
    refine ⟨t, by rw [confines, clipped]; rfl, ?_⟩
    rw [inside]
    constructor
    · exact fun fits _ _ => fits
    · intro fits
      -- Every other element type lies within int32, so clipping takes nothing away.
      by_cases unsigned : element = .uint32
      · exact fits unsigned type
      · exact ⟨low.trans lower, upper.trans (high unsigned)⟩
  · have confines : value.confine r = .ok r := by
      rw [Value.confine, type]
    refine ⟨r, by rw [confines]; rfl, iff_of_true member fun _ other => ?_⟩
    rw [type] at other
    cases other

/-- What memory instructions give is in their ranges, but for large elements. Let the ranges of a procedure
be normal, and let the machine compute a value from operands that belong to the ranges read of them.

* An index that passes a bounds check is in the range of the check, provided that it is checkable.
* A load from an array of integers has a range, and the loaded number is in it, except exactly where an
  element of 32 unsigned bits is beyond the int32 that it is read as. -/
theorem memory_result_in_range (normal : ∀ w r, f.range? w = some r → r.Normal)
    (found : f.values[v]? = some value)
    (run : Machine.compute args m v value.type value.opcode = .ok (m', slot)) :
    (∀ index length minimum maximum movable i n,
      value.opcode = .boundsCheck index length minimum maximum movable →
      IsInt32 minimum → IsInt32 maximum → m.number index = .ok i → m.number length = .ok n →
      f.Admits index i → f.Admits length n → f.IsCheckable index length i →
      slot = .number i ∧ ∃ t, f.opcodeRange g value = .ok (some t) ∧ t.contains i = true) ∧
    ∀ array index element, value.opcode = .loadTyped array index element →
      element ≠ .float32 → element ≠ .float64 → value.type = .int32 ∨ value.type = .double →
      ∃ y t, slot = .number y ∧ f.rangeOf g v = .ok (some t) ∧
        (t.contains y = true ↔
          (element = .uint32 → value.type = .int32 → y.leavesInt32 = false)) := by
  refine ⟨?_, ?_⟩
  · intro index length minimum maximum movable i n code low high readI readN admitsI admitsN checkable
    obtain ⟨r, readR, memberI⟩ := admitsI
    obtain ⟨s, readS, memberN⟩ := admitsN
    rw [code] at run
    obtain ⟨-, rfl, passed⟩ := (compute_boundsCheck readI readN).mp run
    obtain ⟨k, value', lower, upper, small⟩ :=
      checkable.exists_int normal readR readS memberI memberN low high passed
    obtain ⟨t, result, member⟩ :=
      ofBoundsCheck_contains (rangeRead_normal normal readR) memberI value' lower upper small
    refine ⟨rfl, t, ?_, member⟩
    rw [opcodeRange, code]
    dsimp only
    rw [readR, readS]
    exact congrArg (some <$> ·) result
  · intro array index element code single double typed
    rw [code] at run
    obtain ⟨⟨place, content, position⟩, -, run⟩ := bind_eq_ok.mp run
    obtain ⟨-, rfl⟩ := Prod.mk.inj (pure_eq_ok.mp run)
    obtain ⟨⟨l, h⟩, limits⟩ := ElementType.exists_limits single double
    obtain ⟨t, result, member⟩ := load_in_range found code limits typed (content.get position)
    exact ⟨_, t, rfl, result, member⟩

/-! ### Accesses at the limits -/

/-- One index that is checked against ten and, with the greatest offsets, against a length without an upper
bound; and a load of 32 unsigned bits that is read as an int32. -/
def limitAccesses : Procedure where
  name := "accesses"
  entry := 0
  blocks := #[⟨0, [], [0, 1, 2, 3, 4, 5, 6, 7], .exit (some 2), false⟩]
  values := #[
    ⟨0, .param 0, .double, some 0, none⟩,
    ⟨1, .const (.int 10), .int32, some 0, none⟩,
    ⟨2, .boundsCheck 0 1 0 0 true, .double, some 0, none⟩,
    ⟨3, .param 1, .double, some 0, none⟩,
    ⟨4, .boundsCheck 0 3 int32Min int32Max true, .double, some 0, none⟩,
    ⟨5, .param 2, .object, some 0, none⟩,
    ⟨6, .const (.int 0), .int32, some 0, none⟩,
    ⟨7, .loadTyped 5 6 .uint32, .int32, some 0, none⟩]
  unsupported := false
  reasons := []

/-- A state in which the index, the length and the one element of the array are given. -/
def limitMemory (i n x : Number) : Memory :=
  ⟨#[.number i, .number (.ofInt 10), .unset, .number n, .unset, .array 0, .number (.ofInt 0), .unset],
    #[(⟨1, ∅⟩ : ArrayObject).put 0 x]⟩

/-- The ranges of the example are normal. -/
theorem limitAccesses_normal (w : ValueId) (r : Range) (known : limitAccesses.range? w = some r) :
    r.Normal := by
  have clear : limitAccesses.clearRanges = limitAccesses := by decide +kernel
  exact clearRanges_normalRanges.normal w r (clear ▸ known)

/-- What the example loads. -/
theorem compute_load_limitMemory (i n : Number) {x y : Number} (loaded : ElementType.uint32.load x = y) :
    Machine.compute [] (limitMemory i n x) 7 .int32 (.loadTyped 5 6 .uint32) =
      .ok (limitMemory i n x, .number y) := by
  have content : ((⟨1, ∅⟩ : ArrayObject).put 0 x).get 0 = x := by
    simp [ArrayObject.get, ArrayObject.put]
  have found : (limitMemory i n x).arrayAt 5 = .ok (0, (⟨1, ∅⟩ : ArrayObject).put 0 x) := rfl
  rw [compute_loadTyped (p := 0) found rfl Nat.one_pos, content, loaded]

/-- Its operands are admitted. -/
theorem limitAccesses_admits (i n y : Number) (w : ValueId) (operand : w ∈ [0, 1, 3, 5, 6]) (x : Number)
    (read : (limitMemory i n y).number w = .ok x) : limitAccesses.Admits w x := by
  simp only [List.mem_cons, List.not_mem_nil, or_false] at operand
  rcases operand with rfl | rfl | rfl | rfl | rfl
  · exact ⟨_, rfl, unknown_contains x⟩
  · obtain rfl := Except.ok.inj read
    exact ⟨_, rfl, by decide +kernel⟩
  · exact ⟨_, rfl, unknown_contains x⟩
  · cases read
  · obtain rfl := Except.ok.inj read
    exact ⟨_, rfl, by decide +kernel⟩

/-- An index just below 2^32 passes the check with the greatest offsets and is in its range, and an element
of 32 unsigned bits that is an int32 is in the range of the load. -/
theorem limitAccesses_in_range : ∃ g, FlowGraph.build limitAccesses = .ok g ∧
    limitAccesses.IsCheckable 0 3 (.ofInt 4294967295) ∧
    (∃ t, limitAccesses.opcodeRange g limitAccesses.values[4] = .ok (some t) ∧
      t.contains (.ofInt 4294967295) = true) ∧
    ∃ t, limitAccesses.rangeOf g 7 = .ok (some t) ∧ t.contains (.ofInt 2147483647) = true := by
  obtain ⟨g, built⟩ : ∃ g, FlowGraph.build limitAccesses = .ok g := ⟨_, rfl⟩
  have checkable : limitAccesses.IsCheckable 0 3 (.ofInt 4294967295) :=
    .inr ⟨isIntegral_ofInt, fun _ _ _ => by decide +kernel⟩
  have admits := limitAccesses_admits (.ofInt 4294967295) (.ofInt 1099511627776) (.ofInt 0)
  have passed : Machine.compute []
      (limitMemory (.ofInt 4294967295) (.ofInt 1099511627776) (.ofInt 0)) 4 .double
      (.boundsCheck 0 3 int32Min int32Max true) = .ok (_, .number (.ofInt 4294967295)) :=
    (compute_boundsCheck rfl rfl).mpr ⟨rfl, rfl, by decide +kernel, by decide +kernel⟩
  refine ⟨g, built, checkable, ?_, ?_⟩
  · exact ((memory_result_in_range limitAccesses_normal (v := 4) rfl passed).1 0 3 int32Min int32Max true
      _ _ rfl (by decide) (by decide) rfl rfl (admits 0 (by decide) _ rfl) (admits 3 (by decide) _ rfl)
      checkable).2
  · have loaded : ElementType.uint32.load (.ofInt 2147483647) = .ofInt 2147483647 := by decide +kernel
    obtain ⟨y, t, same, range, iff⟩ := (memory_result_in_range limitAccesses_normal (v := 7) rfl
      (compute_load_limitMemory (.ofInt 0) (.ofInt 0) loaded)).2 5 6 .uint32 rfl nofun nofun (.inl rfl)
    obtain rfl := Slot.number.inj same
    exact ⟨t, range, iff.mpr fun _ _ => by decide +kernel⟩

/-- The machine computes a number for the value, from operands that belong to the ranges read of them, and
the number is not in the range of the value. -/
def Escapes (f : Procedure) (m : Memory) (v : ValueId) (y : Number) : Prop :=
  ∃ value t, f.values[v]? = some value ∧
    Machine.compute [] m v value.type value.opcode = .ok (m, .number y) ∧
    (∀ w ∈ value.opcode.operands, ∀ x, m.number w = .ok x → f.Admits w x) ∧
    (∀ g, f.rangeOf g v = .ok (some t)) ∧ t.contains y = false

/-- A procedure that is accepted passes an index with a fraction through a check against ten, an index of
2^32 through a check against a double, and loads an element of 32 unsigned bits as an int32; none of the
three results is in the range of its value. -/
theorem limitAccesses_escape : limitAccesses.verify = .ok (.ok ()) ∧
    limitAccesses.Escapes (limitMemory (.finite (1 / 2)) (.ofInt 0) (.ofInt 0)) 2 (.finite (1 / 2)) ∧
    limitAccesses.Escapes (limitMemory (.ofInt 4294967296) (.ofInt 1099511627776) (.ofInt 0)) 4
      (.ofInt 4294967296) ∧
    limitAccesses.Escapes (limitMemory (.ofInt 0) (.ofInt 0) (.ofInt (-1))) 7 (.ofInt 4294967295) := by
  refine ⟨by decide +kernel, ⟨_, ⟨some 0, some (int32Max - 1), false, 30, none, none⟩, rfl, ?_, ?_, ?_, ?_⟩,
    ⟨_, ⟨some int32Max, none, false, 31, none, none⟩, rfl, ?_, ?_, ?_, ?_⟩,
    ⟨_, ⟨some 0, some int32Max, false, 30, none, none⟩, rfl, ?_, ?_, ?_, ?_⟩⟩
  · exact (compute_boundsCheck rfl rfl).mpr ⟨rfl, rfl, by decide +kernel, by decide +kernel⟩
  · exact fun w operand => limitAccesses_admits _ _ _ w (by revert w; decide)
  · exact fun g => rfl
  · decide +kernel
  · exact (compute_boundsCheck rfl rfl).mpr ⟨rfl, rfl, by decide +kernel, by decide +kernel⟩
  · exact fun w operand => limitAccesses_admits _ _ _ w (by revert w; decide)
  · exact fun g => rfl
  · decide +kernel
  · exact compute_load_limitMemory _ _ (by decide +kernel)
  · exact fun w operand => limitAccesses_admits _ _ _ w (by revert w; decide)
  · exact fun g => rfl
  · decide +kernel

end Procedure

end Rangefinder
