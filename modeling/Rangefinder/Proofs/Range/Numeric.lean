import Rangefinder.Analysis.FixedPoint
import Rangefinder.Proofs.Outcome

/-!
# Ranges without symbolic bounds

Symbolic bounds enter a range in one place only, when a loop gives them to a phi of its header. All
arithmetic on ranges drops them or keeps those of its operand, and a value reads its operands
without them; so the ranges that a pass computes have none.
-/

namespace Rangefinder

namespace Range

variable {r s t : Range} {count : Int} {changed : Bool}

/-- The range has no symbolic bound. -/
def IsNumeric (r : Range) : Prop := r.symbolicLower = none ∧ r.symbolicUpper = none

/-- The range with the given symbolic bounds. -/
def withBounds (r : Range) (lower upper : Nat) : Range :=
  { r with symbolicLower := some lower, symbolicUpper := some upper }

/-- The range has the symbolic bound with the given number. -/
def Mentions (r : Range) (id : Nat) : Prop := r.symbolicLower = some id ∨ r.symbolicUpper = some id

/-- A numeric range mentions no symbolic bound. -/
theorem IsNumeric.not_mentions (h : r.IsNumeric) (id : Nat) : ¬r.Mentions id := by
  rintro (lower | upper)
  · rw [h.1] at lower
    cases lower
  · rw [h.2] at upper
    cases upper

/-- A range has no symbolic bound, or one with some number. -/
theorem isNumeric_or_mentions (r : Range) : r.IsNumeric ∨ ∃ id, r.Mentions id := by
  cases lower : r.symbolicLower with
  | some id => exact .inr ⟨id, .inl lower⟩
  | none =>
    cases upper : r.symbolicUpper with
    | some id => exact .inr ⟨id, .inr upper⟩
    | none => exact .inl ⟨lower, upper⟩

/-- It is its own numeric part. -/
theorem IsNumeric.numeric_eq (h : r.IsNumeric) : r.numeric = r := by
  obtain ⟨lower, upper⟩ := h
  cases r
  rw [numeric, Range.mk.injEq]
  exact ⟨rfl, rfl, rfl, rfl, lower.symm, upper.symm⟩

/-- The numeric part is numeric. -/
theorem numeric_isNumeric : r.numeric.IsNumeric := ⟨rfl, rfl⟩

/-- The range of all numbers is numeric. -/
theorem unknown_isNumeric : unknown.IsNumeric := ⟨rfl, rfl⟩

/-- A check keeps a range numeric. -/
theorem checked_isNumeric (h : r.checked = .ok s) (hr : r.IsNumeric) : s.IsNumeric :=
  (checked_eq_ok.mp h).2 ▸ hr

/-- Normalizing a range succeeds when it obeys the rules, and tightens it. -/
theorem normalize_eq_ok : r.normalize = .ok s ↔ r.WellFormed ∧ r.tighten = s := by
  rw [normalize, checked]
  split <;> simp_all [Except.map]

/-- So does tightening. -/
theorem tighten_isNumeric (hr : r.IsNumeric) : r.tighten.IsNumeric := by
  rw [tighten]
  split
  · exact hr
  · exact hr

/-- So does normalization. -/
theorem normalize_isNumeric (h : r.normalize = .ok s) (hr : r.IsNumeric) : s.IsNumeric :=
  (normalize_eq_ok.mp h).2 ▸ tighten_isNumeric hr

section Raw

variable {l h limit : Int} {bounded boundedAbove fractional : Bool} {e : Nat}

/-- An endpoint is a bound, or it is left out where it is the limit. -/
theorem boundOf_eq_ok {x : Option Int} : boundOf l bounded limit = .ok x ↔
    (bounded = true ∨ l = limit) ∧ (if bounded then some l else none) = x := by
  rw [boundOf]
  cases bounded with
  | true => simp
  | false =>
    by_cases same : l = limit
    · simp [same]
    · simp [same]

/-- A range is made of endpoints that are bounds, or limits where they are not. -/
theorem raw_eq (lower : bounded = true ∨ l = int32Min) (upper : boundedAbove = true ∨ h = int32Max) :
    raw l bounded h boundedAbove fractional e = normalize ⟨if bounded then some l else none,
      if boundedAbove then some h else none, fractional, e, none, none⟩ := by
  rw [raw, boundOf_eq_ok.mpr ⟨lower, rfl⟩, boundOf_eq_ok.mpr ⟨upper, rfl⟩, ok_bind, ok_bind]

/-- A range is made of endpoints exactly when each is a bound or the limit on its side, and the bounds among
them make one. -/
theorem raw_eq_ok : raw l bounded h boundedAbove fractional e = .ok s ↔
    (bounded = true ∨ l = int32Min) ∧ (boundedAbove = true ∨ h = int32Max) ∧
      normalize ⟨if bounded then some l else none, if boundedAbove then some h else none, fractional, e,
        none, none⟩ = .ok s := by
  constructor
  · intro run
    obtain ⟨x, below, run⟩ := bind_eq_ok.mp run
    obtain ⟨y, above, run⟩ := bind_eq_ok.mp run
    obtain ⟨lower, rfl⟩ := boundOf_eq_ok.mp below
    obtain ⟨upper, rfl⟩ := boundOf_eq_ok.mp above
    exact ⟨lower, upper, run⟩
  · rintro ⟨lower, upper, run⟩
    rwa [raw_eq lower upper]

/-- What is made of endpoints is made of those that are bounds. -/
theorem normalize_of_raw (run : raw l bounded h boundedAbove fractional e = .ok s) :
    normalize ⟨if bounded then some l else none, if boundedAbove then some h else none, fractional, e, none,
      none⟩ = .ok s :=
  (raw_eq_ok.mp run).2.2

/-- A range made of endpoints has no symbolic bounds. -/
theorem raw_isNumeric (run : raw l bounded h boundedAbove fractional e = .ok s) : s.IsNumeric :=
  normalize_isNumeric (normalize_of_raw run) ⟨rfl, rfl⟩

end Raw

/-- A range between integers is numeric. -/
theorem between_isNumeric {l h : Int} {fractional : Bool} {exponent : Nat}
    (run : between l h fractional exponent = .ok s) : s.IsNumeric :=
  normalize_isNumeric run ⟨rfl, rfl⟩

/-- The range of a number is numeric. -/
theorem ofNumber_isNumeric {x : Number} (h : ofNumber x = .ok s) : s.IsNumeric := by
  cases x with
  | nan => exact Except.ok.inj h ▸ unknown_isNumeric
  | posInf => exact between_isNumeric h
  | negInf => exact between_isNumeric h
  | negZero => exact between_isNumeric h
  | finite x => exact between_isNumeric h

/-- New int32 endpoints keep a range numeric. -/
theorem setInt32_isNumeric {l h : Int} (run : r.setInt32 l h = .ok s) (hr : r.IsNumeric) :
    s.IsNumeric :=
  checked_isNumeric run hr

/-- Taking over the numbers of another range keeps the symbolic bounds. -/
theorem update_symbolic (h : r.update s = .ok (t, changed)) :
    t.symbolicLower = r.symbolicLower ∧ t.symbolicUpper = r.symbolicUpper := by
  rw [update] at h
  split at h
  · obtain ⟨rfl, -⟩ := Prod.mk.inj (Except.ok.inj h)
    exact ⟨rfl, rfl⟩
  · obtain ⟨taken, taking, h⟩ := bind_eq_ok.mp h
    obtain ⟨rfl, -⟩ := Prod.mk.inj (pure_eq_ok.mp h)
    obtain ⟨-, rfl⟩ := checked_eq_ok.mp taking
    exact ⟨rfl, rfl⟩

/-- Taking over the numbers of another range changes a range unless they are its own. -/
theorem update_numeric (h : r.update s = .ok (t, changed)) :
    t.numeric = s.numeric ∧ (changed = true → s.numeric ≠ r.numeric) ∧
      (changed = false → t = r) := by
  rw [update] at h
  split at h
  · next same =>
    obtain ⟨rfl, rfl⟩ := Prod.mk.inj (Except.ok.inj h)
    exact ⟨beq_iff_eq.mp same, by simp, fun _ => rfl⟩
  · next other =>
    obtain ⟨taken, taking, h⟩ := bind_eq_ok.mp h
    obtain ⟨rfl, rfl⟩ := Prod.mk.inj (pure_eq_ok.mp h)
    obtain ⟨-, rfl⟩ := checked_eq_ok.mp taking
    exact ⟨rfl, fun _ same => other (beq_iff_eq.mpr same.symm), by simp⟩

/-- Unions are numeric. -/
theorem union_isNumeric (h : r.union s = .ok t) : t.IsNumeric := raw_isNumeric h

/-- Clipping keeps a range numeric. -/
theorem clipToInt32_isNumeric (h : r.clipToInt32 = .ok s) (hr : r.IsNumeric) : s.IsNumeric := by
  rw [clipToInt32] at h
  split at h
  · exact Except.ok.inj h ▸ hr
  · exact setInt32_isNumeric h hr

/-- Reduction to int32 keeps the symbolic bounds. -/
theorem wrapToInt32_symbolic (h : r.wrapToInt32 = .ok s) :
    s.symbolicLower = r.symbolicLower ∧ s.symbolicUpper = r.symbolicUpper := by
  rw [wrapToInt32] at h
  split at h
  · split at h
    · obtain ⟨-, rfl⟩ := normalize_eq_ok.mp h
      rw [tighten]
      split
      · exact ⟨rfl, rfl⟩
      · exact ⟨rfl, rfl⟩
    · exact Except.ok.inj h ▸ ⟨rfl, rfl⟩
  · obtain ⟨-, rfl⟩ := checked_eq_ok.mp h
    exact ⟨rfl, rfl⟩

/-- So does reduction modulo 2^32. -/
theorem wrapToInt32_isNumeric (h : r.wrapToInt32 = .ok s) (hr : r.IsNumeric) : s.IsNumeric := by
  obtain ⟨lower, upper⟩ := wrapToInt32_symbolic h
  exact ⟨lower.trans hr.1, upper.trans hr.2⟩

/-- So does reduction to truth values. -/
theorem wrapToBoolean_isNumeric (h : r.wrapToBoolean = .ok s) (hr : r.IsNumeric) :
    s.IsNumeric := by
  obtain ⟨wrapped, wrapping, h⟩ := bind_eq_ok.mp h
  have numeric := wrapToInt32_isNumeric wrapping hr
  split at h
  · exact pure_eq_ok.mp h ▸ numeric
  · exact setInt32_isNumeric h numeric

/-- Operands of bitwise operations are numeric. -/
theorem asInt32_isNumeric (h : r.asInt32 = .ok s) : s.IsNumeric :=
  wrapToInt32_isNumeric h numeric_isNumeric

/-- Intersections are numeric. -/
theorem intersect_isNumeric (h : r.intersect s = .ok (some t)) : t.IsNumeric := by
  have result : ∀ l u bounded boundedAbove fractional exponent,
      some <$> raw l bounded u boundedAbove fractional exponent = .ok (some t) → t.IsNumeric := by
    intro l u bounded boundedAbove fractional exponent run
    obtain ⟨found, made, same⟩ := map_eq_ok.mp run
    exact Option.some.inj same ▸ raw_isNumeric made
  simp only [intersect] at h
  split at h
  · split at h
    · obtain rfl := Option.some.inj (Except.ok.inj h)
      exact unknown_isNumeric
    · cases Except.ok.inj h
  · split at h
    · obtain rfl := Option.some.inj (Except.ok.inj h)
      exact unknown_isNumeric
    · split at h
      · obtain ⟨width, -, h⟩ := bind_eq_ok.mp h
        obtain ⟨lower, -, h⟩ := bind_eq_ok.mp h
        obtain ⟨upper, -, h⟩ := bind_eq_ok.mp h
        split at h
        · cases Except.ok.inj h
        · exact result _ _ _ _ _ _ h
      · exact result _ _ _ _ _ _ h

/-- Sums are numeric. -/
theorem add_isNumeric (h : r.add s = .ok t) : t.IsNumeric := by
  obtain ⟨lower, -, h⟩ := bind_eq_ok.mp h
  obtain ⟨upper, -, h⟩ := bind_eq_ok.mp h
  obtain ⟨exponent, -, h⟩ := bind_eq_ok.mp h
  exact between_isNumeric h

/-- Differences are numeric. -/
theorem sub_isNumeric (h : r.sub s = .ok t) : t.IsNumeric := by
  obtain ⟨lower, -, h⟩ := bind_eq_ok.mp h
  obtain ⟨upper, -, h⟩ := bind_eq_ok.mp h
  obtain ⟨exponent, -, h⟩ := bind_eq_ok.mp h
  exact between_isNumeric h

/-- Products are numeric. -/
theorem mul_isNumeric (h : r.mul s = .ok t) : t.IsNumeric := by
  obtain ⟨exponent, -, h⟩ := bind_eq_ok.mp h
  split at h
  · obtain ⟨bounds, -, h⟩ := bind_eq_ok.mp h
    exact between_isNumeric h
  · exact between_isNumeric h

/-- Quotients are numeric. -/
theorem div_isNumeric {integral : Bool} (h : r.div s integral = .ok t) : t.IsNumeric := by
  rw [div] at h
  split at h
  · obtain ⟨exponent, -, h⟩ := bind_eq_ok.mp h
    split at h
    · exact between_isNumeric h
    · split at h
      · obtain ⟨lower, -, h⟩ := bind_eq_ok.mp h
        obtain ⟨upper, -, h⟩ := bind_eq_ok.mp h
        exact between_isNumeric h
      · exact pure_eq_ok.mp h ▸ unknown_isNumeric
  · exact Except.ok.inj h ▸ unknown_isNumeric

/-- Remainders are numeric. -/
theorem mod_isNumeric (h : r.mod s = .ok t) : t.IsNumeric := by
  rw [mod] at h
  split at h
  · simp only [bind_eq_ok] at h
    obtain ⟨_, -, _, -, _, -, _, -, _, -, _, -, h⟩ := h
    exact between_isNumeric h
  · exact Except.ok.inj h ▸ unknown_isNumeric

/-- Magnitudes are numeric. -/
theorem abs_isNumeric (h : r.abs = .ok s) : s.IsNumeric := by
  obtain ⟨upper, -, h⟩ := bind_eq_ok.mp h
  obtain ⟨lower, -, h⟩ := bind_eq_ok.mp h
  exact raw_isNumeric h

/-- Rounded ranges are numeric. -/
theorem rounded_isNumeric (h : r.rounded = .ok s) : s.IsNumeric := by
  obtain ⟨exponent, -, h⟩ := bind_eq_ok.mp h
  exact checked_isNumeric h ⟨rfl, rfl⟩

/-- Minima are numeric. -/
theorem minimum_isNumeric (h : r.minimum s = .ok t) : t.IsNumeric := by
  rw [minimum] at h
  split at h
  · exact Except.ok.inj h ▸ unknown_isNumeric
  · exact raw_isNumeric h

/-- Maxima are numeric. -/
theorem maximum_isNumeric (h : r.maximum s = .ok t) : t.IsNumeric := by
  rw [maximum] at h
  split at h
  · exact Except.ok.inj h ▸ unknown_isNumeric
  · exact raw_isNumeric h

/-- Square roots are numeric. -/
theorem sqrt_isNumeric (h : r.sqrt = .ok s) : s.IsNumeric := by
  rw [sqrt] at h
  split at h
  · exact Except.ok.inj h ▸ unknown_isNumeric
  · exact between_isNumeric h

/-- Conjunctions are numeric. -/
theorem and_isNumeric (h : r.and s = .ok t) : t.IsNumeric := by
  obtain ⟨r', -, h⟩ := bind_eq_ok.mp h
  obtain ⟨s', -, h⟩ := bind_eq_ok.mp h
  split at h
  · exact between_isNumeric h
  · exact between_isNumeric h

/-- Disjunctions are numeric. -/
theorem or_isNumeric (h : r.or s = .ok t) : t.IsNumeric := by
  obtain ⟨r', left, h⟩ := bind_eq_ok.mp h
  obtain ⟨s', right, h⟩ := bind_eq_ok.mp h
  have hr := asInt32_isNumeric left
  have hs := asInt32_isNumeric right
  split at h
  · exact pure_eq_ok.mp h ▸ hs
  · split at h
    · exact pure_eq_ok.mp h ▸ hr
    · split at h
      · exact pure_eq_ok.mp h ▸ hr
      · split at h
        · exact pure_eq_ok.mp h ▸ hs
        · split at h
          · obtain ⟨mask, -, h⟩ := bind_eq_ok.mp h
            exact between_isNumeric h
          · obtain ⟨fromLeft, -, h⟩ := bind_eq_ok.mp h
            obtain ⟨fromRight, -, h⟩ := bind_eq_ok.mp h
            exact between_isNumeric h

/-- Exclusive disjunctions are numeric. -/
theorem xor_isNumeric (h : r.xor s = .ok t) : t.IsNumeric := by
  obtain ⟨r', -, h⟩ := bind_eq_ok.mp h
  obtain ⟨s', -, h⟩ := bind_eq_ok.mp h
  obtain ⟨bounds, -, h⟩ := bind_eq_ok.mp h
  dsimp only at h
  split at h
  · exact between_isNumeric h
  · exact between_isNumeric h

/-- Complements are numeric. -/
theorem not_isNumeric (h : r.not = .ok s) : s.IsNumeric := by
  obtain ⟨r', -, h⟩ := bind_eq_ok.mp h
  exact between_isNumeric h

/-- Left shifts by a constant are numeric. -/
theorem shiftLeftBy_isNumeric (h : r.shiftLeftBy count = .ok s) : s.IsNumeric := by
  obtain ⟨r', -, h⟩ := bind_eq_ok.mp h
  dsimp only at h
  split at h
  · exact between_isNumeric h
  · exact between_isNumeric h

/-- Right shifts by a constant are numeric. -/
theorem shiftRightBy_isNumeric (h : r.shiftRightBy count = .ok s) :
    s.IsNumeric := by
  obtain ⟨r', -, h⟩ := bind_eq_ok.mp h
  exact between_isNumeric h

/-- Unsigned shifts by a constant are numeric. -/
theorem shiftRightUnsignedBy_isNumeric (h : r.shiftRightUnsignedBy count = .ok s) :
    s.IsNumeric := by
  obtain ⟨r', -, h⟩ := bind_eq_ok.mp h
  dsimp only at h
  split at h
  · exact between_isNumeric h
  · exact between_isNumeric h

/-- Left shifts are numeric. -/
theorem shiftLeft_isNumeric (h : r.shiftLeft s = .ok t) : t.IsNumeric := by
  obtain ⟨count, -, h⟩ := bind_eq_ok.mp h
  split at h
  · exact shiftLeftBy_isNumeric h
  · exact between_isNumeric h

/-- Right shifts are numeric. -/
theorem shiftRight_isNumeric (h : r.shiftRight s = .ok t) : t.IsNumeric := by
  obtain ⟨r', -, h⟩ := bind_eq_ok.mp h
  obtain ⟨count, -, h⟩ := bind_eq_ok.mp h
  obtain ⟨left, -, h⟩ := bind_eq_ok.mp h
  obtain ⟨right, -, h⟩ := bind_eq_ok.mp h
  exact between_isNumeric h

/-- Unsigned shifts are numeric. -/
theorem shiftRightUnsigned_isNumeric (h : r.shiftRightUnsigned s = .ok t) : t.IsNumeric := by
  obtain ⟨count, -, h⟩ := bind_eq_ok.mp h
  split at h
  · exact shiftRightUnsignedBy_isNumeric h
  · obtain ⟨r', -, h⟩ := bind_eq_ok.mp h
    obtain ⟨places, -, h⟩ := bind_eq_ok.mp h
    exact between_isNumeric h

/-- Extension below zero keeps a range numeric. -/
theorem extendToNegative_isNumeric (h : r.extendToNegative = .ok s) (hr : r.IsNumeric) :
    s.IsNumeric := by
  rw [extendToNegative] at h
  split at h
  · cases h
  · exact checked_isNumeric h hr

/-- The range of a checked index is numeric. -/
theorem ofBoundsCheck_isNumeric {minimum maximum : Int}
    (h : ofBoundsCheck r s minimum maximum = .ok t) (hr : r.IsNumeric) : t.IsNumeric := by
  simp only [ofBoundsCheck] at h
  split at h
  · exact Except.ok.inj h ▸ hr
  · obtain ⟨passing, -, h⟩ := bind_eq_ok.mp h
    obtain ⟨met, meeting, h⟩ := bind_eq_ok.mp h
    obtain rfl := pure_eq_ok.mp h
    cases met with
    | none => exact hr
    | some met => exact intersect_isNumeric meeting

end Range

/-- The range of a type is numeric. -/
theorem ValueType.range_isNumeric (type : ValueType) : type.range.IsNumeric := by
  cases type <;> exact ⟨rfl, rfl⟩

/-- The range of array elements is numeric. -/
theorem ElementType.range_isNumeric {element : ElementType} {type : ValueType} {r : Range}
    (h : element.range type = .ok r) : r.IsNumeric := by
  cases element with
  | float32 => exact Except.ok.inj h ▸ type.range_isNumeric
  | float64 => exact Except.ok.inj h ▸ type.range_isNumeric
  | _ =>
    simp only [range, Range.int32, Range.uint32] at h
    exact Range.between_isNumeric h

/-- The range of a literal is numeric. -/
theorem Literal.range_isNumeric {literal : Literal} {r : Range} (h : literal.range = .ok r) :
    r.IsNumeric := by
  cases literal with
  | int n => exact Range.between_isNumeric h
  | double x => exact Range.ofNumber_isNumeric h
  | bool b =>
    rw [range] at h
    split at h
    · exact Range.between_isNumeric h
    · exact Range.between_isNumeric h

/-- Binary operations give numeric ranges. -/
theorem BinaryOp.range_isNumeric {op : BinaryOp} {l r s : Range} {type : ValueType}
    {shift : Option Int} (h : op.range l r type shift = .ok s) : s.IsNumeric := by
  cases op with
  | add => exact Range.add_isNumeric h
  | sub => exact Range.sub_isNumeric h
  | mul => exact Range.mul_isNumeric h
  | div => exact Range.div_isNumeric h
  | mod => exact Range.mod_isNumeric h
  | bitAnd => exact Range.and_isNumeric h
  | bitOr => exact Range.or_isNumeric h
  | bitXor => exact Range.xor_isNumeric h
  | shiftLeft =>
    cases shift with
    | some c => exact Range.shiftLeftBy_isNumeric h
    | none => exact Range.shiftLeft_isNumeric h
  | shiftRight =>
    cases shift with
    | some c => exact Range.shiftRightBy_isNumeric h
    | none => exact Range.shiftRight_isNumeric h
  | shiftRightUnsigned =>
    cases shift with
    | some c => exact Range.shiftRightUnsignedBy_isNumeric h
    | none => exact Range.shiftRightUnsigned_isNumeric h
  | minimum => exact Range.minimum_isNumeric h
  | maximum => exact Range.maximum_isNumeric h

/-- Unary operations keep a range numeric. -/
theorem UnaryOp.range_isNumeric {op : UnaryOp} {r s : Range} (h : op.range r = .ok s)
    (hr : r.IsNumeric) : s.IsNumeric := by
  cases op with
  | bitNot => exact Range.not_isNumeric h
  | abs => exact Range.abs_isNumeric h
  | floor => exact Range.rounded_isNumeric h
  | ceil => exact Range.rounded_isNumeric h
  | sqrt => exact Range.sqrt_isNumeric h
  | toInt32 => exact Range.wrapToInt32_isNumeric h hr
  | toDouble => exact Except.ok.inj h ▸ hr

/-- Confining a range to a type keeps it numeric. -/
theorem Value.confine_isNumeric {value : Value} {r s : Range} (h : value.confine r = .ok s)
    (hr : r.IsNumeric) : s.IsNumeric := by
  rw [confine] at h
  split at h
  · split at h
    · exact Except.ok.inj h ▸ hr
    · exact Range.clipToInt32_isNumeric h hr
  · exact Range.wrapToBoolean_isNumeric h hr
  · exact Except.ok.inj h ▸ hr

namespace Procedure

variable {f : Procedure} {g : FlowGraph} {r : Range} {v : ValueId}

/-- What is read off for an operand is numeric. -/
theorem rangeRead_isNumeric (h : f.rangeRead v = .ok r) :
    r.IsNumeric := by
  obtain ⟨value, -, h⟩ := bind_eq_ok.mp h
  have known : ((value.range.map Range.numeric).getD value.type.range).IsNumeric := by
    cases value.range with
    | none => exact ValueType.range_isNumeric _
    | some r => exact Range.numeric_isNumeric
  dsimp only at h
  split at h
  · exact Range.clipToInt32_isNumeric h known
  · exact Range.wrapToBoolean_isNumeric h known
  · exact pure_eq_ok.mp h ▸ known

/-- The union over the inputs of a phi is numeric. -/
theorem inputRange_isNumeric {inputs : List (ValueId × BlockId)} {found : Option Range}
    (start : ∀ s ∈ found, s.IsNumeric) (h : f.inputRange g inputs found = .ok (some r)) :
    r.IsNumeric := by
  induction inputs generalizing found with
  | nil => exact start r (Except.ok.inj h)
  | cons input rest ih =>
    rw [inputRange] at h
    split at h
    · exact ih start h
    · obtain ⟨value, -, h⟩ := bind_eq_ok.mp h
      split at h
      · exact ih start h
      · obtain ⟨own, reading, h⟩ := bind_eq_ok.mp h
        cases found with
        | none => exact ih (by simpa using rangeRead_isNumeric reading) h
        | some s =>
          obtain ⟨joined, joining, h⟩ := bind_eq_ok.mp h
          exact ih (by simpa using Range.union_isNumeric joining) h

/-- The range of a binary instruction is numeric. -/
theorem rangeOfBinary_isNumeric {type : ValueType} {op : BinaryOp} {lhs rhs : ValueId}
    {flags : ArithFlags} (h : f.rangeOfBinary type op lhs rhs flags = .ok r) :
    r.IsNumeric := by
  simp only [rangeOfBinary, bind_eq_ok] at h
  obtain ⟨_, -, _, -, _, -, result, computed, h⟩ := h
  have numeric := BinaryOp.range_isNumeric computed
  split at h
  · obtain ⟨extended, extending, h⟩ := bind_eq_ok.mp h
    have numeric' : extended.IsNumeric := by
      split at extending
      · exact Range.extendToNegative_isNumeric extending numeric
      · exact pure_eq_ok.mp extending ▸ numeric
    split at h
    · exact Range.wrapToInt32_isNumeric h numeric'
    · exact pure_eq_ok.mp h ▸ numeric'
  · exact pure_eq_ok.mp h ▸ numeric

/-- The range of an instruction is numeric. -/
theorem opcodeRange_isNumeric {value : Value} (h : f.opcodeRange g value = .ok (some r)) :
    r.IsNumeric := by
  rw [opcodeRange] at h
  split at h
  · obtain ⟨s, found, same⟩ := map_eq_ok.mp h
    exact Option.some.inj same ▸ Literal.range_isNumeric found
  · exact Option.some.inj (Except.ok.inj h) ▸ ValueType.range_isNumeric _
  · exact Option.some.inj (Except.ok.inj h) ▸ ValueType.range_isNumeric _
  · exact Option.some.inj (Except.ok.inj h) ▸ ValueType.range_isNumeric _
  · exact inputRange_isNumeric (by simp) h
  · obtain ⟨own, reading, h⟩ := bind_eq_ok.mp h
    obtain ⟨met, meeting, h⟩ := bind_eq_ok.mp h
    obtain rfl := Option.some.inj (pure_eq_ok.mp h)
    cases met with
    | none => exact rangeRead_isNumeric reading
    | some met => exact Range.intersect_isNumeric meeting
  · obtain ⟨s, found, same⟩ := map_eq_ok.mp h
    exact Option.some.inj same ▸ rangeOfBinary_isNumeric found
  · obtain ⟨own, reading, h⟩ := bind_eq_ok.mp h
    obtain ⟨s, found, h⟩ := bind_eq_ok.mp h
    exact Option.some.inj (pure_eq_ok.mp h) ▸
      UnaryOp.range_isNumeric found (rangeRead_isNumeric reading)
  · obtain ⟨s, found, same⟩ := map_eq_ok.mp h
    exact Option.some.inj same ▸ Range.between_isNumeric found
  · obtain ⟨s, found, same⟩ := map_eq_ok.mp h
    exact Option.some.inj same ▸ Range.between_isNumeric found
  · obtain ⟨s, found, same⟩ := map_eq_ok.mp h
    exact Option.some.inj same ▸ Range.between_isNumeric found
  · obtain ⟨s, found, same⟩ := map_eq_ok.mp h
    exact Option.some.inj same ▸ ElementType.range_isNumeric found
  · obtain ⟨i, reading, h⟩ := bind_eq_ok.mp h
    obtain ⟨n, -, h⟩ := bind_eq_ok.mp h
    obtain ⟨s, found, same⟩ := map_eq_ok.mp h
    exact Option.some.inj same ▸
      Range.ofBoundsCheck_isNumeric found (rangeRead_isNumeric reading)
  · cases Except.ok.inj h
  · cases Except.ok.inj h
  · cases Except.ok.inj h

/-- The range that a value has from its operands has no symbolic bound. -/
theorem rangeOf_isNumeric (h : f.rangeOf g v = .ok (some r)) :
    r.IsNumeric := by
  obtain ⟨value, -, h⟩ := bind_eq_ok.mp h
  split at h
  · obtain ⟨found, computed, h⟩ := bind_eq_ok.mp h
    cases found with
    | none => cases pure_eq_ok.mp h
    | some s =>
      obtain ⟨confined, confining, same⟩ := map_eq_ok.mp h
      exact Option.some.inj same ▸
        Value.confine_isNumeric confining (opcodeRange_isNumeric computed)
  · cases pure_eq_ok.mp h

end Procedure

end Rangefinder
