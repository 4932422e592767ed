import Rangefinder.Proofs.Analysis.Passes
import Rangefinder.Proofs.Range.Closure
import Rangefinder.Proofs.Range.Order

/-!
# What a value reads

While the ranges found so far are normal, every operand that exists can be read, and what is read is
normal. The inputs of a phi that count are those that arrive from a block control may come from and
have a range already. Their ranges are joined one after another, and what comes out is the least range
that each of them is within. This determines it, so the order of the inputs does not matter, and an
input that arrives twice counts once.
-/

namespace Rangefinder

/-- Types have normal ranges. -/
theorem ValueType.range_normal (type : ValueType) : type.range.Normal := by
  cases type <;> decide

/-! ### The union of a family -/

namespace Range

variable {these those : Range → Prop} {r s u : Range} {found t t' : Option Range}

/-- A range is the least that each of some ranges is within. -/
structure IsLeast (these : Range → Prop) (u : Range) : Prop where
  normal : u.Normal
  numeric : u.IsNumeric
  above : ∀ r, these r → r.Within u
  least : ∀ v, (∀ r, these r → r.Within v) → u.Within v

/-- The union of some ranges; none where there are no ranges. -/
def IsUnion (these : Range → Prop) : Option Range → Prop
  | none => ∀ r, ¬these r
  | some u => (∃ r, these r) ∧ u.IsLeast these

/-- The least is unique. -/
theorem IsLeast.eq (h : r.IsLeast these) (h' : s.IsLeast these) : r = s :=
  (h.least s h'.above).eq (h'.least r h.above) h.numeric h'.numeric

/-- Ranges have one union. -/
theorem IsUnion.unique (h : IsUnion these t) (h' : IsUnion these t') : t = t' := by
  cases t with
  | none =>
    cases t' with
    | none => rfl
    | some _ => exact absurd h'.1 (not_exists.mpr h)
  | some _ =>
    cases t' with
    | none => exact absurd h.1 (not_exists.mpr h')
    | some _ => rw [h.2.eq h'.2]

/-- A union depends on which ranges there are and on nothing else. -/
theorem IsUnion.congr (same : ∀ r, these r ↔ those r) (h : IsUnion these t) : IsUnion those t := by
  rwa [← funext fun r => propext (same r)]

/-- Unions are normal. -/
theorem IsUnion.normal (h : IsUnion these t) : ∀ u ∈ t, u.Normal := by
  rintro u rfl
  exact h.2.normal

/-- The first range is the union of itself. -/
theorem IsUnion.start (h : IsUnion these none) (n : r.Normal) (numeric : r.IsNumeric) :
    IsUnion (fun s => these s ∨ s = r) (some r) := by
  refine ⟨⟨r, .inr rfl⟩, n, numeric, ?_, fun v above => above r (.inr rfl)⟩
  rintro s (own | rfl)
  · exact absurd own (h s)
  · exact .refl

/-- A further range is joined to the union of those before. -/
theorem IsUnion.join (h : IsUnion these (some s)) (n : r.Normal) :
    Yields (s.union r) fun u => IsUnion (fun t => these t ∨ t = r) (some u) := by
  obtain ⟨-, least⟩ := h
  refine (union_within least.normal n).of_run fun u run ⟨normal, left, right⟩ => ?_
  refine ⟨⟨r, .inr rfl⟩, normal, union_isNumeric run, ?_, fun v above => ?_⟩
  · rintro t (own | rfl)
    · exact (least.above t own).trans left
    · exact right
  · exact union_least run (least.least v fun t own => above t (.inl own)) (above r (.inr rfl))

end Range

open Range

/-! ### Operands -/

namespace Procedure

variable {f : Procedure} {g : FlowGraph}

section Reads

variable (normal : ∀ v r, f.range? v = some r → r.Normal) {v : ValueId}

include normal

/-- A value that exists can be read, and what is read is normal. -/
theorem rangeRead_yields (present : v < f.values.size) :
    Yields (f.rangeRead v) Normal := by
  refine (value_yields present).bind fun value found => ?_
  have known : ((value.range.map Range.numeric).getD value.type.range).Normal := by
    cases range : value.range with
    | none => exact value.type.range_normal
    | some r => exact (normal v r ((range?_of_value found).trans range)).numeric
  dsimp only
  split
  · exact (clipToInt32_yields known).mono fun _ clipped => clipped.1.toNormal
  · exact (wrapToBoolean_yields known).mono fun _ wrapped => wrapped.toNormal
  · exact .ok known

/-- Read ranges are normal. -/
theorem rangeRead_normal {r : Range} (reading : f.rangeRead v = .ok r) : r.Normal := by
  obtain ⟨value, found, -⟩ := bind_eq_ok.mp reading
  obtain ⟨present, -⟩ := Array.getElem?_eq_some_iff.mp (value_eq_ok.mp found)
  exact (rangeRead_yields normal present).of_eq reading

end Reads

/-! ### The inputs of a phi -/

section Phis

variable {inputs inputs' : List (ValueId × BlockId)} {input : ValueId × BlockId} {r s : Range}

/-- An input of a phi counts: control may come from its source, it has a range already, and `r` is what
is read from it. -/
structure Brings (f : Procedure) (g : FlowGraph) (input : ValueId × BlockId) (r : Range) : Prop where
  reachable : g.isReachable input.2 = true
  unmarked : f.isMarked input.2 = false
  known : (f.range? input.1).isSome = true
  reading : f.rangeRead input.1 = .ok r

/-- One range per input. -/
theorem Brings.eq (h : f.Brings g input r) (h' : f.Brings g input s) : s = r :=
  Except.ok.inj (h'.reading.symm.trans h.reading)

/-- A range arrives at a phi with one of its inputs. -/
def Arrives (f : Procedure) (g : FlowGraph) (inputs : List (ValueId × BlockId)) (r : Range) : Prop :=
  ∃ i ∈ inputs, f.Brings g i r

/-- What arrives with one more input. -/
theorem arrives_cons :
    f.Arrives g (input :: inputs) r ↔ f.Brings g input r ∨ f.Arrives g inputs r := by
  simp only [Arrives, List.exists_mem_cons_iff]

variable (normal : ∀ v r, f.range? v = some r → r.Normal)

include normal

/-- Joining the inputs of a phi to a union gives the union with the ranges that arrive. -/
theorem inputRange_join {these : Range → Prop} {found : Option Range}
    (exist : ∀ i ∈ inputs, i.1 < f.values.size) (start : IsUnion these found) :
    Yields (f.inputRange g inputs found) (IsUnion fun r => these r ∨ f.Arrives g inputs r) := by
  -- What is joined so far varies along the list: each input that counts adds what it brings.
  induction inputs generalizing found these with
  | nil => exact .ok (start.congr fun r => by simp [Arrives])
  | cons input rest ih =>
    rw [List.forall_mem_cons] at exist
    have skip : (∀ r, ¬f.Brings g input r) → Yields (f.inputRange g rest found)
        (IsUnion fun r => these r ∨ f.Arrives g (input :: rest) r) := fun idle =>
      (ih exist.2 start).mono fun t union => union.congr fun r => by
        rw [arrives_cons, or_iff_right (idle r)]
    rw [inputRange]
    split
    · next closed => exact skip fun r brings => by simp [brings.reachable, brings.unmarked] at closed
    · next live =>
      refine (value_yields exist.1).bind fun value present => ?_
      have ranged := range?_of_value present
      split
      · next waiting =>
        refine skip fun r brings => absurd brings.known ?_
        rw [ranged, Option.isNone_iff_eq_none.mp waiting]
        decide
      · next known =>
        obtain ⟨own, reading, n⟩ := rangeRead_yields normal exist.1
        have brings : f.Brings g input own := by
          simp only [Bool.or_eq_true, not_or, Bool.not_eq_true', Bool.not_eq_true, Bool.not_eq_false,
            Option.isNone_eq_false_iff] at live known
          exact ⟨live.1, live.2, ranged ▸ known, reading⟩
        have counted : ∀ {found'}, IsUnion (fun r => these r ∨ r = own) found' →
            Yields (f.inputRange g rest found')
              (IsUnion fun r => these r ∨ f.Arrives g (input :: rest) r) := fun joined =>
          (ih exist.2 joined).mono fun t union => union.congr fun r => by
            rw [arrives_cons, or_assoc]
            exact or_congr_right (or_congr_left ⟨fun same => same ▸ brings, brings.eq⟩)
        rw [reading]
        cases found with
        | none => exact counted (start.start n (rangeRead_isNumeric reading))
        | some s => exact (start.join n).bind fun u joined => counted joined

/-- The range of a phi is the union of the ranges that arrive at it. -/
theorem inputRange_isUnion (exist : ∀ i ∈ inputs, i.1 < f.values.size) :
    Yields (f.inputRange g inputs none) (IsUnion (f.Arrives g inputs)) := by
  have start : IsUnion (fun _ => False) none := fun _ => id
  exact (inputRange_join normal exist start).mono fun t union => union.congr fun r => false_or _ ▸ .rfl

/-- The union succeeds. -/
theorem inputRange_yields (exist : ∀ i ∈ inputs, i.1 < f.values.size) :
    Yields (f.inputRange g inputs none) fun t => ∀ r ∈ t, r.Normal :=
  (inputRange_isUnion normal exist).mono fun _ union => union.normal

/-- Inputs that differ in their order and number only have the same union. -/
theorem inputRange_congr (exist : ∀ i ∈ inputs, i.1 < f.values.size)
    (same : ∀ i, i ∈ inputs' ↔ i ∈ inputs) :
    Yields (f.inputRange g inputs none) fun joined => f.inputRange g inputs' none = .ok joined := by
  have exist' : ∀ i ∈ inputs', i.1 < f.values.size := fun i own => exist i ((same i).mp own)
  obtain ⟨joined, run, union⟩ := inputRange_isUnion (g := g) normal exist
  obtain ⟨joined', run', union'⟩ := inputRange_isUnion (g := g) normal exist'
  have arrivals : ∀ r, f.Arrives g inputs' r ↔ f.Arrives g inputs r := by
    simp only [Arrives, same, implies_true]
  exact ⟨joined, run, run'.trans (congrArg _ ((union'.congr arrivals).unique union))⟩

end Phis

end Procedure

/-! ### Unions as joins -/

/-- Unions of normal ranges are joins. A union is normal, holds every number that is in one of the two
ranges, and is least among the normal ranges that hold them, even if they hold only the doubles. Joining
is commutative, associative and idempotent, and the inputs of a phi may be joined in any order. -/
theorem union_isJoin {r s t : Range} (n : r.Normal) (m : s.Normal) (k : t.Normal) :
    (∃ u, r.union s = .ok u ∧ s.union r = .ok u ∧ u.Normal ∧
      (∀ a, r.contains a = true ∨ s.contains a = true → u.contains a = true) ∧
      ∀ v : Range, v.Normal →
        (∀ a : Number, a.IsDouble → r.contains a = true ∨ s.contains a = true →
          v.contains a = true) → u.Within v) ∧
    (∃ w, (r.union s >>= fun u => u.union t) = .ok w ∧ (s.union t >>= fun u => r.union u) = .ok w) ∧
    r.union r = .ok r.numeric ∧
    ∀ (f : Procedure) (g : FlowGraph) (inputs inputs' : List (ValueId × BlockId)),
      (∀ v r, f.range? v = some r → r.Normal) → (∀ i ∈ inputs, i.1 < f.values.size) →
      inputs.Perm inputs' →
      ∃ joined, f.inputRange g inputs none = .ok joined ∧ f.inputRange g inputs' none = .ok joined := by
  refine ⟨?_, union_assoc n m k, union_self n, ?_⟩
  · obtain ⟨u, run, normal, left, right⟩ := union_within n m
    refine ⟨u, run, union_comm s r ▸ run, normal, ?_, fun v o held => ?_⟩
    · rintro a (own | own)
      · exact left.contains normal.isExponent own
      · exact right.contains normal.isExponent own
    · exact union_least run (n.within_of_contains o fun a double own => held a double (.inl own))
        (m.within_of_contains o fun a double own => held a double (.inr own))
  · intro f g inputs inputs' normal exist perm
    exact Procedure.inputRange_congr normal exist fun i => perm.mem_iff.symm

/-- Two values that may meet in a phi, one from block 0 and one from block 1. -/
def meeting : Procedure where
  name := "meeting"
  entry := 0
  blocks := #[]
  values := #[⟨0, .param 0, .double, some 0, some .fromZeroOn⟩,
    ⟨1, .param 1, .double, some 1, some .sevenToThree⟩]
  unsupported := false
  reasons := []

/-- The union holds both, in either order. -/
theorem meeting_join :
    (∃ u, Range.fromZeroOn.union .sevenToThree = .ok u ∧ u.contains (.finite (1 / 2)) = true ∧
      u.contains .posInf = true ∧ u.contains (.ofInt (-7)) = true) ∧
    ∀ flow : FlowGraph, ∃ joined, meeting.inputRange flow [(0, 0), (1, 1)] none = .ok joined ∧
      meeting.inputRange flow [(1, 1), (0, 0)] none = .ok joined := by
  obtain ⟨⟨u, run, -, -, held, -⟩, -, -, phis⟩ := union_isJoin (r := .fromZeroOn)
    (s := .sevenToThree) (t := .unknown) (by decide) (by decide) (by decide)
  refine ⟨⟨u, run, held _ (.inl (by decide +kernel)), held _ (.inl (by decide +kernel)),
    held _ (.inr (by decide +kernel))⟩, fun flow => phis meeting flow _ _ ?_ (by decide) (by decide)⟩
  intro v r known
  match v with
  | 0 => exact Option.some.inj known ▸ (by decide : Range.fromZeroOn.Normal)
  | 1 => exact Option.some.inj known ▸ (by decide : Range.sevenToThree.Normal)
  | v + 2 => simp [Procedure.range?, meeting] at known

end Rangefinder
