import Mathlib.Tactic.Linarith
import Mathlib.Tactic.Ring
import Rangefinder.Proofs.Linear.Sums

/-!
# Linear sums compute exactly

A sum is put together by calls of its operations. A `Combination` is the plan of such calls: it can
be carried out on sums, and it has an exact meaning in the integers. When all calls succeed, the sum
is in normal form and has the value that the plan means.

The coefficient that a plan gives to a value is how much its meaning grows with the value. The sum
grows by the same amount, and in normal form that amount is one of its scales. So a coefficient
that does not fit int32 cannot go unnoticed.
-/

namespace Rangefinder

namespace LinearSum

variable {sum result : LinearSum} {f : Procedure} {l : List LinearTerm}

/-- Adding a constant leaves a constant that fits int32. -/
theorem isInt32_addConstant {c : Int} (h : sum.addConstant c = some result) :
    IsInt32 result.constant := by
  obtain ⟨constant, checked, rfl⟩ := Option.map_eq_some_iff.mp h
  obtain ⟨fits, rfl⟩ := checkInt32_eq_some.mp checked
  exact fits

/-- Adding a term leaves a constant that fits int32. -/
theorem isInt32_addTerm {term : ValueId} {scale : Int} (fits : IsInt32 sum.constant)
    (h : sum.addTerm f term scale = .ok (some result)) : IsInt32 result.constant := by
  rw [addTerm] at h
  split at h
  · exact Option.some.inj (Except.ok.inj h) ▸ fits
  · obtain ⟨found, -, h⟩ := bind_eq_ok.mp h
    cases found with
    | some c =>
      obtain ⟨product, -, added⟩ := Option.bind_eq_some_iff.mp (pure_eq_ok.mp h)
      exact isInt32_addConstant added
    | none =>
      have added := pure_eq_ok.mp h
      rw [addScaled] at added
      split at added
      · exact Option.some.inj added ▸ fits
      · obtain ⟨terms, -, rfl⟩ := Option.map_eq_some_iff.mp added
        exact fits

/-- Values that are not terms do not count. -/
theorem evalTerms_update {v : ValueId} (fresh : ∀ t ∈ l, t.term ≠ v) (val : ValueId → Int) (x : Int) :
    evalTerms (Function.update val v x) l = evalTerms val l := by
  induction l with
  | nil => rfl
  | cons t rest ih =>
    rw [List.forall_mem_cons] at fresh
    rw [evalTerms, evalTerms, ih fresh.2, Function.update_of_ne fresh.1]

/-- Terms in normal form grow with a value by an amount that fits int32. -/
theorem IsNormal.growth (normal : IsNormal l) (v : ValueId) :
    ∃ k, IsInt32 k ∧ ∀ val,
      evalTerms (Function.update val v (val v + 1)) l = evalTerms val l + k := by
  induction l with
  | nil => exact ⟨0, by decide, fun val => rfl⟩
  | cons t rest ih =>
    obtain ⟨fresh, ⟨fits, -⟩, others⟩ := isNormal_cons.mp normal
    by_cases own : t.term = v
    · subst own
      refine ⟨t.scale, fits, fun val => ?_⟩
      rw [evalTerms, evalTerms, evalTerms_update fresh, Function.update_self]
      ring
    · obtain ⟨k, small, grows⟩ := ih others
      refine ⟨k, small, fun val => ?_⟩
      rw [evalTerms, evalTerms, grows, Function.update_of_ne own, add_assoc]

end LinearSum

/-- An integer that fits int32. -/
abbrev Int32Value := { n : Int // IsInt32 n }

/-- A plan of calls that puts a linear sum together. -/
inductive Combination
  | constant (c : Int32Value)
  | addTerm (sum : Combination) (term : ValueId) (scale : Int32Value)
  | addConstant (sum : Combination) (c : Int32Value)
  | addSum (sum : Combination) (scale : Int32Value) (other : Combination)
  | multiply (sum : Combination) (scale : Int32Value)

namespace Combination

/-- Carries out the calls, up to the first one that reports an overflow. -/
def run (f : Procedure) : Combination → Except Fault (Option LinearSum)
  | constant c => return some (.ofConstant c)
  | addTerm sum term scale => do
    let some s ← sum.run f | return none
    s.addTerm f term scale
  | addConstant sum c => do
    let some s ← sum.run f | return none
    return s.addConstant c
  | addSum sum scale other => do
    let some s ← sum.run f | return none
    let some o ← other.run f | return none
    return s.addSum scale o
  | multiply sum scale => do
    let some s ← sum.run f | return none
    return s.multiply scale

/-- What the calls mean when nothing overflows. -/
def meaning (val : ValueId → Int) : Combination → Int
  | constant c => c
  | addTerm sum term scale => sum.meaning val + scale * val term
  | addConstant sum c => sum.meaning val + c
  | addSum sum scale other => sum.meaning val + scale * other.meaning val
  | multiply sum scale => sum.meaning val * scale

/-- The exact coefficient that the calls give to a value. -/
def coefficient (v : ValueId) : Combination → Int
  | constant _ => 0
  | addTerm sum term scale => sum.coefficient v + if term = v then (scale : Int) else 0
  | addConstant sum _ => sum.coefficient v
  | addSum sum scale other => sum.coefficient v + scale * other.coefficient v
  | multiply sum scale => sum.coefficient v * scale

variable {f : Procedure} {plan : Combination} {sum : LinearSum} {val : ValueId → Int}

/-- A call on a sum succeeds only on a sum that was put together. -/
theorem bind_some_eq_ok {x : Except Fault (Option LinearSum)}
    {next : LinearSum → Except Fault (Option LinearSum)} :
    (do let some s ← x | return none
        next s) = .ok (some sum) ↔ ∃ s, x = .ok (some s) ∧ next s = .ok (some sum) := by
  rw [bind_eq_ok]
  constructor
  · rintro ⟨_ | s, first, rest⟩
    · cases pure_eq_ok.mp rest
    · exact ⟨s, first, rest⟩
  · rintro ⟨s, first, rest⟩
    exact ⟨some s, first, rest⟩

/-- The sum is in normal form, its constant fits int32, and it has the value that the calls mean. -/
theorem run_spec (h : plan.run f = .ok (some sum)) :
    sum.Normal ∧ IsInt32 sum.constant ∧
      ∀ val, LinearSum.RespectsConstants f val → sum.eval val = plan.meaning val := by
  induction plan generalizing sum with
  | constant c =>
    obtain rfl := Option.some.inj (pure_eq_ok.mp h)
    exact ⟨LinearSum.isNormal_nil, c.2, fun val _ => Int.zero_add _⟩
  | addTerm start term scale ih =>
    obtain ⟨s, first, added⟩ := bind_some_eq_ok.mp h
    obtain ⟨normal, fits, value⟩ := ih first
    refine ⟨normal.addTerm scale.2 added, LinearSum.isInt32_addTerm fits added, fun val respects => ?_⟩
    rw [LinearSum.eval_addTerm respects added, value val respects, meaning]
  | addConstant start c ih =>
    obtain ⟨s, first, added⟩ := bind_some_eq_ok.mp h
    obtain ⟨normal, -, value⟩ := ih first
    have added := pure_eq_ok.mp added
    refine ⟨normal.addConstant added, LinearSum.isInt32_addConstant added, fun val respects => ?_⟩
    rw [LinearSum.eval_addConstant added, value val respects, meaning]
  | addSum start scale other ih ihOther =>
    obtain ⟨s, first, h⟩ := bind_some_eq_ok.mp h
    obtain ⟨o, second, added⟩ := bind_some_eq_ok.mp h
    obtain ⟨normal, fits, value⟩ := ih first
    obtain ⟨-, -, valueOther⟩ := ihOther second
    have added := pure_eq_ok.mp added
    refine ⟨normal.addSum added, ?_, fun val respects => ?_⟩
    · obtain ⟨_, -, h⟩ := Option.bind_eq_some_iff.mp added
      obtain ⟨_, -, last⟩ := Option.bind_eq_some_iff.mp h
      exact LinearSum.isInt32_addConstant last
    · rw [LinearSum.eval_addSum added, value val respects, valueOther val respects, meaning]
  | multiply start scale ih =>
    obtain ⟨s, first, scaled⟩ := bind_some_eq_ok.mp h
    obtain ⟨normal, -, value⟩ := ih first
    have scaled := pure_eq_ok.mp scaled
    refine ⟨normal.multiply scaled, ?_, fun val respects => ?_⟩
    · obtain ⟨_, -, h⟩ := Option.bind_eq_some_iff.mp scaled
      obtain ⟨c, checked, h⟩ := Option.bind_eq_some_iff.mp h
      obtain rfl := Option.some.inj h
      obtain ⟨fits, rfl⟩ := checkInt32_eq_some.mp checked
      exact fits
    · rw [LinearSum.eval_multiply scaled, value val respects, meaning]

/-- The meaning grows with a value by the coefficient of the value. -/
theorem meaning_update (plan : Combination) (val : ValueId → Int) (v : ValueId) :
    plan.meaning (Function.update val v (val v + 1)) = plan.meaning val + plan.coefficient v := by
  induction plan with
  | constant c => simp [meaning, coefficient]
  | addTerm sum term scale ih =>
    by_cases own : term = v
    · subst own
      simp only [meaning, coefficient, ih, Function.update_self, if_true]
      ring
    · simp only [meaning, coefficient, ih, Function.update_of_ne own, own, if_false]
      ring
  | addConstant sum c ih =>
    simp only [meaning, coefficient, ih]
    ring
  | addSum sum scale other ih ihOther =>
    simp only [meaning, coefficient, ih, ihOther]
    ring
  | multiply sum scale ih =>
    simp only [meaning, coefficient, ih]
    ring

/-- There are values that respect the integer constants of a procedure. -/
theorem exists_respectsConstants (f : Procedure) : ∃ val, LinearSum.RespectsConstants f val := by
  refine ⟨fun v => Classical.epsilon fun c => f.opcode? v = some (.const (.int c)), fun v c code => ?_⟩
  have chosen := Classical.epsilon_spec (p := fun c => f.opcode? v = some (.const (.int c))) ⟨c, code⟩
  exact Literal.int.inj (Opcode.const.inj (Option.some.inj (chosen.symm.trans code)))

/-- When all calls that put a sum together succeed, the terms of the sum are of different values with
int32 scales other than zero, and the sum has the value that the calls mean, whatever integers the
values are as long as constants are themselves. So all coefficients of values that are no constants
fit int32: a coefficient that leaves int32 is reported. -/
theorem run_exact (f : Procedure) (plan : Combination) (sum : LinearSum)
    (h : plan.run f = .ok (some sum)) :
    (sum.terms.map LinearTerm.term).Nodup ∧
      (∀ t ∈ sum.terms, IsInt32 t.scale ∧ t.scale ≠ 0) ∧ IsInt32 sum.constant ∧
      (∀ val, LinearSum.RespectsConstants f val → sum.eval val = plan.meaning val) ∧
      ∀ v, (∀ c, f.opcode? v ≠ some (.const (.int c))) → IsInt32 (plan.coefficient v) := by
  obtain ⟨normal, fits, value⟩ := run_spec h
  refine ⟨normal.distinct, normal.scales, fits, value, fun v noConstant => ?_⟩
  obtain ⟨val, respects⟩ := exists_respectsConstants f
  have respects' : LinearSum.RespectsConstants f (Function.update val v (val v + 1)) := by
    intro w c code
    rw [Function.update_of_ne, respects w c code]
    rintro rfl
    exact noConstant c code
  obtain ⟨k, small, grows⟩ := normal.growth v
  have same : plan.coefficient v = k := by
    have before := value val respects
    have after := value _ respects'
    rw [meaning_update, LinearSum.eval, grows] at after
    rw [LinearSum.eval] at before
    omega
  exact same ▸ small

/-- A procedure with two parameters and the constant seven. -/
def seven : Procedure where
  name := "seven"
  entry := 0
  blocks := #[⟨0, [], [0, 1, 2], .exit (some 0), false⟩]
  values := #[⟨0, .param 0, .int32, some 0, none⟩, ⟨1, .param 1, .int32, some 0, none⟩,
    ⟨2, .const (.int 7), .int32, some 0, none⟩]
  unsupported := false
  reasons := []

/-- Takes from three times the first parameter and two times seven as much of the first parameter,
four times the second one and five, and multiplies what is left by minus two. -/
def cancelled : Combination :=
  .multiply (.addSum (.addTerm (.addTerm (.constant ⟨0, by decide⟩) 0 ⟨3, by decide⟩) 2 ⟨2, by decide⟩)
    ⟨-1, by decide⟩ (.addTerm (.addTerm (.constant ⟨5, by decide⟩) 0 ⟨3, by decide⟩) 1 ⟨4, by decide⟩))
    ⟨-2, by decide⟩

/-- Of these calls one term is left, the constants are folded, and the value is as meant. -/
theorem cancelled_exact :
    cancelled.run seven = .ok (some ⟨[⟨1, 8⟩], -18⟩) ∧ IsInt32 (cancelled.coefficient 0) ∧
      ∀ val, LinearSum.RespectsConstants seven val →
        LinearSum.eval val ⟨[⟨1, 8⟩], -18⟩ = cancelled.meaning val := by
  have run : cancelled.run seven = .ok (some ⟨[⟨1, 8⟩], -18⟩) := by decide +kernel
  obtain ⟨-, -, -, value, coefficients⟩ := run_exact seven cancelled _ run
  refine ⟨run, coefficients 0 fun c code => ?_, value⟩
  have param : seven.opcode? 0 = some (.param 0) := by decide
  rw [param] at code
  cases code

end Combination

end Rangefinder
