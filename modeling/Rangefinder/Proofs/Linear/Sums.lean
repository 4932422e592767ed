import Rangefinder.Proofs.Procedure.WellFormed
import Rangefinder.Linear.Sum

/-!
# The value of a linear sum

A linear sum has a value once its terms have values. Every operation on sums that does not overflow
computes on these values what its name says, and brings in no terms besides those it is given.
-/

namespace Rangefinder.LinearSum

variable {sum other result : LinearSum} {f : Procedure} {val : ValueId → Int}

/-- The value of scaled terms. -/
def evalTerms (val : ValueId → Int) : List LinearTerm → Int
  | [] => 0
  | t :: rest => t.scale * val t.term + evalTerms val rest

/-- The value of a sum. -/
def eval (val : ValueId → Int) (sum : LinearSum) : Int := evalTerms val sum.terms + sum.constant

/-- All terms of the sum have a property. -/
def TermsSatisfy (sum : LinearSum) (holds : ValueId → Prop) : Prop := ∀ t ∈ sum.terms, holds t.term

variable {holds : ValueId → Prop} {scale : Int} {term : ValueId} {l l' : List LinearTerm} {c : Int}
  {t : LinearTerm}

/-- Merging a term adds it. -/
theorem evalTerms_mergeTerm (val : ValueId → Int) (h : mergeTerm term scale l = some l') :
    evalTerms val l' = evalTerms val l + scale * val term := by
  induction l generalizing l' with
  | nil =>
    obtain rfl := Option.some.inj h
    simp [evalTerms]
  | cons t rest ih =>
    rw [mergeTerm] at h
    split at h
    · next own =>
      obtain ⟨s, checked, rfl⟩ := Option.map_eq_some_iff.mp h
      obtain ⟨-, rfl⟩ := checkInt32_eq_some.mp checked
      subst own
      have split_scale := Int.add_mul t.scale scale (val t.term)
      split
      · next cancels =>
        rw [cancels, Int.zero_mul] at split_scale
        rw [evalTerms]
        omega
      · simp only [evalTerms, split_scale]
        omega
    · obtain ⟨merged, merging, rfl⟩ := Option.map_eq_some_iff.mp h
      rw [evalTerms, evalTerms, ih merging]
      omega

/-- Merging brings one term in. -/
theorem mem_mergeTerm (h : mergeTerm term scale l = some l') (ht : t ∈ l') :
    t.term = term ∨ t ∈ l := by
  induction l generalizing l' with
  | nil =>
    obtain rfl := Option.some.inj h
    exact .inl (List.mem_singleton.mp ht ▸ rfl)
  | cons u rest ih =>
    rw [mergeTerm] at h
    split at h
    · obtain ⟨s, -, rfl⟩ := Option.map_eq_some_iff.mp h
      split at ht
      · exact .inr (List.mem_cons_of_mem _ ht)
      · rcases List.mem_cons.mp ht with rfl | ht
        · exact .inl rfl
        · exact .inr (List.mem_cons_of_mem _ ht)
    · obtain ⟨merged, merging, rfl⟩ := Option.map_eq_some_iff.mp h
      rcases List.mem_cons.mp ht with rfl | ht
      · exact .inr List.mem_cons_self
      · exact (ih merging ht).imp_right (List.mem_cons_of_mem _)

/-- A scaled term is added. -/
theorem eval_addScaled (h : sum.addScaled term scale = some result) :
    result.eval val = sum.eval val + scale * val term := by
  rw [addScaled] at h
  split at h
  · next zero =>
    obtain rfl := Option.some.inj h
    rw [zero, Int.zero_mul, Int.add_zero]
  · obtain ⟨terms, merged, rfl⟩ := Option.map_eq_some_iff.mp h
    simp only [eval, evalTerms_mergeTerm val merged]
    omega

/-- It is the only new term. -/
theorem TermsSatisfy.addScaled (terms : sum.TermsSatisfy holds) (own : holds term)
    (h : sum.addScaled term scale = some result) :
    result.TermsSatisfy holds := by
  rw [LinearSum.addScaled] at h
  split at h
  · exact Option.some.inj h ▸ terms
  · obtain ⟨merged, merging, rfl⟩ := Option.map_eq_some_iff.mp h
    intro t ht
    rcases mem_mergeTerm merging ht with new | old
    · exact new ▸ own
    · exact terms t old

/-- A constant is added. -/
theorem eval_addConstant (h : sum.addConstant c = some result) :
    result.eval val = sum.eval val + c := by
  obtain ⟨constant, checked, rfl⟩ := Option.map_eq_some_iff.mp h
  obtain ⟨-, rfl⟩ := checkInt32_eq_some.mp checked
  simp only [eval]
  omega

/-- It is no term. -/
theorem TermsSatisfy.addConstant (terms : sum.TermsSatisfy holds) (h : sum.addConstant c = some result) :
    result.TermsSatisfy holds := by
  obtain ⟨constant, -, rfl⟩ := Option.map_eq_some_iff.mp h
  exact terms

/-- The values respect the integer constants of the procedure. -/
def RespectsConstants (f : Procedure) (val : ValueId → Int) : Prop :=
  ∀ v c, f.opcode? v = some (.const (.int c)) → val v = c

/-- The integer that a value is found to be. -/
theorem constInt?_eq_some {v : ValueId} (h : f.constInt? v = .ok (some c)) :
    f.opcode? v = some (.const (.int c)) := by
  obtain ⟨o, op, h⟩ := bind_eq_ok.mp h
  rw [Procedure.opcode_eq_ok] at op
  split at h
  · exact Option.some.inj (pure_eq_ok.mp h) ▸ op
  · cases pure_eq_ok.mp h

/-- A value is added, also if it is constant. -/
theorem eval_addTerm (respects : RespectsConstants f val)
    (h : sum.addTerm f term scale = .ok (some result)) :
    result.eval val = sum.eval val + scale * val term := by
  rw [addTerm] at h
  split at h
  · next zero =>
    obtain rfl := Option.some.inj (Except.ok.inj h)
    rw [zero, Int.zero_mul, Int.add_zero]
  · obtain ⟨found, reading, h⟩ := bind_eq_ok.mp h
    cases found with
    | some c =>
      obtain ⟨product, checked, added⟩ := Option.bind_eq_some_iff.mp (pure_eq_ok.mp h)
      obtain ⟨-, rfl⟩ := checkInt32_eq_some.mp checked
      rw [eval_addConstant added, respects term c (constInt?_eq_some reading), Int.mul_comm]
    | none => exact eval_addScaled (pure_eq_ok.mp h)

/-- It is the only new term. -/
theorem TermsSatisfy.addTerm (terms : sum.TermsSatisfy holds) (own : holds term)
    (h : sum.addTerm f term scale = .ok (some result)) :
    result.TermsSatisfy holds := by
  rw [LinearSum.addTerm] at h
  split at h
  · exact Option.some.inj (Except.ok.inj h) ▸ terms
  · obtain ⟨found, -, h⟩ := bind_eq_ok.mp h
    cases found with
    | some c =>
      obtain ⟨product, -, added⟩ := Option.bind_eq_some_iff.mp (pure_eq_ok.mp h)
      exact terms.addConstant added
    | none => exact terms.addScaled own (pure_eq_ok.mp h)

/-- Scaled terms are added. -/
theorem eval_addTerms (h : addTerms scale l sum = some result) :
    result.eval val = sum.eval val + scale * evalTerms val l := by
  induction l generalizing sum with
  | nil =>
    obtain rfl := Option.some.inj h
    rw [evalTerms, Int.mul_zero, Int.add_zero]
  | cons t rest ih =>
    obtain ⟨s, checked, h⟩ := Option.bind_eq_some_iff.mp h
    obtain ⟨-, rfl⟩ := checkInt32_eq_some.mp checked
    obtain ⟨next, added, rest⟩ := Option.bind_eq_some_iff.mp h
    rw [ih rest, eval_addScaled added, evalTerms, Int.mul_add, Int.mul_assoc]
    omega

/-- No other terms come in. -/
theorem TermsSatisfy.addTerms (terms : sum.TermsSatisfy holds) (others : ∀ t ∈ l, holds t.term)
    (h : addTerms scale l sum = some result) :
    result.TermsSatisfy holds := by
  induction l generalizing sum with
  | nil => exact Option.some.inj h ▸ terms
  | cons t rest ih =>
    obtain ⟨s, -, h⟩ := Option.bind_eq_some_iff.mp h
    obtain ⟨next, added, h⟩ := Option.bind_eq_some_iff.mp h
    rw [List.forall_mem_cons] at others
    exact ih (terms.addScaled others.1 added) others.2 h

/-- A scaled sum is added. -/
theorem eval_addSum (h : sum.addSum scale other = some result) :
    result.eval val = sum.eval val + scale * other.eval val := by
  obtain ⟨next, added, h⟩ := Option.bind_eq_some_iff.mp h
  obtain ⟨c, checked, h⟩ := Option.bind_eq_some_iff.mp h
  obtain ⟨-, rfl⟩ := checkInt32_eq_some.mp checked
  rw [eval_addConstant h, eval_addTerms added]
  simp only [eval, Int.mul_add]
  omega

/-- No other terms come in. -/
theorem TermsSatisfy.addSum (terms : sum.TermsSatisfy holds) (others : other.TermsSatisfy holds)
    (h : sum.addSum scale other = some result) :
    result.TermsSatisfy holds := by
  obtain ⟨next, added, h⟩ := Option.bind_eq_some_iff.mp h
  obtain ⟨c, -, h⟩ := Option.bind_eq_some_iff.mp h
  exact (terms.addTerms others added).addConstant h

/-- Scaling terms one by one scales their value. -/
theorem evalTerms_mapM (val : ValueId → Int)
    (h : (l.mapM fun t => (checkInt32 (t.scale * scale)).map fun s => { t with scale := s }) =
      some l') : evalTerms val l' = evalTerms val l * scale := by
  induction l generalizing l' with
  | nil =>
    obtain rfl : [] = l' := by simpa using h
    simp [evalTerms]
  | cons t rest ih =>
    rw [List.mapM_cons] at h
    obtain ⟨own, scaled, h⟩ := Option.bind_eq_some_iff.mp h
    obtain ⟨others, scaling, h⟩ := Option.bind_eq_some_iff.mp h
    obtain rfl := Option.some.inj h
    obtain ⟨s, checked, rfl⟩ := Option.map_eq_some_iff.mp scaled
    obtain ⟨-, rfl⟩ := checkInt32_eq_some.mp checked
    simp only [evalTerms, ih scaling, Int.add_mul, Int.mul_right_comm]

/-- Scaling keeps the terms. -/
theorem mem_mapM_scale
    (h : (l.mapM fun t => (checkInt32 (t.scale * scale)).map fun s => { t with scale := s }) =
      some l') {t : LinearTerm} (ht : t ∈ l') : ∃ u ∈ l, t.term = u.term := by
  induction l generalizing l' with
  | nil =>
    obtain rfl : [] = l' := by simpa using h
    cases ht
  | cons u rest ih =>
    rw [List.mapM_cons] at h
    obtain ⟨own, scaled, h⟩ := Option.bind_eq_some_iff.mp h
    obtain ⟨others, scaling, h⟩ := Option.bind_eq_some_iff.mp h
    obtain rfl := Option.some.inj h
    obtain ⟨s, -, rfl⟩ := Option.map_eq_some_iff.mp scaled
    rcases List.mem_cons.mp ht with rfl | ht
    · exact ⟨u, List.mem_cons_self, rfl⟩
    · obtain ⟨w, hw, same⟩ := ih scaling ht
      exact ⟨w, List.mem_cons_of_mem _ hw, same⟩

/-- A product has the product as its value. -/
theorem eval_multiply (h : sum.multiply scale = some result) :
    result.eval val = sum.eval val * scale := by
  obtain ⟨terms, scaled, h⟩ := Option.bind_eq_some_iff.mp h
  obtain ⟨c, checked, h⟩ := Option.bind_eq_some_iff.mp h
  obtain ⟨-, rfl⟩ := checkInt32_eq_some.mp checked
  obtain rfl := Option.some.inj h
  simp only [eval]
  split
  · next zero => simp [zero, evalTerms]
  · rw [evalTerms_mapM val scaled, Int.add_mul]

/-- It has the same terms. -/
theorem TermsSatisfy.multiply (terms : sum.TermsSatisfy holds) (h : sum.multiply scale = some result) :
    result.TermsSatisfy holds := by
  obtain ⟨scaled, scaling, h⟩ := Option.bind_eq_some_iff.mp h
  obtain ⟨c, -, h⟩ := Option.bind_eq_some_iff.mp h
  obtain rfl := Option.some.inj h
  intro t ht
  dsimp only at ht
  split at ht
  · cases ht
  · obtain ⟨u, hu, same⟩ := mem_mapM_scale scaling ht
    exact same ▸ terms u hu

/-! ### Normal form -/

/-- The terms are of different values, and their coefficients are int32 other than zero. -/
structure IsNormal (l : List LinearTerm) : Prop where
  distinct : (l.map LinearTerm.term).Nodup
  scales : ∀ t ∈ l, IsInt32 t.scale ∧ t.scale ≠ 0

/-- The terms of the sum are in normal form. -/
abbrev Normal (sum : LinearSum) : Prop := IsNormal sum.terms

/-- No terms are normal. -/
theorem isNormal_nil : IsNormal [] := ⟨List.nodup_nil, nofun⟩

/-- Normal terms, one by one. -/
theorem isNormal_cons :
    IsNormal (t :: l) ↔
      (∀ u ∈ l, u.term ≠ t.term) ∧ (IsInt32 t.scale ∧ t.scale ≠ 0) ∧ IsNormal l := by
  constructor
  · rintro ⟨distinct, scales⟩
    rw [List.map_cons, List.nodup_cons] at distinct
    rw [List.forall_mem_cons] at scales
    refine ⟨fun u hu same => distinct.1 ?_, scales.1, distinct.2, scales.2⟩
    exact same ▸ List.mem_map_of_mem hu
  · rintro ⟨fresh, scale, distinct, scales⟩
    refine ⟨?_, List.forall_mem_cons.mpr ⟨scale, scales⟩⟩
    rw [List.map_cons, List.nodup_cons]
    refine ⟨fun mem => ?_, distinct⟩
    obtain ⟨u, hu, same⟩ := List.mem_map.mp mem
    exact fresh u hu same

/-- Merging keeps terms normal. -/
theorem IsNormal.mergeTerm (normal : IsNormal l) (fits : IsInt32 scale) (ne : scale ≠ 0)
    (h : LinearSum.mergeTerm term scale l = some l') : IsNormal l' := by
  induction l generalizing l' with
  | nil =>
    obtain rfl := Option.some.inj h
    exact isNormal_cons.mpr ⟨nofun, ⟨fits, ne⟩, isNormal_nil⟩
  | cons t rest ih =>
    obtain ⟨fresh, scaled, others⟩ := isNormal_cons.mp normal
    rw [LinearSum.mergeTerm] at h
    split at h
    · next own =>
      obtain ⟨s, checked, rfl⟩ := Option.map_eq_some_iff.mp h
      obtain ⟨fits', rfl⟩ := checkInt32_eq_some.mp checked
      split
      · exact others
      · next stays => exact isNormal_cons.mpr ⟨own ▸ fresh, ⟨fits', stays⟩, others⟩
    · next other =>
      obtain ⟨merged, merging, rfl⟩ := Option.map_eq_some_iff.mp h
      refine isNormal_cons.mpr ⟨fun u hu => ?_, scaled, ih others merging⟩
      rcases mem_mergeTerm merging hu with new | old
      · exact new ▸ Ne.symm other
      · exact fresh u old

/-- Scaled terms keep a sum normal. -/
theorem Normal.addScaled (normal : sum.Normal) (fits : IsInt32 scale)
    (h : sum.addScaled term scale = some result) : result.Normal := by
  rw [LinearSum.addScaled] at h
  split at h
  · exact Option.some.inj h ▸ normal
  · next ne =>
    obtain ⟨terms, merged, rfl⟩ := Option.map_eq_some_iff.mp h
    exact normal.mergeTerm fits ne merged

/-- Constants keep it normal. -/
theorem Normal.addConstant (normal : sum.Normal) (h : sum.addConstant c = some result) :
    result.Normal := by
  obtain ⟨constant, -, rfl⟩ := Option.map_eq_some_iff.mp h
  exact normal

/-- Values keep it normal. -/
theorem Normal.addTerm (normal : sum.Normal) (fits : IsInt32 scale)
    (h : sum.addTerm f term scale = .ok (some result)) : result.Normal := by
  rw [LinearSum.addTerm] at h
  split at h
  · exact Option.some.inj (Except.ok.inj h) ▸ normal
  · obtain ⟨found, -, h⟩ := bind_eq_ok.mp h
    cases found with
    | some c =>
      obtain ⟨product, -, added⟩ := Option.bind_eq_some_iff.mp (pure_eq_ok.mp h)
      exact normal.addConstant added
    | none => exact normal.addScaled fits (pure_eq_ok.mp h)

/-- So do several terms. -/
theorem Normal.addTerms (normal : sum.Normal) (h : addTerms scale l sum = some result) :
    result.Normal := by
  induction l generalizing sum with
  | nil => exact Option.some.inj h ▸ normal
  | cons t rest ih =>
    obtain ⟨s, checked, h⟩ := Option.bind_eq_some_iff.mp h
    obtain ⟨fits, rfl⟩ := checkInt32_eq_some.mp checked
    obtain ⟨next, added, h⟩ := Option.bind_eq_some_iff.mp h
    exact ih (normal.addScaled fits added) h

/-- So do sums. -/
theorem Normal.addSum (normal : sum.Normal) (h : sum.addSum scale other = some result) :
    result.Normal := by
  obtain ⟨next, added, h⟩ := Option.bind_eq_some_iff.mp h
  obtain ⟨c, -, h⟩ := Option.bind_eq_some_iff.mp h
  exact (normal.addTerms added).addConstant h

/-- Scaling keeps terms normal. -/
theorem IsNormal.mapM_scale (normal : IsNormal l) (ne : scale ≠ 0)
    (h : (l.mapM fun t => (checkInt32 (t.scale * scale)).map fun s => { t with scale := s }) =
      some l') : IsNormal l' := by
  induction l generalizing l' with
  | nil =>
    obtain rfl : [] = l' := by simpa using h
    exact isNormal_nil
  | cons t rest ih =>
    obtain ⟨fresh, scaled, others⟩ := isNormal_cons.mp normal
    rw [List.mapM_cons] at h
    obtain ⟨own, mapped, h⟩ := Option.bind_eq_some_iff.mp h
    obtain ⟨later, mapping, h⟩ := Option.bind_eq_some_iff.mp h
    obtain rfl := Option.some.inj h
    obtain ⟨s, checked, rfl⟩ := Option.map_eq_some_iff.mp mapped
    obtain ⟨fits, rfl⟩ := checkInt32_eq_some.mp checked
    refine isNormal_cons.mpr ⟨fun u hu => ?_, ⟨fits, Int.mul_ne_zero scaled.2 ne⟩, ih others mapping⟩
    obtain ⟨w, hw, same⟩ := mem_mapM_scale mapping hu
    exact same ▸ fresh w hw

/-- Products keep it normal. -/
theorem Normal.multiply (normal : sum.Normal) (h : sum.multiply scale = some result) :
    result.Normal := by
  obtain ⟨terms, scaled, h⟩ := Option.bind_eq_some_iff.mp h
  obtain ⟨c, -, h⟩ := Option.bind_eq_some_iff.mp h
  obtain rfl := Option.some.inj h
  by_cases zero : scale = 0
  · rw [Normal, if_pos zero]
    exact isNormal_nil
  · rw [Normal, if_neg zero]
    exact normal.mapM_scale zero scaled

end Rangefinder.LinearSum
