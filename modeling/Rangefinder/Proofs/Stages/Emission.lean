import Rangefinder.Proofs.Analysis.Rounds
import Rangefinder.Proofs.Machine.Lockstep
import Rangefinder.Proofs.Stages.Hoisting

/-!
# What the checks before a loop do

A procedure with checks before a loop runs as it did without them, until one of the additional
instructions ends the run (`Extends.reached`). The arithmetic in front of the checks computes the sums
that it was made for, or ends the run. So in a state at the end of the block that enters the loop, the
limits of these sums have been checked (`placeChecks_holds`).
-/

namespace Rangefinder

/-- Emitted code is quiet. -/
theorem Opcode.isQuiet_of_isEmitted {o : Opcode} (h : o.isEmitted = true) : o.isQuiet = true := by
  cases o with
  | const | binary | lowerCheck | boundsCheck => rfl
  | _ => cases h

namespace Procedure

open Machine

variable {f f' : Procedure} {g : FlowGraph} {b : BlockId} {args : List Number} {v : ValueId}
  {sum : Option ValueId} {o : Opcode}

/-! ### Runs of extended procedures -/

/-- A procedure and an extended one have the instructions of the former in common. -/
theorem Extends.parallel (h : f.Extends f' g b) (structured : f.Structured) :
    f.Parallel f' (isOld f) (fun _ => id) (fun _ _ => id) fun _ => id := by
  have old : ∀ c, ∀ v ∈ f.instrsAt c, isOld f v = true := fun c v hv =>
    decide_eq_true (structured.lt_size_of_mem (List.mem_append_right _ hv))
  refine ⟨h.flow, fun v kept => ?_, fun v kept => ?_, fun v kept => h.type? v (of_decide_eq_true kept),
    h.phisAt, fun c v hv => ?_, fun c => ?_, fun c => ?_, fun c v hv extra => ?_, fun c v hv extra => ?_⟩
  · have := of_decide_eq_true kept
    exact ⟨fun _ => this, fun _ => Nat.lt_of_lt_of_le this h.count⟩
  · rw [h.opcode? v (of_decide_eq_true kept)]
    cases f.opcode? v <;> simp [Opcode.rename_id]
  · exact decide_eq_true (structured.lt_size_of_mem (List.mem_append_left _ hv))
  · obtain ⟨added, split, new⟩ := h.instrsAt c
    have none : added.filter (isOld f) = [] := by
      rw [List.filter_eq_nil_iff]
      exact fun v hv kept => Nat.not_lt.mpr (new v hv) (of_decide_eq_true kept)
    rw [split, List.filter_append, none, List.append_nil]
  · rw [h.terminator?]
    cases f.terminator? c <;> simp [Terminator.mapOperand_id]
  · rw [old c v hv] at extra
    cases extra
  · have exists_v := h.valid.wellFormed.structured.lt_size_of_mem (List.mem_append_right _ hv)
    have code := opcode?_of_value (Array.getElem?_eq_getElem exists_v)
    exact ⟨_, code, Opcode.isQuiet_of_isEmitted
      (h.emitted v _ (Nat.not_lt.mp (of_decide_eq_false extra)) code)⟩

/-- Emitted code runs beside the rest. -/
theorem Extends.lockstep (h : f.Extends f' g b) (consistent : f.Consistent g) (args : List Number) :
    Lockstep f f' (isOld f) args := by
  refine Faithful.lockstep ⟨h.parallel consistent.wellFormed.structured, consistent,
    h.valid.consistent, fun s s' _ _ m x y avail _ use => ?_⟩
  have same : y = x := by
    rcases use with ⟨v, rfl⟩ | ⟨p, q, rfl⟩ | ⟨c, rfl⟩ <;> rfl
  obtain ⟨-, -, home, stands, -⟩ := avail
  rw [same, m.memory.slots x (decide_eq_true (lt_size_of_home? stands))]

/-- A run of an extended procedure passes through states of a run of the procedure. -/
theorem Extends.reached {s' : State} (h : f.Extends f' g b) (consistent : f.Consistent g)
    (reached : Reached f' args s') : ∃ s, Reached f args s ∧ Matches (isOld f) s s' := by
  rcases (h.lockstep consistent args).symm.reached reached with ⟨s, reached, m, -⟩ |
    ⟨v, halt, extra, ends⟩
  · exact ⟨s, reached, m.symm⟩
  · rw [ends.isOld consistent v rfl] at extra
    cases extra

/-- The old values have the same integers in the states of both runs. -/
theorem Extends.valueIn_eq {s s' : State} (h : f.Extends f' g b) (m : Matches (isOld f) s s')
    (old : v < f.values.size) :
    f'.valueIn s'.memory v = f.valueIn s.memory v := by
  rw [valueIn, valueIn, h.opcode? v old, Memory.intAt, Memory.intAt,
    m.memory.slots v (decide_eq_true old)]

/-! ### Emitted arithmetic is whole -/

/-- The emitted code is integral, whole values are still whole, and so is the result. -/
structure EmitsWhole (f f' : Procedure) (v : ValueId) : Prop where
  integral : f'.Integral
  keeps : ∀ x, f.isWhole x = true → f'.isWhole x = true
  whole : f'.isWhole v = true

/-- Whole values stay whole. -/
theorem appendInstr_integral {t : ValueType} (h : f.Integral)
    (form : t.isWhole = true → o.isWholeForm t = true)
    (operands : ∀ x ∈ o.wholeOperands, f.isWhole x = true) (limits : ∀ n ∈ o.limits, IsInt32 n)
    (run : f.appendInstr b o t = .ok (f', v)) :
    f'.Integral ∧ ∀ x, f.isWhole x = true → f'.isWhole x = true := by
  obtain ⟨block, -, run⟩ := bind_eq_ok.mp run
  obtain ⟨rfl, -, placed⟩ := placeAt_spec run
  exact ⟨h.place placed form operands limits, fun x => placed.isWhole⟩

/-- Emitted values are whole. -/
theorem emit_whole (h : f.Integral) (form : o.isWholeForm .int32 = true)
    (operands : ∀ x ∈ o.wholeOperands, f.isWhole x = true) (limits : ∀ n ∈ o.limits, IsInt32 n)
    (run : f.emit g b o .int32 = .ok (f', v)) :
    EmitsWhole f f' v := by
  obtain ⟨-, -, -, typed⟩ := emit_code run
  obtain ⟨f₁, appended, refreshed⟩ := emit_eq_ok run
  have same := sameCode_refresh refreshed
  obtain ⟨integral, keeps⟩ := appendInstr_integral h (fun _ => form) operands limits appended
  refine ⟨integral.of_sameCode same, fun x whole => ?_, isWhole_of_type typed rfl⟩
  rw [isWhole_congr (same.type? x)]
  exact keeps x whole

/-- Emitted constants are whole. -/
theorem emitInt_whole {n : Int} (h : f.Integral) (fits : IsInt32 n)
    (run : f.emitInt g b n = .ok (f', v)) : EmitsWhole f f' v :=
  emit_whole h (o := .const (.int n)) (decide_eq_true fits) (by simp [Opcode.wholeOperands])
    (by simp [Opcode.limits]) run

/-- Emitted arithmetic is whole. -/
theorem emitArith_whole {op : BinaryOp} {x y v : ValueId} (h : f.Integral)
    (left : f.isWhole x = true) (right : f.isWhole y = true)
    (run : f.emitArith g b op x y = .ok (f', v)) : EmitsWhole f f' v :=
  emit_whole h rfl (by simpa [Opcode.wholeOperands] using ⟨left, right⟩)
    (by simp [Opcode.limits]) run

/-- Emitted terms are whole. -/
theorem emitTerm_whole {t : LinearTerm} (h : f.Integral) (term : f.isWhole t.term = true)
    (fits : IsInt32 t.scale) (before : ∀ x ∈ sum, f.isWhole x = true)
    (run : f.emitTerm g b t sum = .ok (f', v)) :
    EmitsWhole f f' v := by
  cases sum with
  | none =>
    rw [emitTerm] at run
    split at run
    · obtain ⟨rfl, rfl⟩ := Prod.mk.inj (Except.ok.inj run)
      exact ⟨h, fun _ => id, term⟩
    · split at run
      · obtain ⟨⟨f₁, base⟩, constant, run⟩ := bind_eq_ok.mp run
        have first := emitInt_whole h (by decide) constant
        have last := emitArith_whole first.integral first.whole (first.keeps _ term) run
        exact ⟨last.integral, fun x whole => last.keeps x (first.keeps x whole), last.whole⟩
      · obtain ⟨⟨f₁, factor⟩, constant, run⟩ := bind_eq_ok.mp run
        have first := emitInt_whole h fits constant
        have last := emitArith_whole first.integral (first.keeps _ term) first.whole run
        exact ⟨last.integral, fun x whole => last.keeps x (first.keeps x whole), last.whole⟩
  | some acc =>
    have acc' := before acc rfl
    rw [emitTerm] at run
    split at run
    · exact emitArith_whole h acc' term run
    · split at run
      · exact emitArith_whole h acc' term run
      · obtain ⟨⟨f₁, factor⟩, constant, run⟩ := bind_eq_ok.mp run
        obtain ⟨⟨f₂, product⟩, multiplied, run⟩ := bind_eq_ok.mp run
        have first := emitInt_whole h fits constant
        have second := emitArith_whole first.integral (first.keeps _ term) first.whole multiplied
        have keeps : ∀ x, f.isWhole x = true → f₂.isWhole x = true := fun x whole =>
          second.keeps x (first.keeps x whole)
        have last := emitArith_whole second.integral (keeps acc acc') second.whole run
        exact ⟨last.integral, fun x whole => last.keeps x (keeps x whole), last.whole⟩

/-- The arithmetic for a sum of whole values is whole. -/
theorem emitTerms_whole {l : List LinearTerm} (h : f.Integral)
    (terms : ∀ t ∈ l, f.isWhole t.term = true ∧ IsInt32 t.scale)
    (before : ∀ x ∈ sum, f.isWhole x = true) (run : f.emitTerms g b l sum = .ok (f', v)) :
    EmitsWhole f f' v := by
  induction l generalizing f sum with
  | nil =>
    cases sum with
    | none => exact emitInt_whole h (by decide) run
    | some acc =>
      obtain ⟨rfl, rfl⟩ := Prod.mk.inj (Except.ok.inj run)
      exact ⟨h, fun _ => id, before _ rfl⟩
  | cons t rest ih =>
    rw [List.forall_mem_cons] at terms
    obtain ⟨⟨f₁, next⟩, first, run⟩ := bind_eq_ok.mp run
    have one := emitTerm_whole h terms.1.1 terms.1.2 before first
    have others := ih one.integral (fun u hu => ⟨one.keeps _ (terms.2 u hu).1, (terms.2 u hu).2⟩)
      (by simpa using one.whole) run
    exact ⟨others.integral, fun x whole => others.keeps x (one.keeps x whole), others.whole⟩

/-! ### Emitted arithmetic computes its sum -/

variable {val : ValueId → Int} {ops : List BinaryOp} {f₁ : Procedure}

/-- The assignment solves the equations of all values that the second procedure adds. -/
def SolvesNew (f f' : Procedure) (val : ValueId → Int) : Prop :=
  ∀ v, f.values.size ≤ v → v < f'.values.size → f'.SolvesAt [.add, .sub, .mul] val v

/-- Opcode and type decide. -/
theorem SolvesAt.congr (h : f'.SolvesAt ops val v) (opcode? : f'.opcode? v = f.opcode? v)
    (type? : f'.type? v = f.type? v) :
    f.SolvesAt ops val v :=
  ⟨fun c code => h.const c (opcode?.trans code), fun x r code => h.beta x r (opcode?.trans code),
    fun op x y flags code mem typed => h.binary op x y flags (opcode?.trans code) mem
      (type?.trans typed)⟩

/-- If the equations of all new values are solved, then those of the first new values are. -/
theorem SolvesNew.first (h : SolvesNew f f' val) (grown : f₁.Extends f' g b) :
    SolvesNew f f₁ val := fun v new old =>
  (h v new (Nat.lt_of_lt_of_le old grown.count)).congr (grown.opcode? v old) (grown.type? v old)

/-- If the equations of all new values are solved, then those of the last new values are. -/
theorem SolvesNew.last (h : SolvesNew f f' val) (grown : f.Extends f₁ g b) :
    SolvesNew f₁ f' val := fun v new exists_v => h v (grown.count.trans new) exists_v

/-- A constant has its value. -/
theorem emitInt_eval {n : Int} (solves : SolvesNew f f' val) (run : f.emitInt g b n = .ok (f', v)) :
    val v = n := by
  obtain ⟨rfl, size, code, -⟩ := emit_code run
  exact (solves _ (Nat.le_refl _) (size ▸ Nat.lt_succ_self _)).const n code

/-- Arithmetic computes. -/
theorem emitArith_eval {op : BinaryOp} {x y v : ValueId} (solves : SolvesNew f f' val)
    (mem : op ∈ [BinaryOp.add, .sub, .mul]) (run : f.emitArith g b op x y = .ok (f', v)) :
    op.onIntegers? (val x) (val y) = some (val v) := by
  obtain ⟨rfl, size, code, typed⟩ := emit_code run
  exact (solves _ (Nat.le_refl _) (size ▸ Nat.lt_succ_self _)).binary op x y _ code mem typed rfl

/-- The arithmetic for one term adds it to what was computed so far. -/
theorem emitTerm_eval {t : LinearTerm} (h : f.Valid g) (hb : b ∈ g.order)
    (term : f.DefinedAtEnd g t.term b) (before : ∀ x ∈ sum, f.DefinedAtEnd g x b)
    (solves : SolvesNew f f' val) (run : f.emitTerm g b t sum = .ok (f', v)) :
    val v = (sum.map val).getD 0 + t.scale * val t.term := by
  cases sum with
  | none =>
    rw [emitTerm] at run
    split at run
    · next one =>
      obtain ⟨rfl, rfl⟩ := Prod.mk.inj (Except.ok.inj run)
      simp [one]
    · split at run
      · next minusOne =>
        obtain ⟨⟨f₁, base⟩, constant, run⟩ := bind_eq_ok.mp run
        obtain ⟨grown, defined⟩ := emitInt_extends h hb constant
        obtain ⟨grown', -⟩ := emitArith_extends grown.valid hb defined (grown.definedAtEnd term) run
        have zero := emitInt_eval (solves.first grown') constant
        have difference := emitArith_eval (solves.last grown) (by simp) run
        rw [zero] at difference
        rw [← Option.some.inj difference, minusOne]
        simp
      · obtain ⟨⟨f₁, factor⟩, constant, run⟩ := bind_eq_ok.mp run
        obtain ⟨grown, defined⟩ := emitInt_extends h hb constant
        obtain ⟨grown', -⟩ := emitArith_extends grown.valid hb (grown.definedAtEnd term) defined run
        have scale := emitInt_eval (solves.first grown') constant
        have product := emitArith_eval (solves.last grown) (by simp) run
        rw [scale] at product
        rw [← Option.some.inj product, Int.mul_comm]
        simp
  | some acc =>
    have acc' := before acc rfl
    rw [Option.map_some, Option.getD_some]
    rw [emitTerm] at run
    split at run
    · next one =>
      rw [← Option.some.inj (emitArith_eval solves (by simp) run), one, Int.one_mul]
    · split at run
      · next minusOne =>
        rw [← Option.some.inj (emitArith_eval solves (by simp) run), minusOne]
        omega
      · obtain ⟨⟨f₁, factor⟩, constant, run⟩ := bind_eq_ok.mp run
        obtain ⟨⟨f₂, product⟩, multiplied, run⟩ := bind_eq_ok.mp run
        obtain ⟨grown, defined⟩ := emitInt_extends h hb constant
        obtain ⟨grown', defined'⟩ :=
          emitArith_extends grown.valid hb (grown.definedAtEnd term) defined multiplied
        have so_far := grown.trans grown'
        obtain ⟨grown'', -⟩ :=
          emitArith_extends so_far.valid hb (so_far.definedAtEnd acc') defined' run
        have scale := emitInt_eval (solves.first (grown'.trans grown'')) constant
        have scaled := emitArith_eval ((solves.first grown'').last grown) (by simp) multiplied
        have added := emitArith_eval (solves.last so_far) (by simp) run
        rw [← Option.some.inj added, ← Option.some.inj scaled, scale, Int.mul_comm]

/-- The arithmetic for a sum computes it. -/
theorem emitTerms_eval {l : List LinearTerm} (h : f.Valid g) (hb : b ∈ g.order)
    (terms : ∀ t ∈ l, f.DefinedAtEnd g t.term b) (before : ∀ x ∈ sum, f.DefinedAtEnd g x b)
    (solves : SolvesNew f f' val) (run : f.emitTerms g b l sum = .ok (f', v)) :
    val v = (sum.map val).getD 0 + LinearSum.evalTerms val l := by
  induction l generalizing f sum with
  | nil =>
    cases sum with
    | none => simpa [LinearSum.evalTerms] using emitInt_eval solves run
    | some acc =>
      obtain ⟨rfl, rfl⟩ := Prod.mk.inj (Except.ok.inj run)
      simp [LinearSum.evalTerms]
  | cons t rest ih =>
    rw [List.forall_mem_cons] at terms
    obtain ⟨⟨f₁, next⟩, first, run⟩ := bind_eq_ok.mp run
    obtain ⟨grown, defined⟩ := emitTerm_extends h hb terms.1 before first
    have later : ∀ u ∈ rest, f₁.DefinedAtEnd g u.term b := fun u hu =>
      grown.definedAtEnd (terms.2 u hu)
    obtain ⟨grown', -⟩ := emitTerms_extends grown.valid hb later (by simpa using defined) run
    have one := emitTerm_eval h hb terms.1 before (solves.first grown') first
    rw [ih grown.valid later (by simpa using defined) (solves.last grown) run, Option.map_some,
      Option.getD_some, one, LinearSum.evalTerms]
    omega

/-- What has been placed at the end of a block is defined there. -/
theorem Extends.definedAtEnd_new (h : f.Extends f' g b) (hb : b ∈ g.order) (new : f.values.size ≤ v)
    (exists_v : v < f'.values.size) : f'.DefinedAtEnd g v b :=
  ⟨b, h.placed v new exists_v, h.valid.describes.dominates_iff.mpr ⟨hb, .refl⟩⟩

/-- In a state at the end of the block, the new values solve their equations. -/
theorem Extends.solvesNew {s : State} (h : f.Extends f' g b) (on : f'.OnInt32 g)
    (reached : Reached f' args s) (block : s.block = b) (last : s.pending = []) :
    SolvesNew f f' (f'.valueIn s.memory) := by
  subst block
  have reachable := (reached.stands h.valid.wellFormed h.valid.describes).reachable
  intro v new exists_v
  refine ⟨f'.respectsConstants_valueIn s.memory v, fun x r code => ?_,
    fun op x y flags code mem typed => ?_⟩
  · cases h.emitted v _ new code
  · have avail := available_of_definedAtEnd h.valid.listed last
      (h.definedAtEnd_new reachable new exists_v)
    exact (reached.solvesAt on avail (isWhole_of_type typed rfl)).binary op x y flags code mem typed

end Procedure

namespace Session

open Procedure Machine

variable {f f' : Procedure} {g : FlowGraph} {b : BlockId} {args : List Number}

/-- A plan reads whole values that are defined at the end of the given block. -/
structure HoistedCheck.Grounded (plan : HoistedCheck) (f : Procedure) (g : FlowGraph) (b : BlockId) :
    Prop where
  lower : plan.lower.TermsSatisfy fun t => f.DefinedAtEnd g t b ∧ f.isWhole t = true
  upper : plan.upper.TermsSatisfy fun t => f.DefinedAtEnd g t b ∧ f.isWhole t = true
  normalLower : plan.lower.Normal
  normalUpper : plan.upper.Normal
  length : f.DefinedAtEnd g plan.length b ∧ f.isWhole plan.length = true
  fits : IsInt32 plan.upperOffset

/-- What the checks of a plan have found in a state at the end of their block. -/
def WithinLimits (f : Procedure) (plan : HoistedCheck) (m : Memory) : Prop :=
  plan.lowerLimit ≤ LinearSum.evalTerms (f.valueIn m) plan.lower.terms ∧
    LinearSum.evalTerms (f.valueIn m) plan.upper.terms + plan.upperOffset < f.valueIn m plan.length

/-- The checks of a plan keep the procedure on int32 numbers. A run that has passed them has found the
sums of the plan within their limits. -/
theorem placeChecks_withinLimits {plan : HoistedCheck} (h : f.Valid g) (on : f.OnInt32 g)
    (hb : b ∈ g.order) (grounded : plan.Grounded f g b) (run : placeChecks f g b plan = .ok f') :
    f'.OnInt32 g ∧ ∀ args s, Reached f' args s → s.block = b → s.pending = [] →
      WithinLimits f' plan s.memory := by
  simp only [placeChecks, bind_eq_ok, Prod.exists, pure_eq_ok] at run
  obtain ⟨f₁, least, emitLower, f₂, greatest, emitUpper, f₃, first, appended, f₄, second, emitted,
    rfl⟩ := run
  have terms₁ : ∀ t ∈ plan.lower.terms, f.DefinedAtEnd g t.term b := fun t ht =>
    (grounded.lower t ht).1
  -- Each part extends what the parts before it have made.
  obtain ⟨grown₁, defined₁⟩ := emitTerms_extends h hb terms₁ (by simp) emitLower
  have terms₂ : ∀ t ∈ plan.upper.terms, f₁.DefinedAtEnd g t.term b := fun t ht =>
    grown₁.definedAtEnd (grounded.upper t ht).1
  obtain ⟨grown₂, defined₂⟩ := emitTerms_extends grown₁.valid hb terms₂ (by simp) emitUpper
  obtain ⟨grown₃, -⟩ := appendInstr_extends grown₂.valid hb rfl
    (by simpa [Opcode.operands] using grown₂.definedAtEnd defined₁) appended
  have grown₁₃ := (grown₁.trans grown₂).trans grown₃
  obtain ⟨grown₄, -⟩ := emit_extends grown₁₃.valid hb rfl
    (by simpa [Opcode.operands] using
      ⟨grown₃.definedAtEnd defined₂, grown₁₃.definedAtEnd grounded.length.1⟩) emitted
  have grown := grown₁₃.trans grown₄
  -- All the arithmetic is whole.
  have whole₁ := emitTerms_whole on.integral (fun t ht => ⟨(grounded.lower t ht).2,
    (grounded.normalLower.scales t ht).1⟩) (by simp) emitLower
  have whole₂ := emitTerms_whole whole₁.integral (fun t ht => ⟨whole₁.keeps _ (grounded.upper t ht).2,
    (grounded.normalUpper.scales t ht).1⟩) (by simp) emitUpper
  obtain ⟨integral₃, keeps₃⟩ := appendInstr_integral whole₂.integral (by simp [ValueType.isWhole])
    (by simp [Opcode.wholeOperands]) (by simp [Opcode.limits]) appended
  have wholeLength := keeps₃ _ (whole₂.keeps _ (whole₁.keeps _ grounded.length.2))
  have whole₄ := emit_whole integral₃ rfl
    (by simpa [Opcode.wholeOperands] using ⟨keeps₃ _ whole₂.whole, wholeLength⟩)
    (by simpa [Opcode.limits] using grounded.fits) emitted
  have on' : f₄.OnInt32 g :=
    ⟨grown.valid.consistent, by rw [grown.phisAt, grown.flow.entry, on.noPhis], whole₄.integral⟩
  refine ⟨on', fun args s reached block last => ?_⟩
  subst block
  have solves := grown.solvesNew on' reached rfl last
  have least_eq := emitTerms_eval h hb terms₁ (by simp)
    (solves.first ((grown₂.trans grown₃).trans grown₄)) emitLower
  have greatest_eq := emitTerms_eval grown₁.valid hb terms₂ (by simp)
    ((solves.first (grown₃.trans grown₄)).last grown₁) emitUpper
  simp only [Option.map_none, Option.getD_none, Int.zero_add] at least_eq greatest_eq
  obtain ⟨rfl, size₃, code₃, -⟩ := appendInstr_code appended
  obtain ⟨rfl, size₄, code₄, -⟩ := emit_code emitted
  have next₃ : f₂.values.size < f₃.values.size := size₃ ▸ Nat.lt_succ_self _
  have next₄ : f₃.values.size < f₄.values.size := size₄ ▸ Nat.lt_succ_self _
  have avail₃ := available_of_definedAtEnd grown.valid.listed last
    ((grown₃.trans grown₄).definedAtEnd_new hb (Nat.le_refl _) (next₃.trans next₄))
  have avail₄ := available_of_definedAtEnd grown.valid.listed last
    (grown₄.definedAtEnd_new hb (Nat.le_refl _) next₄)
  have low := reached.lowerCheck_holds on' avail₃
    ((grown₄.opcode? _ next₃).trans code₃)
    (whole₄.keeps _ (keeps₃ _ (whole₂.keeps _ whole₁.whole)))
  have high := (reached.boundsCheck_holds on' avail₄ code₄).2
  rw [least_eq] at low
  rw [greatest_eq] at high
  exact ⟨low, high⟩

end Session

end Rangefinder
