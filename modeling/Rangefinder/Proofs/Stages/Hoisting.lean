import Rangefinder.Analysis.Analyze
import Rangefinder.Proofs.Analysis.LoopBounds
import Rangefinder.Proofs.Analysis.Passes
import Rangefinder.Proofs.Stages.Removal

/-!
# Bounds checks are moved where they can read

A bounds check that leaves a loop is replaced by arithmetic and two checks at the end of the block
that enters the loop. All that they read is computed there: the bounds of a phi of the header are
sums of values from before the loop, and so is the length. A check that is replaced is then
collapsed into its index. No phi is cut off from its own value in this way, since the next value of
a bounded phi is a sum and its first value comes from outside.
-/

namespace Rangefinder

/-- The opcodes of instructions that replace a bounds check. -/
def Opcode.isEmitted : Opcode → Bool
  | const (.int _) | binary _ _ _ _ | lowerCheck _ _ | boundsCheck _ _ _ _ false => true
  | _ => false

/-- Phis are not emitted. -/
theorem Opcode.isPhi_of_isEmitted {o : Opcode} (h : o.isEmitted = true) : o.isPhi = false := by
  cases o with
  | phi => cases h
  | _ => rfl

/-- Nothing is handed on. -/
theorem Opcode.handsOn_of_isEmitted {o : Opcode} (h : o.isEmitted = true) : o.handsOn = none := by
  unfold isEmitted at h
  split at h
  · rfl
  · rfl
  · rfl
  · rfl
  · cases h

namespace Procedure

variable {f f' f'' : Procedure} {g : FlowGraph} {b : BlockId} {v : ValueId} {t : ValueType} {o : Opcode}
  {sum : Option ValueId} {c : BlockId}

/-- The second procedure is valid and has the code of the first one, and perhaps more instructions at
the end of the given block. -/
structure Extends (f f' : Procedure) (g : FlowGraph) (b : BlockId) : Prop where
  valid : f'.Valid g
  flow : SameFlow f f'
  count : f.values.size ≤ f'.values.size
  opcode? : ∀ v < f.values.size, f'.opcode? v = f.opcode? v
  type? : ∀ v < f.values.size, f'.type? v = f.type? v
  home? : ∀ v < f.values.size, f'.home? v = f.home? v
  phisAt : ∀ c, f'.phisAt c = f.phisAt c
  instrsAt : ∀ c, ∃ added, f'.instrsAt c = f.instrsAt c ++ added ∧ ∀ v ∈ added, f.values.size ≤ v
  terminator? : ∀ c, f'.terminator? c = f.terminator? c
  emitted : ∀ v o, f.values.size ≤ v → f'.opcode? v = some o → o.isEmitted = true
  placed : ∀ v, f.values.size ≤ v → v < f'.values.size → f'.home? v = some b
  range? : ∀ v < f.values.size, f'.range? v = f.range? v
  symbolic : ∀ these, f.SymbolicOnly these → f'.SymbolicOnly these

namespace Extends

/-- Nothing was added. -/
theorem refl (h : f.Valid g) : f.Extends f g b where
  valid := h
  flow := .refl
  count := Nat.le_refl _
  opcode? _ _ := rfl
  type? _ _ := rfl
  home? _ _ := rfl
  phisAt _ := rfl
  instrsAt c := ⟨[], by simp⟩
  terminator? _ := rfl
  emitted v o new code := absurd (lt_size_of_opcode? code) (Nat.not_lt.mpr new)
  placed v new old := absurd old (Nat.not_lt.mpr new)
  range? _ _ := rfl
  symbolic _ := id

/-- Additions compose. -/
theorem trans (h : f.Extends f' g b) (h' : f'.Extends f'' g b) : f.Extends f'' g b where
  valid := h'.valid
  flow := h.flow.trans h'.flow
  count := h.count.trans h'.count
  opcode? v hv := (h'.opcode? v (Nat.lt_of_lt_of_le hv h.count)).trans (h.opcode? v hv)
  type? v hv := (h'.type? v (Nat.lt_of_lt_of_le hv h.count)).trans (h.type? v hv)
  home? v hv := (h'.home? v (Nat.lt_of_lt_of_le hv h.count)).trans (h.home? v hv)
  phisAt c := (h'.phisAt c).trans (h.phisAt c)
  instrsAt c := by
    obtain ⟨added, first, new⟩ := h.instrsAt c
    obtain ⟨added', second, new'⟩ := h'.instrsAt c
    refine ⟨added ++ added', by rw [second, first, List.append_assoc], fun v hv => ?_⟩
    rcases List.mem_append.mp hv with hv | hv
    · exact new v hv
    · exact h.count.trans (new' v hv)
  terminator? c := (h'.terminator? c).trans (h.terminator? c)
  emitted v o new code := by
    by_cases old : v < f'.values.size
    · exact h.emitted v o new (h'.opcode? v old ▸ code)
    · exact h'.emitted v o (Nat.not_lt.mp old) code
  placed v new exists_v := by
    by_cases old : v < f'.values.size
    · rw [h'.home? v old, h.placed v new old]
    · exact h'.placed v (Nat.not_lt.mp old) exists_v
  range? v hv := (h'.range? v (Nat.lt_of_lt_of_le hv h.count)).trans (h.range? v hv)
  symbolic these only := h'.symbolic these (h.symbolic these only)

/-- What is defined at the end of a block stays so. -/
theorem definedAtEnd (h : f.Extends f' g b) (defined : f.DefinedAtEnd g v c) :
    f'.DefinedAtEnd g v c := by
  obtain ⟨home, stands, dominates⟩ := defined
  exact ⟨home, (h.home? v (lt_size_of_home? stands)).trans stands, dominates⟩

/-- Instructions stay where they are. -/
theorem mem_instrsAt (h : f.Extends f' g b) (hv : v ∈ f.instrsAt c) :
    v ∈ f'.instrsAt c := by
  obtain ⟨added, split, -⟩ := h.instrsAt c
  rw [split]
  exact List.mem_append_left _ hv

/-- Only values that were there before have symbolic bounds. -/
theorem lt_of_mentions (h : f.Extends f' g b) {r : Range} {id : Nat} (ranged : f'.range? v = some r)
    (mentions : r.Mentions id) : v < f.values.size := by
  have only := h.symbolic (fun v => v < f.values.size) fun v r ranged => .inr ?_
  · exact (only v r ranged).resolve_left fun numeric => numeric.not_mentions id mentions
  · by_contra absent
    simp [Procedure.range?, absent] at ranged

end Extends

/-- Placing an instruction at the end of a block extends the procedure. -/
theorem appendInstr_extends (h : f.Valid g) (hb : b ∈ g.order) (emitted : o.isEmitted = true)
    (operands : ∀ x ∈ o.operands, f.DefinedAtEnd g x b) (run : f.appendInstr b o t = .ok (f', v)) :
    f.Extends f' g b ∧ f'.DefinedAtEnd g v b := by
  obtain ⟨block, found, run⟩ := bind_eq_ok.mp run
  rw [block_eq_ok] at found
  have instrs : f.instrsAt b = block.instrs := by rw [instrsAt, found]; rfl
  obtain ⟨rfl, -, placed⟩ := placeAt_spec run
  rw [← instrs, List.take_length, List.drop_length] at placed
  have exist : ∀ x ∈ o.operands, x < f.values.size := fun x hx =>
    lt_size_of_home? (operands x hx).choose_spec.1
  have wf := h.wellFormed.place placed (Opcode.isPhi_of_isEmitted emitted) exist
    fun _ x hx => (operands x hx).readable h.listed
  have testable := h.testable.place h.wellFormed.structured placed exist fun x handed => by
    rw [Opcode.handsOn_of_isEmitted emitted] at handed
    cases handed
  have other : ∀ v < f.values.size, v ≠ f.values.size := fun v hv => Nat.ne_of_lt hv
  refine ⟨⟨⟨placed.flow.build.trans h.built, wf, placed.allListed h.listed, testable⟩, placed.flow,
    ?_, fun v hv => ?_, fun v hv => ?_, fun v hv => ?_, placed.phisAt, fun c => ?_,
    placed.terminator?, fun v o' new code => ?_, fun v new exists_v => ?_, fun v hv => ?_,
    fun these only v r noted => ?_⟩, b, ?_, ?_⟩
  · rw [placed.valueCount]
    exact Nat.le_succ _
  · rw [placed.opcode?, if_neg (other v hv)]
  · rw [placed.type?, if_neg (other v hv)]
  · rw [placed.home?, if_neg (other v hv)]
  · rw [placed.instrsAt]
    split
    · next own => exact ⟨[f.values.size], by rw [own], by simp⟩
    · exact ⟨[], by simp⟩
  · rw [placed.opcode?] at code
    split at code
    · exact Option.some.inj code ▸ emitted
    · exact absurd (lt_size_of_opcode? code) (Nat.not_lt.mpr new)
  · rw [placed.valueCount] at exists_v
    rw [placed.home?, if_pos (Nat.le_antisymm (Nat.lt_succ_iff.mp exists_v) new)]
  · exact placed.range? v
  · exact only v r (placed.range? v ▸ noted)
  · rw [placed.home?, if_pos rfl]
  · exact (placed.flow.describes h.describes).dominates_iff.mpr ⟨hb, .refl⟩

/-- The new instruction is the next value. -/
theorem appendInstr_code (run : f.appendInstr b o t = .ok (f', v)) :
    v = f.values.size ∧ f'.values.size = f.values.size + 1 ∧ f'.opcode? v = some o ∧
      f'.type? v = some t := by
  obtain ⟨block, -, run⟩ := bind_eq_ok.mp run
  obtain ⟨rfl, -, placed⟩ := placeAt_spec run
  exact ⟨rfl, placed.valueCount, by rw [placed.opcode?, if_pos rfl], by rw [placed.type?, if_pos rfl]⟩

/-- A note about a new value extends the procedure. -/
theorem Extends.refresh (h : f.Extends f' g b) (new : f.values.size ≤ v)
    (noBeta : ∀ x range, f'.opcode? v ≠ some (.beta x range)) (run : f'.refresh g v = .ok f'') :
    f.Extends f'' g b := by
  have same := sameCode_refresh run
  refine ⟨h.valid.of_sameCode same, h.flow.trans same.layout.flow, same.layout.valueCount ▸ h.count,
    fun w hw => ?_, fun w hw => ?_, fun w hw => ?_, fun c => ?_, fun c => ?_, fun c => ?_,
    fun w o new code => ?_, fun w new exists_w => ?_, fun w hw => ?_,
    fun these only => (h.symbolic these only).refresh run⟩
  · rw [same.opcode?, h.opcode? w hw]
  · rw [same.type?, h.type? w hw]
  · rw [same.layout.home?, h.home? w hw]
  · rw [same.layout.phisAt, h.phisAt]
  · rw [same.layout.instrsAt]
    exact h.instrsAt c
  · rw [same.terminator?, h.terminator?]
  · exact h.emitted w o new (same.opcode? w ▸ code)
  · rw [same.layout.home?, h.placed w new (same.layout.valueCount ▸ exists_w)]
  · rw [← h.range? w hw]
    obtain ⟨value, found, run⟩ := bind_eq_ok.mp run
    rw [value_eq_ok] at found
    split at run
    · next input range beta =>
      exact absurd (by rw [opcode?_of_value found, beta]) (noBeta input range)
    · obtain ⟨range, -, run⟩ := bind_eq_ok.mp run
      obtain rfl := pure_eq_ok.mp run
      have other : w ≠ v := Nat.ne_of_lt (Nat.lt_of_lt_of_le hw new)
      rw [range?_setRange, if_neg other]

/-- Emitting an instruction appends it and takes a note. -/
theorem emit_eq_ok (run : f.emit g b o t = .ok (f', v)) :
    ∃ f₁, f.appendInstr b o t = .ok (f₁, v) ∧ f₁.refresh g v = .ok f' := by
  simp only [emit, bind_eq_ok, Prod.exists, pure_eq_ok, Prod.mk.injEq] at run
  obtain ⟨f₁, new, appended, f₂, refreshed, rfl, rfl⟩ := run
  exact ⟨f₁, appended, refreshed⟩

/-- What is emitted. -/
theorem emit_code (run : f.emit g b o t = .ok (f', v)) :
    v = f.values.size ∧ f'.values.size = f.values.size + 1 ∧ f'.opcode? v = some o ∧
      f'.type? v = some t := by
  obtain ⟨f₁, appended, refreshed⟩ := emit_eq_ok run
  have same := sameCode_refresh refreshed
  rw [same.layout.valueCount, same.opcode?, same.type?]
  exact appendInstr_code appended

/-- Emitting an instruction at the end of a block extends the procedure. -/
theorem emit_extends (h : f.Valid g) (hb : b ∈ g.order) (emitted : o.isEmitted = true)
    (operands : ∀ x ∈ o.operands, f.DefinedAtEnd g x b) (run : f.emit g b o t = .ok (f', v)) :
    f.Extends f' g b ∧ f'.DefinedAtEnd g v b := by
  obtain ⟨f₁, appended, refreshed⟩ := emit_eq_ok run
  obtain ⟨rfl, -, code, -⟩ := appendInstr_code appended
  obtain ⟨grown, defined⟩ := appendInstr_extends h hb emitted operands appended
  refine ⟨grown.refresh (Nat.le_refl _) (fun x range beta => ?_) refreshed,
    (sameCode_refresh refreshed).layout.definedAtEnd.mpr defined⟩
  obtain rfl := Option.some.inj (code.symm.trans beta)
  cases emitted

/-- A constant is added. -/
theorem emitInt_extends {n : Int} (h : f.Valid g) (hb : b ∈ g.order)
    (run : f.emitInt g b n = .ok (f', v)) : f.Extends f' g b ∧ f'.DefinedAtEnd g v b :=
  emit_extends h hb rfl (by simp [Opcode.operands]) run

/-- Arithmetic is added. -/
theorem emitArith_extends {op : BinaryOp} {lhs rhs v : ValueId} (h : f.Valid g) (hb : b ∈ g.order)
    (left : f.DefinedAtEnd g lhs b) (right : f.DefinedAtEnd g rhs b)
    (run : f.emitArith g b op lhs rhs = .ok (f', v)) : f.Extends f' g b ∧ f'.DefinedAtEnd g v b :=
  emit_extends h hb rfl (by simpa [Opcode.operands] using ⟨left, right⟩) run

/-- The arithmetic for one term reads the term and what was computed so far. -/
theorem emitTerm_extends {t : LinearTerm} (h : f.Valid g) (hb : b ∈ g.order)
    (term : f.DefinedAtEnd g t.term b) (before : ∀ x ∈ sum, f.DefinedAtEnd g x b)
    (run : f.emitTerm g b t sum = .ok (f', v)) :
    f.Extends f' g b ∧ f'.DefinedAtEnd g v b := by
  cases sum with
  | none =>
    rw [emitTerm] at run
    split at run
    · obtain ⟨rfl, rfl⟩ := Prod.mk.inj (Except.ok.inj run)
      exact ⟨.refl h, term⟩
    · split at run
      · obtain ⟨⟨f₁, base⟩, constant, run⟩ := bind_eq_ok.mp run
        obtain ⟨grown, defined⟩ := emitInt_extends h hb constant
        obtain ⟨grown', defined'⟩ :=
          emitArith_extends grown.valid hb defined (grown.definedAtEnd term) run
        exact ⟨grown.trans grown', defined'⟩
      · obtain ⟨⟨f₁, factor⟩, constant, run⟩ := bind_eq_ok.mp run
        obtain ⟨grown, defined⟩ := emitInt_extends h hb constant
        obtain ⟨grown', defined'⟩ :=
          emitArith_extends grown.valid hb (grown.definedAtEnd term) defined run
        exact ⟨grown.trans grown', defined'⟩
  | some acc =>
    have acc' := before acc rfl
    rw [emitTerm] at run
    split at run
    · exact emitArith_extends h hb acc' term run
    · split at run
      · exact emitArith_extends h hb acc' term run
      · obtain ⟨⟨f₁, factor⟩, constant, run⟩ := bind_eq_ok.mp run
        obtain ⟨⟨f₂, product⟩, multiplied, run⟩ := bind_eq_ok.mp run
        obtain ⟨grown, defined⟩ := emitInt_extends h hb constant
        obtain ⟨grown', defined'⟩ :=
          emitArith_extends grown.valid hb (grown.definedAtEnd term) defined multiplied
        have so_far := grown.trans grown'
        obtain ⟨grown'', defined''⟩ :=
          emitArith_extends so_far.valid hb (so_far.definedAtEnd acc') defined' run
        exact ⟨so_far.trans grown'', defined''⟩

/-- The arithmetic for a sum reads its terms and what was computed so far. -/
theorem emitTerms_extends {l : List LinearTerm} (h : f.Valid g) (hb : b ∈ g.order)
    (terms : ∀ t ∈ l, f.DefinedAtEnd g t.term b) (before : ∀ x ∈ sum, f.DefinedAtEnd g x b)
    (run : f.emitTerms g b l sum = .ok (f', v)) :
    f.Extends f' g b ∧ f'.DefinedAtEnd g v b := by
  induction l generalizing f sum with
  | nil =>
    cases sum with
    | none => exact emitInt_extends h hb run
    | some acc =>
      obtain ⟨rfl, rfl⟩ := Prod.mk.inj (Except.ok.inj run)
      exact ⟨.refl h, before _ rfl⟩
  | cons t rest ih =>
    rw [List.forall_mem_cons] at terms
    obtain ⟨⟨f₁, next⟩, first, run⟩ := bind_eq_ok.mp run
    obtain ⟨grown, defined⟩ := emitTerm_extends h hb terms.1 before first
    obtain ⟨grown', defined'⟩ := ih grown.valid
      (fun u hu => grown.definedAtEnd (terms.2 u hu)) (by simpa using defined) run
    exact ⟨grown.trans grown', defined'⟩

end Procedure

namespace Session

open Procedure

variable {f f' : Procedure} {g : FlowGraph}

/-- The checks that replace a bounds check read their sums and the length. -/
theorem placeChecks_extends {b : BlockId} {plan : HoistedCheck} (h : f.Valid g)
    (hb : b ∈ g.order) (lower : plan.lower.TermsSatisfy fun t => f.DefinedAtEnd g t b)
    (upper : plan.upper.TermsSatisfy fun t => f.DefinedAtEnd g t b)
    (length : f.DefinedAtEnd g plan.length b) (run : placeChecks f g b plan = .ok f') :
    f.Extends f' g b := by
  simp only [placeChecks, bind_eq_ok, Prod.exists, pure_eq_ok] at run
  obtain ⟨f₁, least, emitLower, f₂, greatest, emitUpper, f₃, first, appended, f₄, second, emitted,
    rfl⟩ := run
  obtain ⟨grown₁, defined₁⟩ := emitTerms_extends h hb lower (by simp) emitLower
  obtain ⟨grown₂, defined₂⟩ := emitTerms_extends grown₁.valid hb
    (fun t ht => grown₁.definedAtEnd (upper t ht)) (by simp) emitUpper
  obtain ⟨grown₃, -⟩ := appendInstr_extends grown₂.valid hb rfl
    (by simpa [Opcode.operands] using grown₂.definedAtEnd defined₁) appended
  have so_far := (grown₁.trans grown₂).trans grown₃
  obtain ⟨grown₄, -⟩ := emit_extends so_far.valid hb rfl
    (by simpa [Opcode.operands] using
      ⟨grown₃.definedAtEnd defined₂, so_far.definedAtEnd length⟩) emitted
  exact so_far.trans grown₄

variable {s t : Session} {l : SimpleLoop} {b : BlockId} {check index length term : ValueId}
  {plan : HoistedCheck} {minimum maximum offset : Int} {lower upper : SymbolicBound} {checks : List ValueId}
  {movable : Bool}

/-- What has been read when a bounds check can be replaced: its index is a value with symbolic
bounds plus a constant, the bounds hold at the check, and the length comes from outside the
loop. -/
structure Plans (s : Session) (l : SimpleLoop) (check index length term : ValueId)
    (minimum maximum offset : Int) (lower upper : SymbolicBound) (plan : HoistedCheck) :
    Prop where
  code : ∃ movable, s.procedure.opcode? check =
    some (.boundsCheck index length minimum maximum movable)
  enters : s.procedure.terminator? l.preheader = some (.goto l.header)
  fixed : l.Outside s.procedure length
  reads : s.procedure.IsOffset index ⟨some term, offset⟩
  inside : l.loop.defines s.procedure term = .ok true
  bounds : ∃ r lowerId upperId, s.procedure.range? term = some r ∧
    r.symbolicLower = some lowerId ∧ r.symbolicUpper = some upperId ∧
    s.arena.symbolic lowerId = .ok lower ∧ s.arena.symbolic upperId = .ok upper
  lowerHolds : s.boundHoldsAt l check lower = .ok true
  upperHolds : s.boundHoldsAt l check upper = .ok true
  fits : IsInt32 plan.upperOffset
  plan : plan = ⟨lower.sum, 0 - offset - minimum - lower.sum.constant, upper.sum,
    upper.sum.constant + offset + maximum, length⟩

/-- What is planned. -/
theorem planHoist_spec (h : (s.planHoist l check).run = .ok (some plan)) :
    ∃ index length term minimum maximum offset lower upper,
      Plans s l check index length term minimum maximum offset lower upper plan := by
  simp only [planHoist, attempt_bind, attempt_lift] at h
  obtain ⟨o, op, h⟩ := h
  rw [Procedure.opcode_eq_ok] at op
  split at h
  · next index length minimum maximum movable =>
    simp only [attempt_bind, attempt_lift, attempt_require, attempt_some?, attempt_pure,
      beq_iff_eq, Bool.not_eq_true'] at h
    obtain ⟨block, found, _, enters, _, outside, _, rfl, ⟨_, offset⟩, reads, term, rfl, inside,
      defines, _, rfl, value, valued, r, ranged, lowerId, hasLower, upperId, hasUpper, lower,
      lowerBound, _, lowerHolds, _, rfl, upper, upperBound, _, upperHolds, _, rfl, limit, limits,
      offset', offsets, rfl⟩ := h
    rw [Procedure.block_eq_ok] at found
    rw [Procedure.value_eq_ok] at valued
    simp only [Option.bind_eq_bind, Option.bind_eq_some_iff, checkInt32_eq_some] at limits offsets
    obtain ⟨_, ⟨-, rfl⟩, _, ⟨-, rfl⟩, -, rfl⟩ := limits
    obtain ⟨_, ⟨-, rfl⟩, fits, rfl⟩ := offsets
    exact ⟨index, length, term, minimum, maximum, offset, lower, upper,
      ⟨movable, op⟩, by rw [Procedure.terminator?, found, Option.map_some, enters],
      SimpleLoop.outside_of_defines outside, Procedure.offset_spec reads, defines,
      ⟨r, lowerId, upperId, (Procedure.range?_of_value valued).trans ranged, hasLower, hasUpper,
        lowerBound, upperBound⟩, lowerHolds, upperHolds, fits, rfl⟩
  · exact absurd h attempt_failure

/-- A bound of a value is a sum of values that are defined before the loop. -/
def BoundBefore (s : Session) (l : SimpleLoop) (id : Nat) : Prop :=
  ∃ bound, s.arena.symbolic id = .ok bound ∧
    bound.sum.TermsSatisfy fun t => s.procedure.DefinedAtEnd s.graph t l.preheader

/-- A phi reads no bounds check of the loop. -/
def ReadsNoCheck (l : SimpleLoop) (f : Procedure) (phi : ValueId) : Prop :=
  ∀ inputs, f.opcode? phi = some (.phi inputs) → ∀ i ∈ inputs,
    l.Outside f i.1 ∨
      ∀ index length minimum maximum movable,
        f.opcode? i.1 ≠ some (.boundsCheck index length minimum maximum movable)

/-- The work is ready for the checks of a loop: every value in the loop with symbolic bounds is a
phi that reads no check of the loop, and is bounded by sums from before the loop. -/
structure HoistReady (s : Session) (l : SimpleLoop) : Prop where
  valid : s.Valid
  simple : l.IsSimple s.graph s.procedure
  bounded : ∀ v r b id, s.procedure.range? v = some r → r.Mentions id →
    s.procedure.home? v = some b → b ∈ l.loop.body →
    s.procedure.isPhi v = true ∧ ReadsNoCheck l s.procedure v ∧ s.BoundBefore l id

/-- The value is a bounds check that may be moved. -/
def IsMovable (f : Procedure) (check : ValueId) : Prop :=
  ∃ index length minimum maximum,
    f.opcode? check = some (.boundsCheck index length minimum maximum true)

/-- A movable check of the loop can be collapsed into its index: the index is no check, and if it is
a phi, it reads no check of the loop. -/
def Droppable (l : SimpleLoop) (f : Procedure) (check : ValueId) : Prop :=
  ∃ b index length minimum maximum, check ∈ f.instrsAt b ∧ b ∈ l.loop.body ∧
    f.opcode? check = some (.boundsCheck index length minimum maximum true) ∧
    (∀ i n a b m, f.opcode? index ≠ some (.boundsCheck i n a b m)) ∧ ReadsNoCheck l f index

/-- The value that a plan is about stands in the loop. -/
theorem Plans.term_mem (h : Plans s l check index length term minimum maximum offset lower upper plan)
    (valid : s.Valid) (hb : b ∈ s.graph.order) (hc : check ∈ s.procedure.instrsAt b) :
    ∃ home, s.procedure.home? term = some home ∧ home ∈ l.loop.body := by
  have wf := valid.wellFormed
  obtain ⟨movable, code⟩ := h.code
  obtain ⟨before, after, split⟩ := List.append_of_mem hc
  have ofIndex := ((wf.uses b hb).reads before check after split _ code index
    (by simp [Opcode.operands])).definedAtEnd valid.describes hb
  obtain ⟨home, stands, -⟩ := h.reads.definedAtEnd rfl wf valid.describes valid.listed ofIndex
  exact ⟨home, stands, (SimpleLoop.defines_eq_ok h.inside stands).mp rfl⟩

/-- What a plan reads is defined before the loop, and the check can be dropped. -/
theorem Plans.spec (h : Plans s l check index length term minimum maximum offset lower upper plan)
    (ready : s.HoistReady l) (hc : check ∈ s.procedure.instrsAt b) (hb : b ∈ l.loop.body)
    (movable : IsMovable s.procedure check) :
    (plan.lower.TermsSatisfy fun t => s.procedure.DefinedAtEnd s.graph t l.preheader) ∧
      (plan.upper.TermsSatisfy fun t => s.procedure.DefinedAtEnd s.graph t l.preheader) ∧
      s.procedure.DefinedAtEnd s.graph plan.length l.preheader ∧
      Droppable l s.procedure check := by
  have wf := ready.valid.wellFormed
  have d := ready.valid.describes
  have reachable := ready.simple.natural.reachable b hb
  obtain ⟨flag, code⟩ := h.code
  obtain ⟨_, _, _, _, moves⟩ := movable
  obtain ⟨rfl, rfl, rfl, rfl, rfl⟩ := Opcode.boundsCheck.inj (Option.some.inj (code.symm.trans moves))
  have operand : ∀ x ∈ (Opcode.boundsCheck index length minimum maximum true).operands,
      s.procedure.DefinedAtEnd s.graph x b := by
    obtain ⟨before, after, split⟩ := List.append_of_mem hc
    exact fun x hx => ((wf.uses b reachable).reads before check after split _ code x
      hx).definedAtEnd d reachable
  obtain ⟨home, stands, inside⟩ := h.term_mem ready.valid reachable hc
  obtain ⟨r, lowerId, upperId, ranged, hasLower, hasUpper, lowerBound, upperBound⟩ := h.bounds
  obtain ⟨isPhi, noCheck, below, foundBelow, termsBelow⟩ :=
    ready.bounded term r home lowerId ranged (.inl hasLower) stands inside
  obtain ⟨-, -, above, foundAbove, termsAbove⟩ :=
    ready.bounded term r home upperId ranged (.inr hasUpper) stands inside
  obtain rfl := Except.ok.inj (lowerBound.symm.trans foundBelow)
  obtain rfl := Except.ok.inj (upperBound.symm.trans foundAbove)
  have self : ∀ o, s.procedure.opcode? index = some o → o.isBeta = false →
      (∀ op x y flags, o ≠ .binary op x y flags) → term = index := by
    intro o op noBeta noSum
    refine (h.reads.eq_self (fun x range beta => ?_) fun op' x y flags sum => ?_).1
    · obtain rfl := Option.some.inj (op.symm.trans beta)
      cases noBeta
    · exact noSum op' x y flags (Option.some.inj (op.symm.trans sum))
  rw [h.plan]
  refine ⟨termsBelow, termsAbove, h.fixed.definedAtEnd ready.simple d hb
    (operand length (by simp [Opcode.operands])), b, index, length, minimum, maximum, hc, hb, code,
    fun i n a b m isCheck => ?_, fun inputs phi i hi => ?_⟩
  · obtain rfl := self _ isCheck rfl (by simp)
    rw [isPhi_eq isCheck] at isPhi
    cases isPhi
  · obtain rfl := self _ phi rfl (by simp)
    exact noCheck inputs phi i hi

/-- A phi that reads no check of the loop reads none in an extended procedure. -/
theorem ReadsNoCheck.extends {phi : ValueId} (h : ReadsNoCheck l f phi) (valid : f.Valid g)
    (grown : f.Extends f' g b) (exists_phi : phi < f.values.size) : ReadsNoCheck l f' phi := by
  intro inputs op i hi
  rw [grown.opcode? phi exists_phi] at op
  have exists_input := valid.wellFormed.structured.operands phi _ op i.1 (List.mem_map_of_mem hi)
  refine (h inputs op i hi).imp (fun out b home => ?_) fun other => ?_
  · exact out b (grown.home? i.1 exists_input ▸ home)
  · rwa [grown.opcode? i.1 exists_input]

/-- A check that can be dropped can still be dropped in an extended procedure. -/
theorem Droppable.extends {c : BlockId} (h : Droppable l f check) (valid : f.Valid g)
    (grown : f.Extends f' g c) : Droppable l f' check := by
  have s := valid.wellFormed.structured
  obtain ⟨b, index, length, minimum, maximum, hc, hb, code, other, noCheck⟩ := h
  have home := (s.instrs b check hc).2
  have exists_check := lt_size_of_home? home
  have exists_index := s.operands check _ code index (by simp [Opcode.operands])
  have code' := (grown.opcode? check exists_check).trans code
  refine ⟨b, index, length, minimum, maximum, grown.mem_instrsAt hc, hb, code', ?_,
    noCheck.extends valid grown exists_index⟩
  rwa [grown.opcode? index exists_index]

/-- Extending the procedure keeps the work ready. -/
theorem HoistReady.extends (h : s.HoistReady l) (grown : s.procedure.Extends f' s.graph b) :
    ({ s with procedure := f' } : Session).HoistReady l where
  valid := grown.valid
  simple := h.simple.of_describes h.valid.describes grown.valid.describes
  bounded v r b id ranged mentions home inside := by
    have old := grown.lt_of_mentions ranged mentions
    dsimp only at ranged home ⊢
    rw [grown.range? v old] at ranged
    rw [grown.home? v old] at home
    obtain ⟨isPhi, noCheck, bound, found, terms⟩ := h.bounded v r b id ranged mentions home inside
    refine ⟨?_, noCheck.extends h.valid grown old, bound, found, fun t ht =>
      grown.definedAtEnd (terms t ht)⟩
    obtain ⟨o, op⟩ := Procedure.exists_opcode? old
    rw [isPhi_eq ((grown.opcode? v old).trans op), ← isPhi_eq op, isPhi]

/-- The values are movable checks of the loop. -/
def MovableIn (l : SimpleLoop) (f : Procedure) (checks : List ValueId) : Prop :=
  ∀ c ∈ checks, IsMovable f c ∧ ∃ b ∈ l.loop.body, c ∈ f.instrsAt b

/-- Checks stay movable. -/
theorem MovableIn.extends (h : MovableIn l f checks) (grown : f.Extends f' g b) :
    MovableIn l f' checks := by
  intro c hc
  obtain ⟨⟨i, n, lo, hi, code⟩, home, inside, member⟩ := h c hc
  exact ⟨⟨i, n, lo, hi, (grown.opcode? c (lt_size_of_opcode? code)).trans code⟩, home, inside,
    grown.mem_instrsAt member⟩

/-- What the first of some checks leads to: nothing, or checks before the loop that extend the
procedure and let it be dropped. -/
theorem hoistChecks_cons {rest hoisted : List ValueId} (ready : s.HoistReady l)
    (inside : MovableIn l s.procedure (check :: rest))
    (run : hoistChecks l (check :: rest) s = .ok (t, hoisted)) :
    hoistChecks l rest s = .ok (t, hoisted) ∨
      ∃ index length term minimum maximum offset lower upper plan f others,
        hoisted = check :: others ∧
        Plans s l check index length term minimum maximum offset lower upper plan ∧
        placeChecks s.procedure s.graph l.preheader plan = .ok f ∧
        s.procedure.Extends f s.graph l.preheader ∧ Droppable l s.procedure check ∧
        hoistChecks l rest { s with procedure := f } = .ok (t, others) := by
  obtain ⟨attempt, planned, run⟩ := bind_eq_ok.mp run
  cases attempt with
  | none => exact .inl run
  | some plan =>
    obtain ⟨f, placed, run⟩ := bind_eq_ok.mp run
    obtain ⟨⟨u, others⟩, later, run⟩ := bind_eq_ok.mp run
    obtain ⟨rfl, rfl⟩ := Prod.mk.inj (pure_eq_ok.mp run)
    obtain ⟨index, length, term, minimum, maximum, offset, lower, upper, plans⟩ :=
      planHoist_spec planned
    obtain ⟨movable, b, hb, hc⟩ := inside check List.mem_cons_self
    obtain ⟨termsBelow, termsAbove, ofLength, droppable⟩ := plans.spec ready hc hb movable
    exact .inr ⟨index, length, term, minimum, maximum, offset, lower, upper, plan, f, others, rfl,
      plans, placed, placeChecks_extends ready.valid ready.simple.preheader_spec.1 termsBelow termsAbove
        ofLength placed, droppable, later⟩

/-- Placing checks before a loop extends the procedure, and what they replace can be dropped. -/
theorem hoistChecks_spec {checks hoisted : List ValueId} (ready : s.HoistReady l)
    (inside : MovableIn l s.procedure checks) (run : hoistChecks l checks s = .ok (t, hoisted)) :
    s.procedure.Extends t.procedure s.graph l.preheader ∧ t = { s with procedure := t.procedure } ∧
      hoisted.Sublist checks ∧ ∀ c ∈ hoisted, Droppable l t.procedure c := by
  induction checks generalizing s hoisted with
  | nil =>
    obtain ⟨rfl, rfl⟩ := Prod.mk.inj (Except.ok.inj run)
    exact ⟨.refl ready.valid, rfl, List.nil_sublist _, by simp⟩
  | cons check rest ih =>
    have others : MovableIn l s.procedure rest := fun c hc => inside c (List.mem_cons_of_mem _ hc)
    rcases hoistChecks_cons ready inside run with run | ⟨_, _, _, _, _, _, _, _, plan, f, hoisted,
      rfl, -, -, grown, droppable, run⟩
    · obtain ⟨grown, same, sub, droppable⟩ := ih ready others run
      exact ⟨grown, same, sub.cons check, droppable⟩
    · obtain ⟨grown', same, sub, droppable'⟩ :=
        @ih { s with procedure := f } _ (ready.extends grown) (others.extends grown) run
      refine ⟨grown.trans grown', same, sub.cons_cons check, ?_⟩
      rw [List.forall_mem_cons]
      exact ⟨droppable.extends ready.valid (grown.trans grown'), droppable'⟩

/-- The second procedure is the first one without a bounds check, and what read the check reads its
index. -/
structure Drops (f f' : Procedure) (g : FlowGraph) (check index : ValueId) : Prop
    extends Collapsed f f' check index where
  valid : f'.Valid g
  range? : ∀ w, f'.range? w = f.range? w

/-- Collapsing a check that can be dropped into its index drops it. -/
theorem Droppable.drops {f₁ : Procedure} {n : Nat} (h : Droppable l f check) (valid : f.Valid g)
    (op : f.opcode? check = some (.boundsCheck index length minimum maximum movable))
    (moved : f.moveUses check index = .ok (f₁, n)) (detached : f₁.detach check = .ok f') :
    Drops f f' g check index := by
  have structured := valid.wellFormed.structured
  obtain ⟨b, index', _, _, _, hc, hb, code, noCheck, reads⟩ := h
  obtain ⟨rfl, rfl, rfl, rfl, rfl⟩ := Opcode.boundsCheck.inj (Option.some.inj (op.symm.trans code))
  have hx : index ∈ (Opcode.boundsCheck index length minimum maximum true).operands := by
    simp [Opcode.operands]
  have kept := valid.intact.collapse hc op hx (valid.testable.handedOn check _ index op rfl) moved
    detached
  have wf : f'.WellFormed g := by
    refine (valid.wellFormed.collapse valid.describes hc op hx moved detached).resolve_right ?_
    rintro ⟨-, inputs, phi, mem⟩
    obtain ⟨i, hi, same⟩ := List.mem_map.mp mem
    rcases reads inputs phi i hi with out | other
    · exact out b (same ▸ (structured.instrs b check hc).2) hb
    · exact other _ _ _ _ _ (same ▸ op)
  have renamed := moveUses_spec structured moved
  have home : f₁.home? check = some b := by
    rw [renamed.layout.home?, (structured.instrs b check hc).2]
  refine ⟨collapsed structured hc (structured.operands check _ op index hx) moved detached,
    ⟨kept.built, wf, kept.listed, kept.testable⟩, fun w => ?_⟩
  rw [(detach_spec home detached).range?, renamed.range?]

/-- Dropping one check leaves the others droppable. -/
theorem Droppable.drop {check other index length : ValueId} (h : Droppable l f other) (s : f.Structured)
    (drops : Drops f f' g check index) (ne : other ≠ check) (hc : check ∈ f.instrsAt b)
    (hb : b ∈ l.loop.body)
    (code : f.opcode? check = some (.boundsCheck index length minimum maximum movable)) :
    Droppable l f' other := by
  obtain ⟨c, index', length', minimum', maximum', ho, hc', code', noCheck, reads⟩ := h
  -- Renaming sends checks to checks and nothing else to one.
  have checks : ∀ w i n a b m, f'.opcode? w = some (.boundsCheck i n a b m) →
      ∃ i n, f.opcode? w = some (.boundsCheck i n a b m) := by
    intro w i n a b m isCheck
    rw [drops.opcode?, Option.map_eq_some_iff] at isCheck
    obtain ⟨o, op, renamed⟩ := isCheck
    cases o <;> simp [Opcode.rename, Opcode.mapOperands] at renamed
    obtain ⟨-, -, rfl, rfl, rfl⟩ := renamed
    exact ⟨_, _, op⟩
  have fixed : ∀ w x, x ≠ check → movedUses f check index w x = x := fun w x ne =>
    (movedUses_cases f check index w x).resolve_right fun h => ne h.1
  have index_ne : index' ≠ check := by
    rintro rfl
    exact noCheck _ _ _ _ _ code
  have same : f'.opcode? other = some (.boundsCheck (movedUses f check index other index')
      (movedUses f check index other length') minimum' maximum' true) := by
    rw [drops.opcode?, code']
    rfl
  rw [fixed _ _ index_ne] at same
  refine ⟨c, index', _, minimum', maximum', ?_, hc', same, fun i n a b m isCheck => ?_,
    fun inputs phi i hi => ?_⟩
  · rw [drops.instrsAt]
    exact List.mem_filter.mpr ⟨ho, by simpa using ne⟩
  · obtain ⟨i, n, was⟩ := checks index' i n a b m isCheck
    exact noCheck i n a b m was
  · rw [drops.opcode?, Option.map_eq_some_iff] at phi
    obtain ⟨o, op, renamed⟩ := phi
    cases o <;> simp [Opcode.rename, Opcode.mapOperands] at renamed
    next olds =>
    rw [← renamed] at hi
    obtain ⟨⟨x, q⟩, hx, rfl⟩ := List.mem_map.mp hi
    have was := reads olds op (x, q) hx
    have x_ne : x ≠ check := by
      rintro rfl
      rcases was with out | other
      · exact out b (s.instrs b x hc).2 hb
      · exact other _ _ _ _ _ code
    dsimp only
    rw [fixed _ _ x_ne]
    refine was.imp (fun out home stands => ?_) fun other i n a b m isCheck => ?_
    · rw [drops.home?, if_neg x_ne] at stands
      exact out home stands
    · obtain ⟨i, n, was⟩ := checks x i n a b m isCheck
      exact other i n a b m was

/-- What dropping a check and others does: the check is dropped, and then the others. -/
theorem dropChecks_cons {rest : List ValueId} (valid : s.Valid)
    (droppable : Droppable l s.procedure check) (run : dropChecks (check :: rest) s = .ok t) :
    ∃ index length minimum maximum f stats,
      s.procedure.opcode? check = some (.boundsCheck index length minimum maximum true) ∧
      Drops s.procedure f s.graph check index ∧
      dropChecks rest { s with procedure := f, stats := stats } = .ok t := by
  obtain ⟨b, index, length, minimum, maximum, -, -, code, -⟩ := id droppable
  obtain ⟨o, op, run⟩ := bind_eq_ok.mp run
  rw [Procedure.opcode_eq_ok] at op
  obtain rfl := Option.some.inj (op.symm.trans code)
  simp only [bind_eq_ok, Prod.exists] at run
  obtain ⟨f₁, n, moved, f₂, detached, run⟩ := run
  exact ⟨index, length, minimum, maximum, f₂, _, code, droppable.drops valid code moved detached, run⟩

/-- Dropping checks keeps the procedure valid; ranges stay, and so do the places of all values but
the checks. -/
theorem dropChecks_spec (valid : s.Valid) (nodup : checks.Nodup)
    (droppable : ∀ c ∈ checks, Droppable l s.procedure c) (run : dropChecks checks s = .ok t) :
    s.Keeps t ∧ (∀ v, t.procedure.range? v = s.procedure.range? v) ∧
      ∀ v b, t.procedure.home? v = some b → s.procedure.home? v = some b := by
  induction checks generalizing s with
  | nil =>
    obtain rfl := Except.ok.inj run
    exact ⟨.refl valid, fun _ => rfl, fun _ _ => id⟩
  | cons check rest ih =>
    rw [List.nodup_cons] at nodup
    rw [List.forall_mem_cons] at droppable
    obtain ⟨index, length, minimum, maximum, f, stats, code, drops, run⟩ :=
      dropChecks_cons valid droppable.1 run
    obtain ⟨b, _, _, _, _, hc, hb, -⟩ := droppable.1
    obtain ⟨later, ranges, homes⟩ := @ih { s with procedure := f, stats := stats } drops.valid nodup.2
      (fun c hmem => (droppable.2 c hmem).drop valid.wellFormed.structured drops
        (fun same : c = check => nodup.1 (same ▸ hmem)) hc hb code) run
    refine ⟨⟨later.valid, later.graph, later.loops, later.config⟩, fun v => ?_, fun v c home => ?_⟩
    · rw [ranges, drops.range?]
    · have before := homes v c home
      rw [drops.home?] at before
      split at before
      · cases before
      · exact before

/-- The movable checks are movable and among the given instructions. -/
theorem movableChecks_spec {instrs checks : List ValueId}
    (run : movableChecks f instrs = .ok checks) :
    checks.Sublist instrs ∧ ∀ c ∈ checks, IsMovable f c := by
  induction instrs generalizing checks with
  | nil => exact Except.ok.inj run ▸ ⟨List.nil_sublist _, by simp⟩
  | cons v rest ih =>
    obtain ⟨others, ran, run⟩ := bind_eq_ok.mp run
    obtain ⟨o, op, run⟩ := bind_eq_ok.mp run
    obtain ⟨sub, movable⟩ := ih ran
    split at run
    · obtain rfl := pure_eq_ok.mp run
      rw [List.forall_mem_cons]
      exact ⟨sub.cons_cons v, ⟨_, _, _, _, opcode_eq_ok.mp op⟩, movable⟩
    · exact pure_eq_ok.mp run ▸ ⟨sub.cons v, movable⟩

/-- Distinct blocks list distinct instructions. -/
theorem nodup_instrs_of_blocks (s : f.Structured) {blocks : List BlockId} (nodup : blocks.Nodup) :
    (blocks.flatMap f.instrsAt).Nodup := by
  rw [List.nodup_flatMap]
  refine ⟨fun b _ => s.nodup_instrsAt b, nodup.imp fun {b c} ne v hb hc => ne ?_⟩
  exact Option.some.inj ((s.instrs b v hb).2.symm.trans (s.instrs c v hc).2)

/-- Moving the checks of a loop: some of the movable checks are replaced, and then dropped. -/
theorem hoist_eq_ok (valid : s.Valid) (run : s.hoist l = .ok t) :
    ∃ checks hoisted u, checks.Nodup ∧ MovableIn l s.procedure checks ∧
      hoistChecks l checks s = .ok (u, hoisted) ∧ dropChecks hoisted u = .ok t := by
  obtain ⟨checks, found, run⟩ := bind_eq_ok.mp run
  obtain ⟨⟨u, hoisted⟩, hoisting, run⟩ := bind_eq_ok.mp run
  obtain ⟨sub, movable⟩ := movableChecks_spec found
  have nodup := nodup_instrs_of_blocks valid.wellFormed.structured
    (valid.describes.order.nodup.filter l.loop.contains)
  refine ⟨checks, hoisted, u, nodup.sublist sub, fun c hc => ?_, hoisting, run⟩
  obtain ⟨b, hb, mem⟩ := List.mem_flatMap.mp (sub.subset hc)
  exact ⟨movable c hc, b, by simpa [Loop.contains] using (List.mem_filter.mp hb).2, mem⟩

/-- Moving the checks of a loop before it keeps the procedure valid. Values keep their ranges and
places, checks that are dropped apart, and new values have no symbolic bounds. -/
theorem hoist_spec (ready : s.HoistReady l) (run : s.hoist l = .ok t) :
    s.Keeps t ∧ ∀ v r id, t.procedure.range? v = some r → r.Mentions id →
      s.procedure.range? v = some r ∧
        ∀ b, t.procedure.home? v = some b → s.procedure.home? v = some b := by
  obtain ⟨checks, hoisted, u, nodup, inside, hoisting, dropping⟩ := hoist_eq_ok ready.valid run
  obtain ⟨grown, same, sub, droppable⟩ := hoistChecks_spec ready inside hoisting
  have grown_keeps : s.Keeps u := by
    rw [same]
    exact ⟨grown.valid, rfl, rfl, rfl⟩
  obtain ⟨kept, ranges, homes⟩ :=
    dropChecks_spec grown_keeps.valid (nodup.sublist sub) droppable dropping
  refine ⟨grown_keeps.trans kept, fun v r id ranged mentions => ?_⟩
  rw [ranges] at ranged
  have old := grown.lt_of_mentions ranged mentions
  refine ⟨grown.range? v old ▸ ranged, fun b home => ?_⟩
  rw [← grown.home? v old]
  exact homes v b home

end Session

/-! ### The treatment of a loop -/

namespace Arena

variable {a a' : Arena} {id : Nat} {bound : SymbolicBound}

/-- The second arena has the bounds of the first one, and perhaps more of the symbolic ones. -/
structure Grows (a a' : Arena) : Prop where
  loopBounds : a'.loopBounds = a.loopBounds
  symbolic : ∀ id bound, a.symbolic id = .ok bound → a'.symbolic id = .ok bound

/-- Nothing has grown. -/
theorem Grows.refl : a.Grows a := ⟨rfl, fun _ _ => id⟩

/-- Growing twice. -/
theorem Grows.trans {a'' : Arena} (h : a.Grows a') (h' : a'.Grows a'') : a.Grows a'' :=
  ⟨h'.loopBounds.trans h.loopBounds, fun id bound found =>
    h'.symbolic id bound (h.symbolic id bound found)⟩

/-- A bound that finds room gets the next number. -/
theorem addSymbolic?_eq_some :
    a.addSymbolic? bound = some (a', id) ↔ a.size < a.capacity ∧
      a' = { a with symbolicBounds := a.symbolicBounds.push bound } ∧ id = a.symbolicBounds.size := by
  rw [addSymbolic?]
  split
  · next room => simp [room, eq_comm]
  · next full => simp [full]

/-- The arena had room. -/
theorem addLoopBound?_eq_some {bound : LoopBound} :
    a.addLoopBound? bound = some (a', id) ↔ a.size < a.capacity ∧
      a' = { a with loopBounds := a.loopBounds.push bound } ∧ id = a.loopBounds.size := by
  rw [addLoopBound?]
  split
  · next room => simp [room, eq_comm]
  · next full => simp [full]

/-- A bound that has been added is found, and so are those that were there before. -/
theorem addSymbolic?_spec (h : a.addSymbolic? bound = some (a', id)) :
    a'.symbolic id = .ok bound ∧ a.Grows a' := by
  obtain ⟨-, rfl, rfl⟩ := addSymbolic?_eq_some.mp h
  refine ⟨by simp [symbolic], rfl, fun i b found => ?_⟩
  rw [symbolic] at found ⊢
  split at found
  · next here =>
    obtain ⟨lt, -⟩ := Array.getElem?_eq_some_iff.mp here
    rw [Array.getElem?_push_lt lt, ← Array.getElem?_eq_getElem lt, here]
    exact found
  · cases found

/-- Adding a bound on a loop leaves the other bounds alone. -/
theorem addLoopBound?_spec {bound : LoopBound} (h : a.addLoopBound? bound = some (a', id)) :
    a'.loopBound id = .ok bound ∧ a'.symbolicBounds = a.symbolicBounds ∧
      ∀ i b, a.loopBound i = .ok b → a'.loopBound i = .ok b := by
  obtain ⟨-, rfl, rfl⟩ := addLoopBound?_eq_some.mp h
  refine ⟨by simp [loopBound], rfl, fun i b found => ?_⟩
  rw [loopBound] at found ⊢
  split at found
  · next here =>
    obtain ⟨lt, -⟩ := Array.getElem?_eq_some_iff.mp here
    rw [Array.getElem?_push_lt lt, ← Array.getElem?_eq_getElem lt, here]
    exact found
  · cases found

end Arena

namespace Session

open Procedure

variable {s t : Session} {l : SimpleLoop} {these : ValueId → Prop} {e : Option AnalysisError}
  {bound : LinearSum} {boundId : Nat} {phi : ValueId} {loop : Loop} {loops : List Loop}

/-- The work while the phis of a loop's header are given their bounds: apart from the given values,
only phis of the header have symbolic bounds, and these are sums from before the loop. -/
structure Bounding (s : Session) (l : SimpleLoop) (these : ValueId → Prop) : Prop where
  valid : s.Valid
  simple : l.IsSimple s.graph s.procedure
  bounded : ∀ v r id, s.procedure.range? v = some r → r.Mentions id → these v ∨
    v ∈ s.procedure.phisAt l.header ∧ ReadsNoCheck l s.procedure v ∧ s.BoundBefore l id

/-- A phi that moves by a constant step reads no check of the loop. -/
theorem readsNoCheck_of_moves {f : Procedure} {g : FlowGraph} {phi initial next : ValueId}
    {step : Int} (simple : l.IsSimple g f) (h : l.Moves f phi initial next step) :
    ReadsNoCheck l f phi := by
  intro inputs op i hi
  rcases h.inputs.eq_or_eq simple op hi with rfl | rfl
  · exact .inl h.outside
  · refine .inr fun index length minimum maximum movable isCheck => h.moving ?_
    refine (h.offset.eq_self (fun x range beta => ?_) fun op x y flags sum => ?_).2
    · cases isCheck.symm.trans beta
    · cases isCheck.symm.trans sum

/-- Bounds stay sums from before the loop when the arena grows and the code is the same. -/
theorem BoundBefore.of_sameCode {id : Nat} (h : s.BoundBefore l id)
    (same : SameCode s.procedure t.procedure) (graph : t.graph = s.graph)
    (arena : ∀ i b, s.arena.symbolic i = .ok b → t.arena.symbolic i = .ok b) :
    t.BoundBefore l id := by
  obtain ⟨bound, found, terms⟩ := h
  exact ⟨bound, arena id bound found, fun x hx =>
    graph ▸ same.layout.definedAtEnd.mpr (terms x hx)⟩

/-- Notes change no read. -/
theorem ReadsNoCheck.of_sameCode {f f' : Procedure} (h : ReadsNoCheck l f phi) (same : SameCode f f') :
    ReadsNoCheck l f' phi := by
  intro inputs op i hi
  rw [same.opcode?] at op
  refine (h inputs op i hi).imp (fun out b home => out b (same.layout.home? i.1 ▸ home)) fun other => ?_
  rwa [same.opcode?]

/-- Giving a phi its bounds does nothing when there are none. Otherwise the lower and then the upper
bound are added to the arena, which may be full at either point, and both are noted. -/
theorem boundPhi_steps (run : boundPhi l boundId bound s phi = .ok (t, e)) :
    (t = s ∧ e = none) ∨
    ∃ bounds, (l.phiBounds s.procedure boundId bound phi).run = .ok (some bounds) ∧
      ((t = s ∧ ∃ capacity, e = some (.arenaFull capacity)) ∨
      ∃ a lower, s.arena.addSymbolic? bounds.lower = some (a, lower) ∧
        ((t = { s with arena := a } ∧ ∃ capacity, e = some (.arenaFull capacity)) ∨
        ∃ a' upper stats, a.addSymbolic? bounds.upper = some (a', upper) ∧
          t = { s with
            procedure := s.procedure.setRange phi (some (bounds.range.withBounds lower upper))
            arena := a', stats := stats } ∧ e = none)) := by
  obtain ⟨attempt, found, run⟩ := bind_eq_ok.mp run
  cases attempt with
  | none =>
    obtain ⟨rfl, rfl⟩ := Prod.mk.inj (pure_eq_ok.mp run)
    exact .inl ⟨rfl, rfl⟩
  | some bounds =>
    refine .inr ⟨bounds, found, ?_⟩
    simp only [addSymbolic] at run
    cases first : s.arena.addSymbolic? bounds.lower with
    | none =>
      simp only [first] at run
      obtain ⟨rfl, rfl⟩ := Prod.mk.inj (pure_eq_ok.mp run)
      exact .inl ⟨rfl, _, rfl⟩
    | some lower =>
      obtain ⟨a, lower⟩ := lower
      refine .inr ⟨a, lower, rfl, ?_⟩
      simp only [first] at run
      cases second : a.addSymbolic? bounds.upper with
      | none =>
        simp only [second] at run
        obtain ⟨rfl, rfl⟩ := Prod.mk.inj (pure_eq_ok.mp run)
        exact .inl ⟨rfl, _, rfl⟩
      | some upper =>
        obtain ⟨a', upper⟩ := upper
        simp only [second] at run
        obtain ⟨rfl, rfl⟩ := Prod.mk.inj (pure_eq_ok.mp run)
        exact .inr ⟨a', upper, _, rfl, rfl, rfl⟩

/-- What giving a phi its bounds can do: nothing, give up on a full arena, or note the bounds. -/
theorem boundPhi_cases (run : boundPhi l boundId bound s phi = .ok (t, e)) :
    (t = s ∧ e = none) ∨
    (∃ arena capacity, s.arena.Grows arena ∧ t = { s with arena := arena } ∧
      e = some (.arenaFull capacity)) ∨
    ∃ bounds lower upper arena stats,
      (l.phiBounds s.procedure boundId bound phi).run = .ok (some bounds) ∧ s.arena.Grows arena ∧
      arena.symbolic lower = .ok bounds.lower ∧ arena.symbolic upper = .ok bounds.upper ∧
      t = { s with
        procedure := s.procedure.setRange phi (some (bounds.range.withBounds lower upper))
        arena := arena, stats := stats } ∧ e = none := by
  rcases boundPhi_steps run with nothing | ⟨bounds, found, ⟨rfl, capacity, full⟩ |
    ⟨a, lower, first, ⟨rfl, capacity, full⟩ | ⟨a', upper, stats, second, rfl, rfl⟩⟩⟩
  · exact .inl nothing
  · exact .inr (.inl ⟨_, capacity, .refl, rfl, full⟩)
  · exact .inr (.inl ⟨a, capacity, (Arena.addSymbolic?_spec first).2, rfl, full⟩)
  · obtain ⟨foundLower, grows⟩ := Arena.addSymbolic?_spec first
    obtain ⟨foundUpper, grows'⟩ := Arena.addSymbolic?_spec second
    exact .inr (.inr ⟨bounds, lower, upper, a', stats, found, grows.trans grows',
      grows'.symbolic _ _ foundLower, foundUpper, rfl, rfl⟩)

/-- Giving a phi its bounds keeps the code, and what the bounds are made of. -/
theorem boundPhi_spec (h : s.Bounding l these) (member : phi ∈ s.procedure.phisAt l.header)
    (terms : bound.TermsSatisfy fun x => s.procedure.DefinedAtEnd s.graph x l.preheader)
    (run : boundPhi l boundId bound s phi = .ok (t, e)) :
    t.Bounding l these ∧ SameCode s.procedure t.procedure ∧ s.Keeps t := by
  rcases boundPhi_cases run with ⟨rfl, rfl⟩ | ⟨arena, capacity, grows, rfl, rfl⟩ |
    ⟨bounds, lower, upper, arena, stats, found, grows, foundLower, foundUpper, rfl, rfl⟩
  · exact ⟨h, .refl, .refl h.valid⟩
  · refine ⟨⟨h.valid, h.simple, fun v r id ranged mentions => ?_⟩, .refl,
      ⟨h.valid, rfl, rfl, rfl⟩⟩
    refine (h.bounded v r id ranged mentions).imp_right fun ⟨hv, noCheck, before⟩ =>
      ⟨hv, noCheck, before.of_sameCode .refl rfl grows.symbolic⟩
  · have same : SameCode s.procedure
        (s.procedure.setRange phi (some (bounds.range.withBounds lower upper))) :=
      sameCode_setRange phi _
    have valid := h.valid.of_sameCode same
    refine ⟨⟨valid, h.simple.of_describes h.valid.describes valid.describes,
      fun v r id ranged mentions => ?_⟩, same, ⟨valid, rfl, rfl, rfl⟩⟩
    dsimp only at ranged ⊢
    rw [same.layout.phisAt]
    rw [range?_setRange] at ranged
    split at ranged
    · next own =>
      subst own
      obtain ⟨value, initial, next, step, first, last, firstRange, reach, valued, moves, sums, -, -,
        boundsOf⟩ := SimpleLoop.phiBounds_spec found
      have header := (h.valid.wellFormed.structured.phis _ v member).2
      obtain ⟨ofFirst, ofLast⟩ :=
        sums.terms (moves.inputs.definedAtEnd h.valid h.simple header) terms
      obtain ⟨ofLower, ofUpper⟩ := boundsOf.terms ofFirst ofLast
      obtain ⟨_, -, noted⟩ := Option.bind_eq_some_iff.mp ranged
      obtain rfl := Option.some.inj noted
      refine .inr ⟨member, (readsNoCheck_of_moves h.simple moves).of_sameCode same, ?_⟩
      rcases mentions with isLower | isUpper
      · obtain rfl := Option.some.inj isLower
        exact ⟨bounds.lower, foundLower, fun x hx => same.layout.definedAtEnd.mpr (ofLower x hx)⟩
      · obtain rfl := Option.some.inj isUpper
        exact ⟨bounds.upper, foundUpper, fun x hx => same.layout.definedAtEnd.mpr (ofUpper x hx)⟩
    · exact (h.bounded v r id ranged mentions).imp_right fun ⟨hv, noCheck, before⟩ =>
        ⟨hv, noCheck.of_sameCode same, before.of_sameCode same rfl grows.symbolic⟩

/-- No value in one of the loops has symbolic bounds. -/
def SymbolicOutside (s : Session) (loops : List Loop) : Prop :=
  ∀ v r id, s.procedure.range? v = some r → r.Mentions id → ∀ b, s.procedure.home? v = some b →
    ∀ l ∈ loops, b ∉ l.body

/-- Giving the phis of a header their bounds keeps the code, and what the bounds are made of. -/
theorem forEach_boundPhi_spec {phis : List ValueId} (h : s.Bounding l these)
    (members : ∀ phi ∈ phis, phi ∈ s.procedure.phisAt l.header)
    (terms : bound.TermsSatisfy fun x => s.procedure.DefinedAtEnd s.graph x l.preheader)
    (run : forEach (boundPhi l boundId bound) phis s = .ok (t, e)) :
    t.Bounding l these ∧ SameCode s.procedure t.procedure ∧ s.Keeps t := by
  refine forEach_keeps
    (fun u => u.Bounding l these ∧ SameCode s.procedure u.procedure ∧ s.Keeps u)
    (fun phi hphi u v e kept run => ?_) ⟨h, .refl, .refl h.valid⟩ run
  obtain ⟨bounding, same, keeps⟩ := kept
  obtain ⟨bounding', same', keeps'⟩ := boundPhi_spec bounding
    (same.layout.phisAt l.header ▸ members phi hphi)
    (fun x hx => keeps.graph ▸ same.layout.definedAtEnd.mpr (terms x hx)) run
  exact ⟨bounding', same.trans same', keeps.trans keeps'⟩

/-- What the treatment of a loop can do: nothing, give up on a full arena, or bound the phis of its
header and perhaps move its checks. -/
theorem boundLoop_cases (run : s.boundLoop loop = .ok (t, e)) :
    (t = s ∧ ∀ r ∈ e, ∃ capacity, r = .arenaFull capacity) ∨
    ∃ l test sum arena id stats block u gaveUp, SimpleLoop.ofLoop? loop = some l ∧
      s.procedure.isMarked l.header = false ∧
      l.bound s.procedure s.graph = .ok (some (test, sum)) ∧
      s.arena.addLoopBound? ⟨l.header, test, sum⟩ = some (arena, id) ∧
      s.procedure.blocks[l.header]? = some block ∧
      forEach (boundPhi l id sum) block.phis { s with arena := arena, stats := stats } =
        .ok (u, gaveUp) ∧
      (t = u ∧ e = gaveUp ∨
        gaveUp = none ∧ e = none ∧ u.config.hoistChecks = true ∧ u.hoist l = .ok t) := by
  rw [boundLoop] at run
  split at run
  · obtain ⟨rfl, rfl⟩ := Prod.mk.inj (pure_eq_ok.mp run)
    exact .inl ⟨rfl, by simp⟩
  · next unmarked =>
    split at run
    · obtain ⟨rfl, rfl⟩ := Prod.mk.inj (pure_eq_ok.mp run)
      exact .inl ⟨rfl, by simp⟩
    · next l found =>
      obtain ⟨bound, bounding, run⟩ := bind_eq_ok.mp run
      cases bound with
      | none =>
        obtain ⟨rfl, rfl⟩ := Prod.mk.inj (pure_eq_ok.mp run)
        exact .inl ⟨rfl, by simp⟩
      | some bound =>
        dsimp only at run
        split at run
        · obtain ⟨rfl, rfl⟩ := Prod.mk.inj (pure_eq_ok.mp run)
          exact .inl ⟨rfl, fun r hr => ⟨_, (Option.mem_some.mp hr).symm⟩⟩
        · next arena id added =>
          obtain ⟨block, header, run⟩ := bind_eq_ok.mp run
          obtain ⟨⟨u, gaveUp⟩, phis, run⟩ := bind_eq_ok.mp run
          obtain ⟨rfl, -⟩ := SimpleLoop.ofLoop?_eq_some found
          refine .inr ⟨l, _, _, arena, id, _, block, u, gaveUp, found,
            by simpa [SimpleLoop.header] using unmarked, bounding, added, block_eq_ok.mp header, phis,
            ?_⟩
          cases gaveUp with
          | some r =>
            obtain ⟨rfl, rfl⟩ := Prod.mk.inj (pure_eq_ok.mp run)
            exact .inl ⟨rfl, rfl⟩
          | none =>
            dsimp only at run
            split at run
            · next moves =>
              obtain ⟨w, hoisting, run⟩ := bind_eq_ok.mp run
              obtain ⟨rfl, rfl⟩ := Prod.mk.inj (pure_eq_ok.mp run)
              exact .inr ⟨rfl, rfl, moves, hoisting⟩
            · obtain ⟨rfl, rfl⟩ := Prod.mk.inj (pure_eq_ok.mp run)
              exact .inl ⟨rfl, rfl⟩

/-- What the treatment of a natural loop can do: nothing, or it finds a test that every round passes, and
goes on with the phis of the header and the checks in the loop. -/
theorem boundLoop_natural (d : s.graph.Describes s.procedure)
    (natural : loop.IsNatural s.graph s.procedure) (run : s.boundLoop loop = .ok (t, e)) :
    t = s ∨ ∃ l test sum b arena id stats block u gaveUp, SimpleLoop.ofLoop? loop = some l ∧
      loop = l.loop ∧ l.IsSimple s.graph s.procedure ∧
      (b ∈ l.loop.body ∧ b ≠ l.header ∧ s.graph.Above b l.backedge) ∧
      l.IsExitTest s.procedure s.graph b test sum ∧
      s.arena.addLoopBound? ⟨l.header, test, sum⟩ = some (arena, id) ∧
      s.procedure.blocks[l.header]? = some block ∧
      forEach (boundPhi l id sum) block.phis { s with arena := arena, stats := stats } =
        .ok (u, gaveUp) ∧
      (t = u ∨ u.hoist l = .ok t) := by
  refine (boundLoop_cases run).imp And.left ?_
  rintro ⟨l, test, sum, arena, id, stats, block, u, gaveUp, found, -, bounding, added, header, phis, ends⟩
  obtain ⟨rfl, backedges, preheaders⟩ := SimpleLoop.ofLoop?_eq_some found
  have simple : l.IsSimple s.graph s.procedure := ⟨natural, backedges, preheaders⟩
  obtain ⟨b, hb, ne, upper, exit⟩ := SimpleLoop.bound_spec simple d bounding
  exact ⟨l, test, sum, b, arena, id, stats, block, u, gaveUp, found, rfl, simple, ⟨hb, ne, upper⟩, exit,
    added, header, phis, ends.imp And.left fun ⟨_, _, _, hoisting⟩ => hoisting⟩

/-- The treatment of a loop gives up on a full arena only. -/
theorem boundLoop_reason (run : s.boundLoop loop = .ok (t, e)) :
    ∀ r ∈ e, ∃ capacity, r = .arenaFull capacity := by
  rcases boundLoop_cases run with ⟨-, reason⟩ |
    ⟨l, test, sum, arena, id, stats, block, u, gaveUp, -, -, -, -, -, phis, ends⟩
  · exact reason
  have reason : ∀ r ∈ gaveUp, ∃ capacity, r = .arenaFull capacity := by
    refine forEach_reason (fun phi _ u w e step => ?_) phis
    rcases boundPhi_cases step with ⟨-, rfl⟩ | ⟨_, capacity, -, -, rfl⟩ |
      ⟨_, _, _, _, _, -, -, -, -, -, rfl⟩
    · simp
    · exact fun r hr => ⟨capacity, (Option.mem_some.mp hr).symm⟩
    · simp
  rcases ends with ⟨-, rfl⟩ | ⟨-, rfl, -⟩
  · exact reason
  · simp

/-- Giving the phis of a header their bounds keeps the code and makes the work ready for the checks of
the loop. Values in later loops have no symbolic bounds. -/
theorem forEach_boundPhi_ready {block : Block} (valid : s.Valid)
    (simple : l.IsSimple s.graph s.procedure) (outside : s.SymbolicOutside (l.loop :: loops))
    (later : ∀ l' ∈ loops, l.header ∉ l'.body) (header : s.procedure.blocks[l.header]? = some block)
    (terms : bound.TermsSatisfy fun x => s.procedure.DefinedAtEnd s.graph x l.preheader)
    (run : forEach (boundPhi l boundId bound) block.phis s = .ok (t, e)) :
    s.Keeps t ∧ t.HoistReady l ∧ t.SymbolicOutside loops := by
  have start : s.Bounding l fun v => ∀ b, s.procedure.home? v = some b →
      ∀ l' ∈ l.loop :: loops, b ∉ l'.body :=
    ⟨valid, simple, fun v r id ranged mentions => .inl (outside v r id ranged mentions)⟩
  obtain ⟨bounded, same, keeps⟩ := forEach_boundPhi_spec start
    (fun phi hphi => mem_phisAt.mpr ⟨block, header, hphi⟩) terms run
  refine ⟨keeps, ⟨bounded.valid, bounded.simple, fun v r b id ranged mentions home inside => ?_⟩,
    fun v r id ranged mentions b home l' hl => ?_⟩
  · rcases bounded.bounded v r id ranged mentions with before | ⟨hv, noCheck, bound⟩
    · exact absurd inside (before b (same.layout.home? v ▸ home) l.loop List.mem_cons_self)
    · exact ⟨(bounded.valid.wellFormed.structured.phis _ v hv).1, noCheck, bound⟩
  · rcases bounded.bounded v r id ranged mentions with before | ⟨hv, -⟩
    · exact before b (same.layout.home? v ▸ home) l' (List.mem_cons_of_mem _ hl)
    · have atHeader := (bounded.valid.wellFormed.structured.phis _ v hv).2
      obtain rfl := Option.some.inj (atHeader.symm.trans home)
      exact later l' hl

/-- The treatment of a loop keeps the procedure valid. Afterwards no value in a later loop has symbolic
bounds. -/
theorem boundLoop_spec {rest : List Loop} (valid : s.Valid)
    (natural : loop.IsNatural s.graph s.procedure) (outside : s.SymbolicOutside (loop :: rest))
    (later : ∀ l ∈ rest, loop.header ∉ l.body) (run : s.boundLoop loop = .ok (t, e)) :
    s.Keeps t ∧ t.SymbolicOutside rest := by
  rcases boundLoop_natural valid.describes natural run with rfl | ⟨l, test, sum, b, arena, id, stats,
    block, u, gaveUp, -, rfl, simple, ⟨hb, ne, -⟩, exit, -, header, phis, ends⟩
  · exact ⟨.refl valid, fun v r id ranged mentions b home l hl =>
      outside v r id ranged mentions b home l (List.mem_cons_of_mem _ hl)⟩
  obtain ⟨kept, ready, outside'⟩ :=
    @forEach_boundPhi_ready { s with arena := arena, stats := stats } u l _ _ _ rest _ valid simple
      outside later header (exit.terms valid simple hb ne) phis
  have keeps : s.Keeps u := ⟨kept.valid, kept.graph, kept.loops, kept.config⟩
  rcases ends with rfl | hoisting
  · exact ⟨keeps, outside'⟩
  · obtain ⟨hoisted, ranges⟩ := hoist_spec ready hoisting
    refine ⟨keeps.trans hoisted, fun v r id ranged mentions b home l' hl => ?_⟩
    obtain ⟨had, homes⟩ := ranges v r id ranged mentions
    exact outside' v r id had mentions b (homes b home) l' hl

/-- What the treatment of a loop keeps is kept by that of several loops. Afterwards no value in a loop that
is still to come has symbolic bounds. -/
theorem forEach_boundLoop_invariant {loops rest : List Loop} (holds : Session → Prop)
    (keep : ∀ u v l later e, holds u → u.Valid → l.IsNatural u.graph u.procedure →
      u.SymbolicOutside (l :: later) → (∀ l' ∈ later, l.header ∉ l'.body) →
      u.boundLoop l = .ok (v, e) → holds v)
    (start : holds s) (valid : s.Valid) (natural : ∀ l ∈ loops, l.IsNatural s.graph s.procedure)
    (ordered : (loops ++ rest).Pairwise fun l l' => l.header ∉ l'.body)
    (outside : s.SymbolicOutside (loops ++ rest)) (run : forEach boundLoop loops s = .ok (t, e)) :
    holds t ∧ s.Keeps t ∧ (e = none → t.SymbolicOutside rest) := by
  induction loops generalizing s with
  | nil =>
    obtain ⟨rfl, rfl⟩ := Prod.mk.inj (Except.ok.inj run)
    exact ⟨start, .refl valid, fun _ => outside⟩
  | cons l later ih =>
    rw [List.forall_mem_cons] at natural
    rw [List.cons_append, List.pairwise_cons] at ordered
    obtain ⟨⟨u, gaveUp⟩, first, run⟩ := bind_eq_ok.mp run
    obtain ⟨keeps, outside'⟩ := boundLoop_spec valid natural.1 outside ordered.1 first
    have held := keep _ _ _ _ _ start valid natural.1 outside ordered.1 first
    cases gaveUp with
    | some r =>
      obtain ⟨rfl, rfl⟩ := Prod.mk.inj (pure_eq_ok.mp run)
      exact ⟨held, keeps, nofun⟩
    | none =>
      have natural' : ∀ l ∈ later, l.IsNatural u.graph u.procedure := fun l hl =>
        keeps.graph ▸ (natural.2 l hl).of_describes valid.describes
          (keeps.graph ▸ keeps.valid.describes)
      obtain ⟨held', keeps', none⟩ := ih held keeps.valid natural' ordered.2 outside' run
      exact ⟨held', keeps.trans keeps', none⟩

/-- The treatment of all loops keeps the procedure valid. -/
theorem forEach_boundLoop_spec (valid : s.Valid)
    (natural : ∀ l ∈ loops, l.IsNatural s.graph s.procedure)
    (ordered : loops.Pairwise fun l l' => l.header ∉ l'.body) (outside : s.SymbolicOutside loops)
    (run : forEach boundLoop loops s = .ok (t, e)) : s.Keeps t := by
  rw [← List.append_nil loops] at ordered outside
  exact (forEach_boundLoop_invariant (fun _ => True) (fun _ _ _ _ _ _ _ _ _ _ _ => trivial) trivial
    valid natural ordered outside run).2.1

/-- The loops of a procedure are natural ones, and the header of a loop is in no later loop. -/
structure LoopsNatural (s : Session) : Prop where
  natural : ∀ l ∈ s.loops, l.IsNatural s.graph s.procedure
  ordered : s.loops.Pairwise fun l l' => l.header ∉ l'.body

end Session

/-- The loops found in a procedure are natural ones, and the header of a loop is in no later loop. -/
theorem FlowGraph.loops_spec {f : Procedure} {g : FlowGraph} (d : g.Describes f) :
    (∀ l ∈ g.loops f, l.IsNatural g f) ∧
      (g.loops f).Pairwise fun l l' => l.header ∉ l'.body := by
  refine ⟨fun l => loops_natural d, (loops_ordered d).imp_of_mem fun {l l'} _ hl' lt inside => ?_⟩
  have := d.idxOf_le_of_above ((loops_natural d hl').below _ inside)
  omega

namespace Session

open Procedure

variable {s t : Session} {e : Option AnalysisError} {v : ValueId}

/-- Notes about ranges and blocks keep the procedure valid. -/
theorem SameWork.keeps (same : s.SameWork t) (valid : s.Valid) : s.Keeps t := by
  refine ⟨?_, same.graph, same.loops, same.config⟩
  rw [Valid, same.graph]
  exact valid.of_sameCode same.code

/-- What sharper flags do: nothing, or int32 arithmetic without wrap-around gets other flags. -/
theorem sharpenFlags_cases (h : s.Valid) (run : s.sharpenFlags v = .ok t) :
    t = s ∨ ∃ b op lhs rhs flags range l r sharp, v ∈ s.procedure.instrsAt b ∧
      s.procedure.opcode? v = some (.binary op lhs rhs flags) ∧
      s.procedure.type? v = some .int32 ∧ flags.wrapping = false ∧
      flags.sharpen op range l r = some sharp ∧
      s.procedure.Recoded t.procedure v (.binary op lhs rhs sharp) ∧
      (∀ w, t.procedure.type? w = s.procedure.type? w) ∧ t.graph = s.graph ∧ t.loops = s.loops ∧
      t.config = s.config := by
  obtain ⟨value, found, run⟩ := bind_eq_ok.mp run
  rw [value_eq_ok] at found
  split at run
  · next op lhs rhs flags range binary _ =>
    split at run
    · next placed =>
      obtain ⟨l, -, run⟩ := bind_eq_ok.mp run
      obtain ⟨r, -, run⟩ := bind_eq_ok.mp run
      split at run
      · exact .inl (pure_eq_ok.mp run).symm
      · next sharp sharpened =>
        obtain rfl := pure_eq_ok.mp run
        obtain ⟨b, stands⟩ := Option.isSome_iff_exists.mp placed.1
        have structured := h.wellFormed.structured
        have code : s.procedure.opcode? v = some (.binary op lhs rhs flags) := by
          rw [opcode?_of_value found, binary]
        have hv := structured.mem_instrsAt_of_home h.listed ((home?_of_value found).trans stands) code
          rfl
        refine .inr ⟨b, op, lhs, rhs, flags, range, l, r, sharp, hv, code,
          (type?_of_value found).trans (congrArg some placed.2.1), placed.2.2, sharpened,
          recoded_modifyValue structured hv rfl (fun _ => rfl) (fun _ => rfl) fun _ => rfl,
          fun w => ?_, rfl, rfl, rfl⟩
        rw [type?_modifyValue]
        split
        · next own => rw [own]; rfl
        · rfl
    · exact .inl (pure_eq_ok.mp run).symm
  · exact .inl (pure_eq_ok.mp run).symm

/-- Sharper flags change no operand. -/
theorem sharpenFlags_keeps (h : s.Valid) (run : s.sharpenFlags v = .ok t) :
    s.Keeps t := by
  rcases sharpenFlags_cases h run with rfl | ⟨b, op, lhs, rhs, flags, _, _, _, sharp, hv, code, -, -, -,
    recoded, types, graph, loops, config⟩
  · exact .refl h
  · have wf := h.wellFormed
    refine ⟨?_, graph, loops, config⟩
    rw [Session.Valid, graph]
    exact ⟨recoded.layout.flow.build.trans h.built,
      wf.recode hv recoded rfl (fun x hx => wf.structured.operands v _ code x hx)
        fun hb before after split x hx => (wf.uses b hb).reads before v after split _ code x hx,
      recoded.layout.allListed h.listed,
      h.testable.recode recoded (fun w => isTestable_congr (types w)) rfl⟩

/-- An analysis gives up when the ranges do not converge, or in the treatment of a loop. -/
theorem analyze_gaveUp {e : AnalysisError} (run : s.analyze = .ok (t, some e)) :
    s.fixedPoint = .ok (t, some e) ∨ ∃ u, s.fixedPoint = .ok (u, none) ∧
      forEach boundLoop u.loops u = .ok (t, some e) ∧ ∃ capacity, e = .arenaFull capacity := by
  obtain ⟨⟨u, early⟩, reached, run⟩ := bind_eq_ok.mp run
  cases early with
  | some r =>
    obtain ⟨rfl, same⟩ := Prod.mk.inj (pure_eq_ok.mp run)
    exact .inl (same ▸ reached)
  | none =>
    obtain ⟨⟨w, late⟩, loops, run⟩ := bind_eq_ok.mp run
    cases late with
    | some r =>
      obtain ⟨rfl, same⟩ := Prod.mk.inj (pure_eq_ok.mp run)
      obtain rfl := Option.some.inj same
      have reason := forEach_reason (fun loop _ u w e step => boundLoop_reason step) loops
      exact .inr ⟨u, reached, loops, reason r rfl⟩
    | none =>
      obtain ⟨⟨w, _⟩, -, run⟩ := bind_eq_ok.mp run
      obtain ⟨x, -, run⟩ := bind_eq_ok.mp run
      cases (Prod.mk.inj (pure_eq_ok.mp run)).2

/-- The fixed point gives no value symbolic bounds. -/
theorem fixedPoint_symbolicOutside {loops : List Loop} (run : s.fixedPoint = .ok (t, e)) :
    t.SymbolicOutside loops := by
  intro v r id ranged mentions
  exact absurd ⟨r, ranged, mentions⟩ (not_mentions_of_fixedPoint run)

/-- The analysis keeps the procedure valid, and gives up only when the ranges do not converge or the
arena is full. -/
theorem analyze_keeps (valid : s.Valid) (loops : s.LoopsNatural) (run : s.analyze = .ok (t, e)) :
    s.Keeps t ∧
      ∀ r ∈ e, (∃ passes, r = .notConverged passes) ∨ ∃ capacity, r = .arenaFull capacity := by
  refine ⟨?_, fun r hr => ?_⟩
  swap
  · obtain rfl := Option.mem_def.mp hr
    rcases analyze_gaveUp run with early | ⟨_, -, -, full⟩
    · exact .inl ((fixedPoint_sameWork early).2 r rfl)
    · exact .inr full
  obtain ⟨⟨u, gaveUp⟩, fixed, run⟩ := bind_eq_ok.mp run
  have keeps := (fixedPoint_sameWork fixed).1.keeps valid
  cases gaveUp with
  | some r =>
    exact (Prod.mk.inj (pure_eq_ok.mp run)).1 ▸ keeps
  | none =>
    obtain ⟨⟨w, gaveUp⟩, bounded, run⟩ := bind_eq_ok.mp run
    have natural : ∀ l ∈ u.loops, l.IsNatural u.graph u.procedure := fun l hl =>
      keeps.graph ▸ (loops.natural l (keeps.loops ▸ hl)).of_describes valid.describes
        (keeps.graph ▸ keeps.valid.describes)
    have kept := forEach_boundLoop_spec keeps.valid natural (keeps.loops ▸ loops.ordered)
      (fixedPoint_symbolicOutside fixed) bounded
    cases gaveUp with
    | some r => exact (Prod.mk.inj (pure_eq_ok.mp run)).1 ▸ keeps.trans kept
    | none =>
      obtain ⟨⟨x, changed⟩, passed, run⟩ := bind_eq_ok.mp run
      obtain ⟨y, sharpened, run⟩ := bind_eq_ok.mp run
      obtain ⟨rfl, -⟩ := Prod.mk.inj (pure_eq_ok.mp run)
      have start := (keeps.trans kept).trans ((pass_sameWork passed).keeps kept.valid)
      refine foldlM_invariant (fun z => s.Keeps z)
        (fun v _ z z' holds step => holds.trans (sharpenFlags_keeps holds.valid step)) ?_ sharpened
      exact ⟨start.valid, start.graph, start.loops, start.config⟩

end Session

end Rangefinder
