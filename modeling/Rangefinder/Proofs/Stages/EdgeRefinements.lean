import Rangefinder.Proofs.Range.Comparisons
import Rangefinder.Proofs.Stages.Insertion

/-!
# Betas are true on their edge

A beta stands in a block that is entered over one side of a branch only. Whatever numbers the branch
compares: if the comparison sends control into the block, the value that the beta refines lies in its
range. The comparison meant here is the one that the finished procedure contains. Betas are placed in
reverse postorder, and a beta changes uses in code below its block only, so the comparison above a beta
and the branch that tests it stay as they were when the beta was placed. The beta itself may change
once, when a value is compared with itself and both sides are refined; control then never takes the
edge.

Only the verifier's rules are assumed. A value need not be listed where it stands, so a comparison may
read what is computed elsewhere, and the insertion may give up on a value that stands nowhere. It does
not fail otherwise.
-/

namespace Rangefinder

/-- A value of the type may be the number: int32 values are int32 integers, doubles may be any
double. -/
structure ValueType.Admits (type : ValueType) (a : Number) : Prop where
  int32 : type = .int32 → ∃ n : Int, IsInt32 n ∧ a.toRat? = some (n : Rat)
  double : type = .double → a.IsDouble

/-- Such numbers are doubles. -/
theorem ValueType.Admits.isDouble {type : ValueType} {a : Number} (h : type.Admits a)
    (number : type.isNumber = true) : a.IsDouble := by
  cases type with
  | int32 =>
    obtain ⟨n, fits, value⟩ := h.int32 rfl
    exact Number.isDouble_of_isInt32 fits value
  | double => exact h.double rfl
  | _ => cases number

namespace Procedure

/-- The value may be the number as far as its type and its definition tell: a constant is itself. -/
structure MayBe (f : Procedure) (v : ValueId) (a : Number) : Prop where
  typed : ∀ type, f.type? v = some type → type.Admits a
  const : ∀ literal, f.opcode? v = some (.const literal) → a = literal.toNumber

variable {f f' : Procedure} {g : FlowGraph} {op : CompareOp} {lhs rhs : ValueId} {taken : Bool}
  {l : List (ValueId × Range)} {val : ValueId → Number} {range : Range} {a b : Number}

/-! ### What a comparison refines -/

/-- The number of a constant is that of its literal. -/
theorem MayBe.eq_constNumber {v : ValueId} {a c : Number} (h : f.MayBe v a)
    (const : f.constNumber? v = .ok (some c)) : a = c := by
  obtain ⟨o, code, const⟩ := bind_eq_ok.mp const
  rw [opcode_eq_ok] at code
  split at const
  · exact Option.some.inj (pure_eq_ok.mp const) ▸ h.const _ code
  · exact Option.some.inj (pure_eq_ok.mp const) ▸ h.const _ code
  · cases pure_eq_ok.mp const

/-- The smaller of two int32 values is not the greatest int32, and the greater one not the least. -/
theorem contains_of_lt {below above : Range} (ha : ValueType.int32.Admits a)
    (hb : ValueType.int32.Admits b) (lt : a.lt b = true)
    (ofBelow : Range.int32 int32Min (int32Max - 1) = .ok below)
    (ofAbove : Range.int32 (int32Min + 1) int32Max = .ok above) :
    below.contains a = true ∧ above.contains b = true := by
  obtain ⟨m, fitsA, valueA⟩ := ha.int32 rfl
  obtain ⟨n, fitsB, valueB⟩ := hb.int32 rfl
  rw [Number.lt_of_toRat? valueA valueB, decide_eq_true_eq] at lt
  rw [Range.contains_iff_of_toRat? valueA, Range.contains_iff_of_toRat? valueB,
    ← Range.contains_ofInt, ← Range.contains_ofInt]
  obtain ⟨least, -⟩ := id fitsA
  obtain ⟨-, greatest⟩ := id fitsB
  exact ⟨(Range.int32_contains fitsA least (by omega)).of_eq ofBelow,
    (Range.int32_contains fitsB (by omega) greatest).of_eq ofAbove⟩

/-- A strict comparison of int32 values with an outcome says that one of them is below the other. -/
theorem lt_of_outcome (ha : ValueType.int32.Admits a) (hb : ValueType.int32.Admits b)
    (outcome : op.holds a b = taken) :
    ((if taken then op else op.negate) = .lt → a.lt b = true) ∧
      ((if taken then op else op.negate) = .gt → b.lt a = true) := by
  have number : ∀ {a : Number}, ValueType.int32.Admits a → a ≠ .nan := by
    rintro _ h rfl
    obtain ⟨n, -, value⟩ := h.int32 rfl
    cases value
  have holds : (if taken then op else op.negate).holds a b = true := by
    cases taken with
    | true => exact outcome
    | false => exact CompareOp.holds_negate_of_not (number ha) (number hb) outcome
  exact ⟨fun strict => by rwa [strict] at holds, fun strict => by rwa [strict] at holds⟩

/-- A refinement holds whatever the refined value may be when the comparison has the outcome. -/
theorem refinements_true (run : f.refinements op lhs rhs taken = .ok l)
    (left : f.MayBe lhs (val lhs)) (right : f.MayBe rhs (val rhs))
    (outcome : op.holds (val lhs) (val rhs) = taken) :
    ∀ r ∈ l, r.2.contains (val r.1) = true := by
  rcases refinements_cases run with rfl |
    ⟨v, w, op', type, c, r, sides, typed, number, ⟨type', typed', number'⟩, const, refined, rfl⟩ |
    ⟨x, y, below, above, sides, typedX, typedY, ofBelow, ofAbove, rfl⟩
  · simp
  · have facts : f.MayBe v (val v) ∧ f.MayBe w (val w) ∧ op'.holds (val v) (val w) = taken := by
      rcases sides with ⟨rfl, rfl, rfl⟩ | ⟨rfl, rfl, rfl⟩
      · exact ⟨left, right, outcome⟩
      · exact ⟨right, left, CompareOp.holds_reverse.trans outcome⟩
    obtain ⟨mine, other, outcome⟩ := facts
    obtain rfl := other.eq_constNumber const
    have whole : (type == .int32) = true → ∃ n : Int, (val v).toRat? = some (n : Rat) := by
      intro int32
      obtain ⟨n, -, value⟩ := (mine.typed type typed).int32 (beq_iff_eq.mp int32)
      exact ⟨n, value⟩
    simpa using CompareOp.refinement_contains ((other.typed type' typed').isDouble number')
      ((mine.typed type typed).isDouble number) whole refined outcome
  · have facts : f.MayBe x (val x) ∧ f.MayBe y (val y) ∧ (val x).lt (val y) = true := by
      rcases sides with ⟨rfl, rfl, strict⟩ | ⟨rfl, rfl, strict⟩
      · exact ⟨left, right,
          (lt_of_outcome (left.typed _ typedX) (right.typed _ typedY) outcome).1 strict⟩
      · exact ⟨right, left,
          (lt_of_outcome (left.typed _ typedY) (right.typed _ typedX) outcome).2 strict⟩
    obtain ⟨mayX, mayY, lt⟩ := facts
    simpa using contains_of_lt (mayX.typed _ typedX) (mayY.typed _ typedY) lt ofBelow ofAbove

/-- A comparison refines different values, unless it cannot have the outcome: that is when a value is
compared strictly with itself. -/
theorem refinements_distinct (run : f.refinements op lhs rhs taken = .ok l) :
    (l.map Prod.fst).Nodup ∨ ∀ val : ValueId → Number, f.MayBe lhs (val lhs) →
      f.MayBe rhs (val rhs) → op.holds (val lhs) (val rhs) ≠ taken := by
  rcases refinements_cases run with rfl | ⟨v, _, _, _, _, _, -, -, -, -, -, -, rfl⟩ |
    ⟨x, y, below, above, sides, typedX, typedY, -, -, rfl⟩
  · exact .inl (by simp)
  · exact .inl (by simp)
  · by_cases same : x = y
    · subst same
      refine .inr fun val left right outcome => ?_
      have irrefl : ∀ a : Number, a.lt a = true → False := by
        intro a lt
        cases a <;> simp [Number.lt] at lt
      rcases sides with ⟨rfl, rfl, strict⟩ | ⟨rfl, rfl, strict⟩
      · exact irrefl _ ((lt_of_outcome (left.typed _ typedX) (left.typed _ typedX) outcome).1 strict)
      · exact irrefl _ ((lt_of_outcome (left.typed _ typedX) (left.typed _ typedX) outcome).2 strict)
    · exact .inl (by simpa using same)

/-- The refinements of a comparison of values that exist can be computed. -/
theorem refinements_yields (op : CompareOp) (taken : Bool) (left : lhs < f.values.size)
    (right : rhs < f.values.size) : Yields (f.refinements op lhs rhs taken) fun _ => True := by
  have typed : ∀ {v}, v < f.values.size → Yields (f.typeOf v) fun _ => True := fun present =>
    (value_yields present).bind fun _ _ => .ok trivial
  have const : ∀ {v}, v < f.values.size → Yields (f.constNumber? v) fun _ => True := by
    intro v present
    refine (opcode_yields present).bind fun o _ => ?_
    split <;> exact .ok trivial
  refine (typed left).bind fun _ _ => (typed right).bind fun _ _ => ?_
  split
  · exact .ok trivial
  · refine (const left).bind fun leftConst _ => ?_
    cases leftConst with
    | some c =>
      refine (typed right).bind fun _ _ => (CompareOp.refinement_yields _ _ c).bind fun result _ => ?_
      cases result <;> exact .ok trivial
    | none =>
      refine (const right).bind fun rightConst _ => ?_
      cases rightConst with
      | some c =>
        refine (typed left).bind fun _ _ => (CompareOp.refinement_yields _ _ c).bind fun result _ => ?_
        cases result <;> exact .ok trivial
      | none =>
        refine (Range.int32_yields (by decide)).bind fun _ _ =>
          (Range.int32_yields (by decide)).bind fun _ _ => ?_
        split
        · split <;> exact .ok trivial
        · exact .ok trivial

/-! ### One more beta -/

/-- The second procedure is the first one with a beta at the top of a block that has taken over uses
below the block. Constants stay, and so do all instructions and terminators elsewhere; a beta may only
change what it reads, from the input of the new beta to the new beta. -/
structure GainsBeta (g : FlowGraph) (f f' : Procedure) (b : BlockId) (input : ValueId) (range : Range) :
    Prop where
  structured : f'.Structured
  flow : SameFlow f f'
  count : f'.values.size = f.values.size + 1
  new : f'.opcode? f.values.size = some (.beta input range)
  home : f'.home? f.values.size = some b
  instrs : ∀ c, f'.instrsAt c = if c = b then f.values.size :: f.instrsAt b else f.instrsAt c
  homes : ∀ v < f.values.size, f'.home? v = f.home? v
  types : ∀ v < f.values.size, f'.type? v = f.type? v
  consts : ∀ v literal, f.opcode? v = some (.const literal) → f'.opcode? v = some (.const literal)
  betas : ∀ v x r, f.opcode? v = some (.beta x r) →
    f'.opcode? v = some (.beta x r) ∨ x = input ∧ f'.opcode? v = some (.beta f.values.size r)
  codes : ∀ v c o, f.home? v = some c → g.dominates b c = false → f.opcode? v = some o →
    o.isPhi = false → f'.opcode? v = some o
  terminators : ∀ c t, f.terminator? c = some t → g.dominates b c = false → f'.terminator? c = some t
  ends : ∀ c t', f'.terminator? c = some t' → ∀ x' ∈ t'.operand,
    (x' = f.values.size ∧ g.dominates b c = true) ∨ ∃ t, f.terminator? c = some t ∧ x' ∈ t.operand

/-- What a beta with uses redirected to it leaves alone. -/
theorem gainsBeta {f₁ : Procedure} {b : BlockId} {input : ValueId} {type : ValueType} (s : f.Structured)
    (typed : f.type? input = some type)
    (placed : f.Placed f₁ b [] (f.instrsAt b) (.beta input range) type)
    (redirects : Redirects g input f.values.size b f₁ f') : GainsBeta g f f' b input range := by
  have first := s.placeBeta (lt_size_of_type? typed) placed
  have structured := first.redirect (placed.valueCount ▸ Nat.lt_succ_self _) redirects
  obtain ⟨ρ, π, τ, renamed, hρ, -, hτ⟩ := redirects
  have old : ∀ {v o}, f.opcode? v = some o → f'.opcode? v = some (o.rename (ρ v) (π v)) := by
    intro v o code
    rw [renamed.opcode?, placed.opcode?, if_neg (Nat.ne_of_lt (lt_size_of_opcode? code)), code,
      Option.map_some]
  exact {
    structured := structured
    flow := placed.flow.trans renamed.layout.flow
    count := by rw [renamed.layout.valueCount, placed.valueCount]
    new := by
      -- The operand of the new beta is the one use that is never redirected to it.
      have own : ρ f.values.size input = input :=
        (hρ f.values.size input).resolve_right fun moved => moved.2.1 rfl
      rw [renamed.opcode?, placed.opcode?, if_pos rfl]
      show some (Opcode.beta (ρ f.values.size input) range) = _
      rw [own]
    home := by rw [renamed.layout.home?, placed.home?, if_pos rfl]
    instrs := fun c => by rw [renamed.layout.instrsAt, placed.instrsAt, List.nil_append]
    homes := fun v lt => by rw [renamed.layout.home?, placed.home?, if_neg (Nat.ne_of_lt lt)]
    types := fun v lt => by rw [renamed.type?, placed.type?, if_neg (Nat.ne_of_lt lt)]
    consts := fun v literal code => old code
    betas := fun v x r code => by
      rw [old code]
      show some (Opcode.beta (ρ v x) r) = _ ∨ _ ∧ some (Opcode.beta (ρ v x) r) = _
      rcases hρ v x with same | ⟨⟨isInput, moved⟩, -⟩
      · exact .inl (by rw [same])
      · exact .inr ⟨isInput, by rw [moved]⟩
    codes := fun v c o home apart code kind => by
      rw [old code, Opcode.rename_eq_self kind fun x => ?_]
      refine (hρ v x).resolve_right fun ⟨_, _, c', listed, dominates⟩ => ?_
      have home' := (first.instrs c' v listed).2
      rw [placed.home?, if_neg (Nat.ne_of_lt (lt_size_of_home? home)), home] at home'
      rw [Option.some.inj home', dominates] at apart
      cases apart
    terminators := fun c t term apart => by
      rw [renamed.terminator?, placed.terminator?, term, Option.map_some]
      have same : τ c = id := funext fun x => (hτ c x).resolve_right fun ⟨_, dominates⟩ => by
        rw [dominates] at apart
        cases apart
      rw [same, Terminator.mapOperand_id]
    ends := fun c t' term x' hx' => by
      rw [renamed.terminator?, placed.terminator?] at term
      obtain ⟨t, before, rfl⟩ := Option.map_eq_some_iff.mp term
      rw [Terminator.operand_mapOperand] at hx'
      obtain ⟨x, hx, rfl⟩ := Option.map_eq_some_iff.mp hx'
      rcases hτ c x with same | ⟨⟨-, moved⟩, dominates⟩
      · exact .inr ⟨t, before, same.symm ▸ hx⟩
      · exact .inl ⟨moved, dominates⟩ }

/-- What an old value may be with one more beta, it might be without it. -/
theorem GainsBeta.mayBe {b : BlockId} {input v : ValueId} {a : Number}
    (gains : GainsBeta g f f' b input range) (old : v < f.values.size) (h : f'.MayBe v a) :
    f.MayBe v a :=
  ⟨fun type typed => h.typed type ((gains.types v old).trans typed),
    fun literal code => h.const literal (gains.consts v literal code)⟩

end Procedure

/-! ### Decisions -/

/-- A branch on a comparison: the block that it ends, what it tests and where it leads. -/
structure Decision where
  test : BlockId
  cond : ValueId
  onTrue : BlockId
  onFalse : BlockId
  op : CompareOp
  lhs : ValueId
  rhs : ValueId

namespace Decision

/-- The block is entered only over one side of the branch, and the branch compares numbers. -/
structure Decides (d : Decision) (f : Procedure) (b : BlockId) : Prop where
  only : ∀ p, b ∈ f.successors p ↔ p = d.test
  branch : f.terminator? d.test = some (.branch d.cond d.onTrue d.onFalse)
  twoWay : d.onTrue ≠ d.onFalse
  compares : f.opcode? d.cond = some (.compare d.op d.lhs d.rhs)
  left : f.IsNumeric d.lhs
  right : f.IsNumeric d.rhs

/-- The numbers are ones that the compared values may be, and their comparison leads to the block. -/
structure Leads (d : Decision) (f : Procedure) (b : BlockId) (val : ValueId → Number) : Prop where
  left : f.MayBe d.lhs (val d.lhs)
  right : f.MayBe d.rhs (val d.rhs)
  edge : (if d.op.holds (val d.lhs) (val d.rhs) then d.onTrue else d.onFalse) = b

/-- The decision is made strictly above the block, and so is the comparison. -/
structure Precedes (d : Decision) (g : FlowGraph) (f : Procedure) (b : BlockId) : Prop extends
    d.Decides f b where
  earlier : g.order.idxOf d.test < g.order.idxOf b
  above : ∃ home, f.home? d.cond = some home ∧ g.Above home d.test

variable {d : Decision} {f f' : Procedure} {g : FlowGraph} {b c : BlockId} {input : ValueId}
  {range : Range} {val : ValueId → Number}

/-- The comparison has the outcome that belongs to the side that leads to the block. -/
theorem Leads.outcome (leads : d.Leads f b val) (twoWay : d.onTrue ≠ d.onFalse) :
    d.op.holds (val d.lhs) (val d.rhs) = (d.onTrue == b) := by
  have edge := leads.edge
  cases holds : d.op.holds (val d.lhs) (val d.rhs) with
  | true =>
    rw [holds, if_pos rfl] at edge
    exact (beq_iff_eq.mpr edge).symm
  | false =>
    rw [holds, if_neg (by decide)] at edge
    exact (beq_eq_false_iff_ne.mpr fun same => twoWay (same.trans edge.symm)).symm

/-- Both sides exist. -/
theorem Decides.lt_size (decides : d.Decides f b) (s : f.Structured) :
    d.lhs < f.values.size ∧ d.rhs < f.values.size :=
  ⟨s.operands _ _ decides.compares _ (by simp [Opcode.operands]),
    s.operands _ _ decides.compares _ (by simp [Opcode.operands])⟩

/-- Numbers that lead to the block with one more beta lead there without it. -/
theorem Leads.of_gains (decides : d.Decides f b) (s : f.Structured)
    (gains : Procedure.GainsBeta g f f' c input range) (leads : d.Leads f' b val) :
    d.Leads f b val :=
  ⟨gains.mayBe (decides.lt_size s).1 leads.left, gains.mayBe (decides.lt_size s).2 leads.right,
    leads.edge⟩

/-- A beta in the block or in one that comes later does not touch the decision. -/
theorem Precedes.gains (h : d.Precedes g f b) (s : f.Structured) (describes : g.Describes f)
    (gains : Procedure.GainsBeta g f f' c input range)
    (later : g.order.idxOf b ≤ g.order.idxOf c) : d.Precedes g f' b := by
  have apart : ∀ a, g.Above a d.test → g.dominates c a = false := by
    intro a above
    by_contra dominates
    have upper := describes.idxOf_le_of_above
      (describes.dominates_iff.mp (Bool.not_eq_false _ ▸ dominates)).2
    have lower := describes.idxOf_le_of_above above
    have earlier := h.earlier
    omega
  obtain ⟨home, stands, above⟩ := h.above
  obtain ⟨left, right⟩ := h.lt_size s
  refine ⟨⟨fun p => ?_, ?_, h.twoWay, ?_, ?_, ?_⟩, h.earlier, home, ?_, above⟩
  · rw [gains.flow.successors, h.only]
  · exact gains.terminators _ _ h.branch (apart _ .refl)
  · exact gains.codes _ _ _ stands (apart home above) h.compares rfl
  · obtain ⟨type, typed, number⟩ := h.left
    exact ⟨type, (gains.types _ left).trans typed, number⟩
  · obtain ⟨type, typed, number⟩ := h.right
    exact ⟨type, (gains.types _ right).trans typed, number⟩
  · rw [gains.homes _ (Procedure.lt_size_of_home? stands), stands]

/-- The decision before a block is found by looking at any edge into the block. -/
theorem Decides.eq_of_edge {test : BlockId} {cond lhs rhs : ValueId} {onTrue onFalse : BlockId}
    {op : CompareOp} (h : d.Decides f b) (edge : b ∈ f.successors test)
    (branch : f.terminator? test = some (.branch cond onTrue onFalse))
    (compares : f.opcode? cond = some (.compare op lhs rhs)) :
    d = ⟨test, cond, onTrue, onFalse, op, lhs, rhs⟩ := by
  obtain ⟨test', cond', onTrue', onFalse', op', lhs', rhs'⟩ := d
  obtain rfl : test = test' := (h.only test).mp edge
  obtain ⟨rfl, rfl, rfl⟩ : cond = cond' ∧ onTrue = onTrue' ∧ onFalse = onFalse' := by
    simpa using branch.symm.trans h.branch
  obtain ⟨rfl, rfl, rfl⟩ : op = op' ∧ lhs = lhs' ∧ rhs = rhs' := by
    simpa using compares.symm.trans h.compares
  rfl

/-- One block cannot be entered over the sides of two branches. -/
theorem Decides.unique {d' : Decision} (h : d.Decides f b) (h' : d'.Decides f b) : d = d' :=
  h.eq_of_edge ((h'.only d'.test).mpr rfl) h'.branch h'.compares

/-- The range holds the value whenever the decision leads to the block. -/
structure Proves (d : Decision) (g : FlowGraph) (f : Procedure) (b : BlockId) (x : ValueId)
    (range : Range) : Prop extends d.Precedes g f b where
  holds : ∀ val, d.Leads f b val → range.contains (val x) = true

/-- Betas keep the proof. -/
theorem Proves.gains {x : ValueId} {r : Range} (h : d.Proves g f b x r) (s : f.Structured)
    (describes : g.Describes f) (gains : Procedure.GainsBeta g f f' c input range)
    (later : g.order.idxOf b ≤ g.order.idxOf c) : d.Proves g f' b x r :=
  ⟨h.toPrecedes.gains s describes gains later,
    fun val leads => h.holds val (leads.of_gains h.toDecides s gains)⟩

end Decision

/-! ### All betas -/

/-- The value is a beta with a range that the decision before its block proves. What is known says which
value is refined in which block. -/
def Procedure.IsTrueBeta (f : Procedure) (g : FlowGraph) (known : BlockId → ValueId → Prop) (v : ValueId)
    (o : Opcode) : Prop :=
  ∃ b x range, ∃ d : Decision, o = .beta x range ∧ v ∈ f.instrsAt b ∧ d.Proves g f b x range ∧ known b x

/-- The values from the given number on are true betas, and terminators read what is defined. -/
structure Procedure.BetasTrue (f : Procedure) (g : FlowGraph) (n : Nat)
    (known : BlockId → ValueId → Prop) : Prop where
  structured : f.Structured
  describes : g.Describes f
  ends : ∀ c ∈ g.order, ∀ t, f.terminator? c = some t → ∀ x ∈ t.operand, f.DefinedAtEnd g x c
  count : n ≤ f.values.size
  betas : ∀ v o, n ≤ v → f.opcode? v = some o → f.IsTrueBeta g known v o

namespace Procedure.BetasTrue

variable {f f' : Procedure} {g : FlowGraph} {n : Nat} {known known' : BlockId → ValueId → Prop}
  {b : BlockId} {input : ValueId} {range : Range} {d : Decision}

/-- A weaker notion of known will do. -/
theorem mono (h : f.BetasTrue g n known) (weaker : ∀ c x, known c x → known' c x) :
    f.BetasTrue g n known' :=
  { h with
    betas := fun v o new code => by
      obtain ⟨c, x, r, d, own, listed, proves, knows⟩ := h.betas v o new code
      exact ⟨c, x, r, d, own, listed, proves, weaker c x knows⟩ }

/-- A well-formed procedure has no new betas. -/
theorem start (wf : f.WellFormed g) (describes : g.Describes f) : f.BetasTrue g f.values.size known where
  structured := wf.structured
  describes := describes
  ends := fun c hc t term x hx => ((wf.uses c hc).result t term x hx).definedAtEnd describes hc
  count := Nat.le_refl _
  betas := fun _ _ new code => absurd (lt_size_of_opcode? code) (Nat.not_lt.mpr new)

/-- What terminators read stays defined when a beta takes over uses. -/
theorem ends_gains (h : f.BetasTrue g n known) (gains : GainsBeta g f f' b input range) :
    ∀ c ∈ g.order, ∀ t, f'.terminator? c = some t → ∀ x ∈ t.operand, f'.DefinedAtEnd g x c := by
  intro c hc t' term' x hx
  rcases gains.ends c t' term' x hx with ⟨rfl, dominates⟩ | ⟨t, term, hx⟩
  · exact ⟨b, gains.home, dominates⟩
  · obtain ⟨home, stands, dominates⟩ := h.ends c hc t term x hx
    exact ⟨home, (gains.homes x (lt_size_of_home? stands)).trans stands, dominates⟩

/-- A new beta in the last of the refined blocks leaves an older one true. It changes what the older one
reads only if both refine the same value in the same block, and then control never gets there. -/
theorem isTrueBeta_gains {v : ValueId} {o : Opcode} (h : f.BetasTrue g n known)
    (gains : GainsBeta g f f' b input range) (proves : d.Proves g f b input range)
    (last : ∀ c x, known c x → g.order.idxOf c ≤ g.order.idxOf b)
    (fresh : (∃ val, d.Leads f b val) → ¬known b input) (old : ∀ c x, known c x → known' c x)
    (never : (¬∃ val, d.Leads f b val) → ∀ x, known' b x) (isNew : n ≤ v) (older : v < f.values.size)
    (code : f'.opcode? v = some o) : f'.IsTrueBeta g known' v o := by
  obtain ⟨before, code₀⟩ := exists_opcode? older
  obtain ⟨c, x, r, d', rfl, listed, proved, knows⟩ := h.betas v before isNew code₀
  have listed' : v ∈ f'.instrsAt c := by
    rw [gains.instrs]
    split
    · next own => exact List.mem_cons_of_mem _ (own ▸ listed)
    · exact listed
  have proved' := proved.gains h.structured h.describes gains (last c x knows)
  have unmoved : f'.opcode? v = some (.beta x r) → f'.IsTrueBeta g known' v o := fun same =>
    ⟨c, x, r, d', Option.some.inj (code.symm.trans same), listed', proved', old c x knows⟩
  cases dominates : g.dominates b c with
  | false =>
    exact unmoved (gains.codes v c _ (h.structured.instrs c v listed).2 dominates code₀ rfl)
  | true =>
    obtain rfl : b = c := by
      by_contra ne
      have lt := h.describes.idxOf_lt_of_above (h.describes.dominates_iff.mp dominates).2 ne
      exact Nat.not_lt.mpr (last c x knows) lt
    rcases gains.betas v x r code₀ with same | ⟨rfl, moved⟩
    · exact unmoved same
    · obtain rfl : d = d' := proves.toDecides.unique proved.toDecides
      have impossible : ¬∃ val, d.Leads f b val := fun possible => fresh possible knows
      refine ⟨b, f.values.size, r, d, Option.some.inj (code.symm.trans moved), listed',
        ⟨proved'.toPrecedes, fun val leads => ?_⟩, never impossible _⟩
      exact absurd ⟨val, leads.of_gains proved.toDecides h.structured gains⟩ impossible

/-- A new beta in the last of the refined blocks leaves all betas true. -/
theorem place (h : f.BetasTrue g n known)
    (gains : GainsBeta g f f' b input range) (proves : d.Proves g f b input range)
    (last : ∀ c x, known c x → g.order.idxOf c ≤ g.order.idxOf b)
    (fresh : (∃ val, d.Leads f b val) → ¬known b input)
    (old : ∀ c x, known c x → known' c x) (new : known' b input)
    (never : (¬∃ val, d.Leads f b val) → ∀ x, known' b x) : f'.BetasTrue g n known' where
  structured := gains.structured
  describes := gains.flow.describes h.describes
  ends := h.ends_gains gains
  count := gains.count ▸ Nat.le_succ_of_le h.count
  betas := fun v o isNew code => by
    rcases Nat.lt_or_ge v f.values.size with older | newer
    · exact h.isTrueBeta_gains gains proves last fresh old never isNew older code
    · have lt : v < f.values.size + 1 := gains.count ▸ lt_size_of_opcode? code
      obtain rfl : v = f.values.size := Nat.le_antisymm (Nat.lt_succ_iff.mp lt) newer
      refine ⟨b, input, range, d, Option.some.inj (code.symm.trans gains.new), ?_,
        proves.gains h.structured h.describes gains (Nat.le_refl _), new⟩
      rw [gains.instrs, if_pos rfl]
      exact List.mem_cons_self

end Procedure.BetasTrue

/-- While the betas of a block are placed, values are refined in earlier blocks and, if control can get
to the block at all, the given ones in the block itself. -/
def Decision.Refines (d : Decision) (g : FlowGraph) (f : Procedure) (b : BlockId)
    (placed : List ValueId) (c : BlockId) (x : ValueId) : Prop :=
  g.order.idxOf c < g.order.idxOf b ∨ c = b ∧ ((∃ val, d.Leads f b val) → x ∈ placed)

/-- Some betas of a block are placed and others are not yet. No value is refined twice, unless control
cannot get to the block. -/
structure Decision.Refining (d : Decision) (g : FlowGraph) (f : Procedure) (n : Nat) (b : BlockId)
    (placed : List ValueId) (rest : List (ValueId × Range)) : Prop where
  state : f.BetasTrue g n (d.Refines g f b placed)
  proves : ∀ r ∈ rest, d.Proves g f b r.1 r.2
  exist : ∀ r ∈ rest, r.1 < f.values.size
  distinct : (∃ val, d.Leads f b val) → (placed ++ rest.map Prod.fst).Nodup

namespace Decision.Refining

variable {d : Decision} {f f' : Procedure} {g : FlowGraph} {n : Nat} {b : BlockId}
  {placed : List ValueId} {input : ValueId} {range : Range} {rest : List (ValueId × Range)}

/-- A beta may be left out. -/
theorem skip (h : d.Refining g f n b placed ((input, range) :: rest)) :
    d.Refining g f n b placed rest where
  state := h.state
  proves := (List.forall_mem_cons.mp h.proves).2
  exist := (List.forall_mem_cons.mp h.exist).2
  distinct := fun possible => by
    have nodup := h.distinct possible
    rw [List.map_cons, List.nodup_middle] at nodup
    exact nodup.of_cons

/-- The next beta may be placed. -/
theorem place (h : d.Refining g f n b placed ((input, range) :: rest))
    (gains : Procedure.GainsBeta g f f' b input range) :
    d.Refining g f' n b (placed ++ [input]) rest := by
  obtain ⟨proves, others⟩ := List.forall_mem_cons.mp h.proves
  have before : (∃ val, d.Leads f' b val) → ∃ val, d.Leads f b val :=
    fun ⟨val, leads⟩ => ⟨val, leads.of_gains proves.toDecides h.state.structured gains⟩
  have fresh : (∃ val, d.Leads f b val) → input ∉ placed := by
    intro possible
    have nodup := h.distinct possible
    rw [List.map_cons, List.nodup_middle, List.nodup_cons] at nodup
    exact fun mem => nodup.1 (List.mem_append_left _ mem)
  constructor
  · refine h.state.place gains proves ?last ?fresh ?old ?new ?never
    case last =>
      rintro c x (earlier | ⟨rfl, -⟩)
      · exact Nat.le_of_lt earlier
      · exact Nat.le_refl _
    case fresh =>
      rintro possible (earlier | ⟨-, known⟩)
      · exact Nat.lt_irrefl _ earlier
      · exact fresh possible (known possible)
    case old =>
      exact fun c x => .imp_right fun ⟨own, known⟩ =>
        ⟨own, fun possible => List.mem_append_left _ (known (before possible))⟩
    case new => exact .inr ⟨rfl, fun _ => List.mem_append_right _ (List.mem_singleton_self _)⟩
    case never =>
      exact fun impossible x => .inr ⟨rfl, fun possible => absurd (before possible) impossible⟩
  · exact fun r hr =>
      (others r hr).gains h.state.structured h.state.describes gains (Nat.le_refl _)
  · exact fun r hr => gains.count ▸ Nat.lt_succ_of_lt (h.skip.exist r hr)
  · exact fun possible => by simpa using h.distinct (before possible)

end Decision.Refining

namespace Session

variable {s : Session} {b : BlockId} {input : ValueId} {range : Range} {n : Nat} {g : FlowGraph}
  {d : Decision}

/-- A beta of a value that exists can be placed in a block that exists. -/
theorem placeBeta_yields (h : s.procedure.Structured) (hb : b < s.procedure.blocks.size)
    (present : input < s.procedure.values.size) :
    Yields (s.placeBeta b (input, range)) fun r => r.1 = s ∨ r.1.graph = s.graph ∧
      Procedure.GainsBeta s.graph s.procedure r.1.procedure b input range := by
  have succeeds : Yields (s.placeBeta b (input, range)) fun _ => True := by
    refine (Procedure.value_yields present).bind fun value _ => ?_
    split
    · exact .ok trivial
    · have placed : Yields (s.procedure.placeAt b 0 (.beta input range) value.type) fun _ => True := by
        rw [Procedure.placeAt, Procedure.block_eq_ok.mpr (Array.getElem?_eq_getElem hb)]
        exact .ok trivial
      refine (placed.of_run fun _ run _ => run).bind ?_
      rintro ⟨f, beta⟩ run
      obtain ⟨-, -, placed⟩ := Procedure.placeAt_spec run
      have first := h.placeBeta present placed
      exact (Procedure.redirectBlocks_yields (fun c v hv => (first.instrs c v hv).1)
        (fun c v hv => first.lt_size_of_mem hv) fun c hc => List.mem_range.mp hc).bind
          fun _ _ => .ok trivial
  refine succeeds.of_run ?_
  rintro ⟨t, e⟩ run -
  rcases placeBeta_cases h run with ⟨same, -⟩ | ⟨-, ⟨graph, -⟩, f, type, typed, placed, redirects⟩
  · exact .inl same
  · exact .inr ⟨graph, Procedure.gainsBeta h typed placed redirects⟩

/-- The betas of a block can be placed. -/
theorem forEach_placeBeta_yields {l : List (ValueId × Range)} (graph : s.graph = g) (hb : b ∈ g.order)
    (start : d.Refining g s.procedure n b [] l) :
    Yields (forEach (placeBeta b) l s) fun r => r.1.graph = g ∧
      r.1.procedure.BetasTrue g n fun c _ => g.order.idxOf c < g.order.idxOf b + 1 := by
  refine (forEach_yields (fun rest u => u.graph = g ∧ ∃ placed, d.Refining g u.procedure n b placed rest)
    (fun (input, range) rest u ⟨graph, placed, refining⟩ => ?_) ⟨graph, [], start⟩).mono ?_
  · subst graph
    have inside := refining.state.describes.order.inBounds b hb
    refine (placeBeta_yields refining.state.structured inside
      (refining.exist _ List.mem_cons_self)).mono fun (v, e) result => ?_
    rcases result with rfl | ⟨graph, gains⟩
    · exact ⟨rfl, placed, refining.skip⟩
    · exact ⟨graph, placed ++ [input], refining.place gains⟩
  · rintro ⟨t, e⟩ ⟨rest, graph, placed, refining⟩
    refine ⟨graph, refining.state.mono ?_⟩
    rintro c x (earlier | ⟨rfl, -⟩)
    · exact Nat.lt_succ_of_lt earlier
    · exact Nat.lt_succ_self _

/-- The branch that decides the entry into a block makes its decision above the block. -/
theorem precedes_of_decidingBranch {f : Procedure} {known : BlockId → ValueId → Prop} {test : BlockId}
    {cond lhs rhs : ValueId} {onTrue onFalse : BlockId} {op : CompareOp}
    (state : f.BetasTrue g n known) (decides : g.decidingBranch f b = some test)
    (branch : f.terminator? test = some (.branch cond onTrue onFalse)) (twoWay : onTrue ≠ onFalse)
    (compares : f.opcode? cond = some (.compare op lhs rhs)) (left : f.IsNumeric lhs)
    (right : f.IsNumeric rhs) :
    Decision.Precedes ⟨test, cond, onTrue, onFalse, op, lhs, rhs⟩ g f b := by
  obtain ⟨preds, parent, -⟩ := Procedure.decidingBranch_spec decides
  obtain ⟨hb, htest, earlier⟩ := state.describes.parent b test parent
  obtain ⟨home, stands, dominates⟩ := state.ends test htest _ branch cond rfl
  refine ⟨⟨fun p => ?_, branch, twoWay, compares, left, right⟩, earlier, home, stands,
    (state.describes.dominates_iff.mp dominates).2⟩
  rw [← state.describes.preds b p (state.describes.order.inBounds b hb), preds, List.mem_singleton]

/-- The betas of a block that knows the outcome of a comparison can be placed. -/
theorem refineBlock_yields (graph : s.graph = g) (hb : b ∈ g.order)
    (state : s.procedure.BetasTrue g n fun c _ => g.order.idxOf c < g.order.idxOf b) :
    Yields (s.refineBlock b) fun r => r.1.graph = g ∧
      r.1.procedure.BetasTrue g n fun c _ => g.order.idxOf c < g.order.idxOf b + 1 := by
  have nothing : Yields (.ok (s, none) : Except Fault StageResult) fun r => r.1.graph = g ∧
      r.1.procedure.BetasTrue g n fun c _ => g.order.idxOf c < g.order.idxOf b + 1 :=
    .ok ⟨graph, state.mono fun _ _ => Nat.lt_succ_of_lt⟩
  rw [refineBlock, graph]
  split
  · exact nothing
  next test decides =>
  obtain ⟨-, -, cond, onTrue, onFalse, branch, twoWay⟩ := Procedure.decidingBranch_spec decides
  obtain ⟨block, found, own⟩ := Option.map_eq_some_iff.mp branch
  have ends : Yields (s.procedure.block test) fun block => block.terminator = .branch cond onTrue onFalse :=
    ⟨block, Procedure.block_eq_ok.mpr found, own⟩
  refine ends.bind fun block own => ?_
  rw [own]
  have present := state.structured.results test _ branch cond rfl
  refine (Procedure.opcode_yields present).bind fun o code => ?_
  split
  · next op lhs rhs =>
    have operands := state.structured.operands cond _ code
    refine ((Procedure.refinements_yields op (onTrue == b) (operands lhs (by simp [Opcode.operands]))
      (operands rhs (by simp [Opcode.operands]))).of_run fun _ run _ => run).bind fun l run => ?_
    cases l with
    | nil => exact nothing
    | cons first rest =>
      have precedes := precedes_of_decidingBranch state decides branch twoWay code
        (isNumber_of_refinements run (List.cons_ne_nil _ _) (.inl rfl))
        (isNumber_of_refinements run (List.cons_ne_nil _ _) (.inr rfl))
      refine forEach_placeBeta_yields graph hb ⟨state.mono fun _ _ => .inl, fun r hr => ⟨precedes, ?_⟩,
        fun r hr => ?_, ?_⟩
      · exact fun val leads =>
          Procedure.refinements_true run leads.left leads.right (leads.outcome twoWay) r hr
      · rcases mem_refinements run r hr with side | side <;>
          exact operands _ (by simp [Opcode.operands, side])
      · rintro ⟨val, leads⟩
        exact (Procedure.refinements_distinct run).resolve_right fun never =>
          never val leads.left leads.right (leads.outcome twoWay)
  · exact nothing

/-- Betas can be placed in all blocks, and their ranges are true on the edges into the blocks. -/
theorem addBetas_yields
    (state : s.procedure.BetasTrue s.graph n fun _ _ => False) :
    Yields s.addBetas fun r => r.1.procedure.BetasTrue s.graph n fun _ _ => True := by
  refine (forEach_yields (fun rest u => u.graph = s.graph ∧ ∃ done, s.graph.order = done ++ rest ∧
      u.procedure.BetasTrue s.graph n fun c _ => s.graph.order.idxOf c < done.length)
    (fun b rest u ⟨graph, done, split, state⟩ => ?_)
    ⟨rfl, [], rfl, state.mono fun _ _ => False.elim⟩).mono ?_
  · have place : s.graph.order.idxOf b = done.length := by
      have nodup := state.describes.order.nodup
      rw [split, List.nodup_middle, List.nodup_cons] at nodup
      rw [split, List.idxOf_append_of_notMem fun mem => nodup.1 (List.mem_append_left _ mem),
        List.idxOf_cons_self, Nat.add_zero]
    refine (refineBlock_yields graph (split ▸ by simp) (place ▸ state)).mono fun r result => ?_
    refine ⟨result.1, done ++ [b], by rw [split, List.append_assoc, List.singleton_append], ?_⟩
    rw [List.length_append, List.length_singleton, ← place]
    exact result.2
  · rintro ⟨t, e⟩ ⟨rest, graph, done, -, state⟩
    exact state.mono fun _ _ _ => trivial

/-- Betas can be placed in every accepted procedure, and they are true on their edges: every value
that is new is a beta in a block that is entered over one side of a comparison of numbers only, and for
all numbers that the compared values may be and whose comparison leads there, the value that the beta
refines lies in its range. -/
theorem addBetas_true_on_edge {f : Procedure} (config : Config) (accepted : f.verify = .ok (.ok ())) :
    ∃ s t e, start f config = .ok s ∧ s.addBetas = .ok (t, e) ∧
      ∀ v, f.values.size ≤ v → v < t.procedure.values.size → ∃ b input range, ∃ d : Decision,
        t.procedure.opcode? v = some (.beta input range) ∧ t.procedure.home? v = some b ∧
        v ∈ t.procedure.instrsAt b ∧ d.Decides t.procedure b ∧
        ∀ val, d.Leads t.procedure b val → range.contains (val input) = true := by
  obtain ⟨-, g, built, wf⟩ := Procedure.verify_eq_ok.mp accepted
  have describes := FlowGraph.build_describes wf.structured.numbered wf.structured.entry built
  obtain ⟨⟨t, e⟩, ran, state⟩ := addBetas_yields
    (s := ⟨f, g, g.loops f, config, Arena.empty config.arenaCapacity, Stats.none⟩) (.start wf describes)
  have started : start f config = .ok ⟨f, g, g.loops f, config, .empty config.arenaCapacity, .none⟩ :=
    bind_eq_ok.mpr ⟨g, built, rfl⟩
  refine ⟨_, t, e, started, ran, fun v new lt => ?_⟩
  obtain ⟨o, code⟩ := Procedure.exists_opcode? lt
  obtain ⟨b, input, range, d, rfl, listed, proves, -⟩ := state.betas v o new code
  exact ⟨b, input, range, d, code, (state.structured.instrs b v listed).2, listed, proves.toDecides,
    proves.holds⟩

/-- Compares a double with ten, and where it is less two int32 values with each other. -/
def compareTwice : Procedure where
  name := "compare"
  entry := 0
  blocks := #[⟨0, [], [0, 1, 2, 3, 4], .branch 4 1 2, false⟩, ⟨1, [], [5], .branch 5 3 4, false⟩,
    ⟨2, [], [], .exit (some 0), false⟩, ⟨3, [], [], .exit (some 2), false⟩,
    ⟨4, [], [], .exit (some 3), false⟩]
  values := #[⟨0, .param 0, .double, some 0, none⟩, ⟨1, .const (.int 10), .int32, some 0, none⟩,
    ⟨2, .param 1, .int32, some 0, none⟩, ⟨3, .param 2, .int32, some 0, none⟩,
    ⟨4, .compare .lt 0 1, .boolean, some 0, none⟩, ⟨5, .compare .lt 2 3, .boolean, some 1, none⟩]
  unsupported := false
  reasons := []

/-- The two comparisons of `compareTwice` give four betas. NaN is not less than ten, so the beta on the
other side of that comparison has a range with NaN. -/
theorem compareTwice_true_on_edge :
    compareTwice.verify = .ok (.ok ()) ∧ ∃ s t e v range, start compareTwice .standard = .ok s ∧
      s.addBetas = .ok (t, e) ∧ t.stats.betasInserted = 4 ∧ v ∈ t.procedure.instrsAt 2 ∧
      t.procedure.opcode? v = some (.beta 0 range) ∧ range.contains .nan = true := by
  have accepted : compareTwice.verify = .ok (.ok ()) := by decide +kernel
  have computed : (fun r : StageResult => decide (r.1.stats.betasInserted = 4 ∧
      r.1.procedure.values.size = 10 ∧ r.1.procedure.home? 6 = some 2 ∧
      (r.1.procedure.opcode? 6).map Opcode.operands = some [0] ∧ 2 ∈ r.1.procedure.successors 0 ∧
      r.1.procedure.terminator? 0 = some (.branch 4 1 2) ∧
      r.1.procedure.opcode? 4 = some (.compare .lt 0 1) ∧
      r.1.procedure.opcode? 0 = some (.param 0) ∧ r.1.procedure.type? 0 = some .double ∧
      r.1.procedure.opcode? 1 = some (.const (.int 10)) ∧ r.1.procedure.type? 1 = some .int32)) <$>
        (start compareTwice .standard >>= addBetas) = .ok true := by decide +kernel
  obtain ⟨s, t, e, started, ran, truth⟩ := addBetas_true_on_edge .standard accepted
  obtain ⟨r, ran', facts⟩ := map_eq_ok.mp computed
  obtain ⟨s', started', ran'⟩ := bind_eq_ok.mp ran'
  obtain rfl := Except.ok.inj (started.symm.trans started')
  obtain rfl := Except.ok.inj (ran.symm.trans ran')
  obtain ⟨four, size, home, operands, edge, branch, compares, param, double, ten, int32⟩ :=
    of_decide_eq_true facts
  obtain ⟨b, input, range, d, code, stands, listed, decides, holds⟩ := truth 6 (by decide) (by simp [size])
  obtain rfl : 2 = b := Option.some.inj (home.symm.trans stands)
  obtain rfl := decides.eq_of_edge edge branch compares
  obtain rfl : input = 0 := by simpa [code, Opcode.operands] using operands
  have leads : Decision.Leads ⟨0, 4, 1, 2, .lt, 0, 1⟩ t.procedure 2
      fun v => if v = 0 then .nan else .ofInt 10 := by
    refine ⟨⟨fun type typed => ?_, fun literal const => ?_⟩,
      ⟨fun type typed => ?_, fun literal const => ?_⟩, by decide⟩
    · obtain rfl := Option.some.inj (double.symm.trans typed)
      exact ⟨by simp, fun _ x value => by cases value⟩
    · cases param.symm.trans const
    · obtain rfl := Option.some.inj (int32.symm.trans typed)
      exact ⟨fun _ => ⟨10, by decide, by decide⟩, by simp⟩
    · cases ten.symm.trans const
      rfl
  exact ⟨accepted, s, t, e, 6, range, started, ran, four, listed, code, holds _ leads⟩

end Session

end Rangefinder
