import Rangefinder.Proofs.Procedure.Placement

/-!
# What branches test

A branch tests a number or a truth value, never an array or an effect. An instruction that hands an
operand on as its own value may be collapsed into that operand, and then a branch that tested the
instruction tests the operand. So the types of tests survive the edits of the passes when such an
instruction is of a type that can be tested only if its operand is. This is a condition on the
procedure at the start, since nothing else compares the type of a beta with that of its input;
`Testable` states it together with the types of the tests, and each edit keeps it.
-/

namespace Rangefinder

namespace Opcode

/-- The operand that an instruction hands on as its own value, for the instructions that may be
collapsed into it whatever their type: betas, and bounds checks that may be moved. -/
def handsOn : Opcode → Option ValueId
  | beta input _ => some input
  | boundsCheck index _ _ _ true => some index
  | _ => none

variable {o : Opcode} {x : ValueId}

/-- What is handed on is an operand. -/
theorem mem_operands_of_handsOn (h : o.handsOn = some x) : x ∈ o.operands := by
  unfold handsOn at h
  split at h <;> simp_all [operands]

/-- Renaming an opcode renames what it hands on. -/
theorem handsOn_rename {ρ : ValueId → ValueId} {π : BlockId → ValueId → ValueId} :
    (o.rename ρ π).handsOn = o.handsOn.map ρ := by
  cases o with
  | boundsCheck index length minimum maximum movable => cases movable <;> rfl
  | _ => rfl

end Opcode

namespace Procedure

variable {f f' : Procedure} {v : ValueId} {b : BlockId} {t : ValueType} {o : Opcode}

/-- What a value that can be tested hands on can be tested too. -/
def HandsOnTestable (f : Procedure) : Prop :=
  ∀ v o x, f.opcode? v = some o → o.handsOn = some x →
    f.isTestable v = true → f.isTestable x = true

instance : Decidable f.HandsOnTestable :=
  decidable_of_iff (∀ v < f.values.size, ∀ o ∈ f.opcode? v, ∀ x ∈ o.handsOn,
    f.isTestable v = true → f.isTestable x = true)
    ⟨fun h v o x code => h v (lt_size_of_opcode? code) o code x, fun h v _ o code x => h v o x code⟩

/-- Every branch tests a value of a type that can be tested, and would do so if it tested what the
value hands on instead. -/
structure Testable (f : Procedure) : Prop where
  branches : f.BranchesTestable
  handedOn : f.HandsOnTestable

/-- Whether a value can be tested depends on its type. -/
theorem isTestable_congr (same : f'.type? v = f.type? v) :
    f'.isTestable v = f.isTestable v := by
  rw [type?, type?] at same
  rw [isTestable, isTestable, same]

/-- A number can be tested. -/
theorem isTestable_of_isNumber (type : f.type? v = some t) (number : t.isNumber = true) :
    f.isTestable v = true := by
  rw [type?] at type
  rw [isTestable, type]
  cases t <;> simp_all [ValueType.isNumber]

/-- Changing one value changes no other type. -/
theorem type?_modifyValue (v w : ValueId) (m : Value → Value) :
    (f.modifyValue v m).type? w =
      if w = v then (f.values[v]?).map fun value => (m value).type else f.type? w := by
  simp only [type?, modifyValue, Array.getElem?_modify, @eq_comm _ v]
  split
  · next own => rw [own, Option.map_map]; rfl
  · rfl

namespace Testable

/-- Ranges and marks do not matter. -/
theorem of_sameCode (h : f.Testable) (same : SameCode f f') : f'.Testable where
  branches b c onTrue onFalse term := by
    rw [same.terminator?] at term
    rw [isTestable_congr (same.type? c)]
    exact h.branches b c onTrue onFalse term
  handedOn v o x code handed := by
    rw [same.opcode?] at code
    rw [isTestable_congr (same.type? v), isTestable_congr (same.type? x)]
    exact h.handedOn v o x code handed

/-- A new instruction can be tested only if what it hands on can be. -/
theorem place {before after : List ValueId} (h : f.Testable) (s : f.Structured)
    (placed : f.Placed f' b before after o t) (operands : ∀ x ∈ o.operands, x < f.values.size)
    (new : ∀ x, o.handsOn = some x → f.type? x = some t) : f'.Testable where
  branches c cond onTrue onFalse term := by
    rw [placed.terminator?] at term
    have old := Nat.ne_of_lt (s.results c _ term cond rfl)
    rw [@isTestable_congr f f' cond (by rw [placed.type?, if_neg old])]
    exact h.branches c cond onTrue onFalse term
  handedOn v o' x code handed testable := by
    have type : ∀ y < f.values.size, f'.type? y = f.type? y := fun y hy => by
      rw [placed.type?, if_neg (Nat.ne_of_lt hy)]
    rw [placed.opcode?] at code
    split at code
    · next own =>
      obtain rfl := Option.some.inj code
      have exists_x := operands x (Opcode.mem_operands_of_handsOn handed)
      rw [isTestable, ← type?, type x exists_x, new x handed]
      rwa [isTestable, ← type?, placed.type?, if_pos own] at testable
    · have exists_x := s.operands v o' code x (Opcode.mem_operands_of_handsOn handed)
      rw [isTestable_congr (type x exists_x)]
      rw [isTestable_congr (type v (lt_size_of_opcode? code))] at testable
      exact h.handedOn v o' x code handed testable

/-- Uses may be renamed as long as what they read can still be tested. -/
theorem rename {ρ : ValueId → ValueId → ValueId} {π : ValueId → BlockId → ValueId → ValueId}
    {τ : BlockId → ValueId → ValueId} (h : f.Testable) (renamed : Renaming f f' ρ π τ)
    (operand : ∀ v y, f.isTestable y = true → f.isTestable (ρ v y) = true)
    (test : ∀ b y, f.isTestable y = true → f.isTestable (τ b y) = true) : f'.Testable where
  branches b c onTrue onFalse term := by
    rw [renamed.terminator?, Option.map_eq_some_iff] at term
    obtain ⟨t, term, same⟩ := term
    cases t with
    | branch cond yes no =>
      obtain ⟨rfl, rfl, rfl⟩ := Terminator.branch.inj same
      rw [isTestable_congr (renamed.type? _)]
      exact test b cond (h.branches b cond yes no term)
    | _ => cases same
  handedOn v o' x' code handed testable := by
    rw [renamed.opcode?, Option.map_eq_some_iff] at code
    obtain ⟨o, code, rfl⟩ := code
    rw [Opcode.handsOn_rename, Option.map_eq_some_iff] at handed
    obtain ⟨x, handed, rfl⟩ := handed
    rw [isTestable_congr (renamed.type? v)] at testable
    rw [isTestable_congr (renamed.type? _)]
    exact operand v x (h.handedOn v o x code handed testable)

/-- Uses of a value may be redirected to a beta of the same type. -/
theorem redirect {g : FlowGraph} {old beta : ValueId} {dom : BlockId} (h : f.Testable)
    (redirects : Redirects g old beta dom f f') (type : f.type? beta = f.type? old) :
    f'.Testable := by
  obtain ⟨ρ, π, τ, renamed, hρ, -, hτ⟩ := redirects
  have same : f.isTestable beta = f.isTestable old := by
    rw [isTestable, isTestable, ← type?, ← type?, type]
  refine h.rename renamed (fun v y testable => ?_) fun b y testable => ?_
  · rcases hρ v y with stays | ⟨⟨rfl, moves⟩, -⟩
    · rwa [stays]
    · rwa [moves, same]
  · rcases hτ b y with stays | ⟨⟨rfl, moves⟩, -⟩
    · rwa [stays]
    · rwa [moves, same]

/-- Taking a value out changes no type and no test. -/
theorem detach (h : f.Testable) (out : f.Detached f' v b) :
    f'.Testable where
  branches c cond onTrue onFalse term := by
    rw [out.terminator?] at term
    rw [isTestable_congr (out.type? cond)]
    exact h.branches c cond onTrue onFalse term
  handedOn w o x code handed := by
    rw [out.opcode?] at code
    rw [isTestable_congr (out.type? w), isTestable_congr (out.type? x)]
    exact h.handedOn w o x code handed

/-- Collapsing an instruction into an operand that can be tested if the instruction can. -/
theorem collapse {f₁ : Procedure} {v x : ValueId} {n : Nat} (h : f.Testable) (s : f.Structured)
    (hv : v ∈ f.instrsAt b) (moved : f.moveUses v x = .ok (f₁, n)) (detached : f₁.detach v = .ok f')
    (carries : f.isTestable v = true → f.isTestable x = true) : f'.Testable := by
  have renamed := moveUses_spec s moved
  have home : f₁.home? v = some b := by rw [renamed.layout.home?, (s.instrs b v hv).2]
  have moves : ∀ y, f.isTestable y = true → f.isTestable (substitute v x y) = true := by
    intro y testable
    rw [substitute]
    split
    · next own => exact carries (own ▸ testable)
    · exact testable
  refine (h.rename renamed (fun w y testable => ?_) fun _ => moves).detach
    (detach_spec home detached)
  split
  · exact moves y testable
  · exact testable

/-- Recoding a value keeps the tests when the value can be tested as before and hands nothing
on. -/
theorem recode (h : f.Testable) (recoded : f.Recoded f' v o)
    (same : ∀ w, f'.isTestable w = f.isTestable w) (keeps : o.handsOn = none) : f'.Testable where
  branches c cond onTrue onFalse term := by
    rw [recoded.terminator?] at term
    rw [same]
    exact h.branches c cond onTrue onFalse term
  handedOn w o' x code handed := by
    rw [recoded.opcode?] at code
    rw [same, same]
    split at code
    · obtain rfl := Option.some.inj code
      rw [keeps] at handed
      cases handed
    · exact h.handedOn w o' x code handed

end Testable

end Procedure

end Rangefinder
