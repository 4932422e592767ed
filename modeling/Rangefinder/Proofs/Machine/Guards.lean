import Rangefinder.Proofs.Machine.Contents
import Rangefinder.Proofs.Machine.Lockstep

/-!
# Guarded places

A place in a block is guarded if every run arrives there with an index and a length for which a bounds
check would pass. A check at such a place can never end a run, and it stays superfluous when the
procedure changes in a way that keeps it in step with what it was: `Guard.lockstep` carries a guard
along procedures that run in lockstep, `Guard.covered` along changes after which the procedure does
nothing that it did not do before.
-/

namespace Rangefinder

/-- The slots hold integers for which a bounds check with the given limits passes. -/
def Memory.Passes (m : Memory) (index length : ValueId) (minimum maximum : Int) : Prop :=
  ∃ i n : Int, m.slots[index]? = some (.number (.ofInt i)) ∧
    m.slots[length]? = some (.number (.ofInt n)) ∧ 0 ≤ i + minimum ∧ i + maximum < n

namespace Machine

open Procedure

variable {f f' : Procedure} {g : FlowGraph} {args : List Number} {s : State} {m : Memory}
  {flags flags' : ArithFlags} {op : BinaryOp} {a b x : Number} {v : ValueId}

/-! ### Procedures that do less -/

/-- Whatever the second procedure does, the first one does as well. -/
structure Covers (f f' : Procedure) (args : List Number) : Prop where
  start : ∀ s, Machine.start f' = .ok s → Machine.start f = .ok s
  step : ∀ s t, Machine.step f' args s = .ok t → Machine.step f args s = .ok t

/-- States that are reached are covered. -/
theorem Covers.reached (h : Covers f f' args) (reached : Reached f' args s) : Reached f args s := by
  induction reached with
  | start started => exact .start (h.start _ started)
  | step _ run ih => exact ih.step (h.step _ _ run)

/-- The contents of phis depend on their inputs only. -/
theorem incoming_of_phis {source : BlockId} {phis : List ValueId} {slots : List (ValueId × Slot)}
    (same : ∀ v inputs, f'.opcode? v = some (.phi inputs) → f.opcode? v = some (.phi inputs))
    (run : incoming f' m source phis = .ok slots) : incoming f m source phis = .ok slots := by
  induction phis generalizing slots with
  | nil => exact run
  | cons phi rest ih =>
    rw [incoming] at run
    split at run
    · cases run
    · next inputs code =>
      have code' : (f.values[phi]?).map Value.opcode = some (.phi inputs) := same phi inputs code
      split at run
      · cases run
      · next input source' found =>
        obtain ⟨slot, read, run⟩ := bind_eq_ok.mp run
        obtain ⟨others, ran, run⟩ := bind_eq_ok.mp run
        rw [incoming, code']
        simp only [found]
        exact bind_eq_ok.mpr ⟨slot, read, bind_eq_ok.mpr ⟨others, ih ran, run⟩⟩
    · cases run

/-- A procedure covers one of the same layout in which every instruction succeeds only with the result
that it has in the former. -/
theorem covers_of_compute (layout : SameLayout f f')
    (terminator? : ∀ b, f'.terminator? b = f.terminator? b)
    (phis : ∀ v inputs, f'.opcode? v = some (.phi inputs) → f.opcode? v = some (.phi inputs))
    (instrs : ∀ v o' type, f'.opcode? v = some o' → f'.type? v = some type →
      ∃ o, f.opcode? v = some o ∧ f.type? v = some type ∧
        ∀ m r, compute args m v type o' = .ok r → compute args m v type o = .ok r) :
    Covers f f' args := by
  have entering : ∀ m source target t, enter f' m source target = .ok t →
      enter f m source target = .ok t := by
    intro m source target t run
    by_cases inside : target < f'.blocks.size
    · rw [enter_of_lt inside, layout.phisAt, layout.instrsAt] at run
      rw [enter_of_lt (layout.flow.size ▸ inside)]
      obtain ⟨slots, ran, run⟩ := bind_eq_ok.mp run
      exact bind_eq_ok.mpr ⟨slots, incoming_of_phis phis ran, run⟩
    · rw [enter, Array.getElem?_eq_none (Nat.not_lt.mp inside)] at run
      cases run
  refine ⟨fun s started => ?_, fun s t run => ?_⟩
  · have inside : f.entry < f.blocks.size := by
      rw [start] at started
      split at started
      · cases started
      · next found =>
        have inside := (Array.getElem?_eq_some_iff.mp found).1
        rwa [layout.entry, layout.flow.size] at inside
    rw [start_eq_ok (by rwa [layout.entry, layout.flow.size])] at started
    obtain rfl := Except.ok.inj started
    rw [start_eq_ok inside, layout.instrsAt, layout.entry, Memory.initial, Memory.initial,
      layout.valueCount]
  · cases next : s.pending with
    | cons v rest =>
      obtain ⟨value, m, slot, found, computed, rfl⟩ := step_instr next run
      obtain ⟨o, code, typed, same⟩ :=
        instrs v _ _ (opcode?_of_value found) (type?_of_value found)
      rw [step_of_cons next code typed]
      exact bind_eq_ok.mpr ⟨_, same _ _ computed, rfl⟩
    | nil =>
      rw [step, next] at run
      dsimp only at run
      split at run
      · cases run
      · next block found =>
        have term : f.terminator? s.block = some block.terminator := by
          rw [← terminator?, Procedure.terminator?, found, Option.map_some]
        rw [step_of_nil next term]
        cases kind : block.terminator with
        | goto target =>
          rw [kind] at run
          exact entering _ _ _ _ run
        | branch cond onTrue onFalse =>
          rw [kind, leave] at run
          obtain ⟨x, read, run⟩ := bind_eq_ok.mp run
          exact bind_eq_ok.mpr ⟨x, read, entering _ _ _ _ run⟩
        | exit result =>
          rw [kind] at run
          cases result <;> exact run
        | unreachable => rwa [kind] at run

/-- Ranges and marks do not matter to runs. -/
theorem covers_of_sameCode (same : SameCode f f') : Covers f f' args :=
  ⟨fun _ started => start_congr same.layout ▸ started, fun s _ run => step_of_sameCode same s ▸ run⟩

/-- Flags decide how arithmetic fails, not what it gives. -/
theorem exactInt32_of_ok (h : exactInt32 v op a b flags' = .ok x) :
    exactInt32 v op a b flags = .ok x := by
  cases op with
  | mul | div | mod =>
    simp only [exactInt32] at h ⊢
    split_ifs at h ⊢
    all_goals exact h
  | _ => exact h

/-- Flags do not change a result. -/
theorem checkedInt32_of_ok (h : checkedInt32 v op a b flags' = .ok x) :
    checkedInt32 v op a b flags = .ok x := by
  rw [checkedInt32] at h ⊢
  split at h
  · next integral =>
    obtain ⟨r, computed, h⟩ := bind_eq_ok.mp h
    split at h
    · split at h <;> cases h
    · next fits =>
      rw [if_pos integral]
      exact bind_eq_ok.mpr ⟨r, exactInt32_of_ok computed, by rw [if_neg fits, h]⟩
  · cases h

/-- Other flags on int32 arithmetic without wrap-around let the procedure do nothing else. -/
theorem covers_of_reflag {v lhs rhs : ValueId} (recoded : f.Recoded f' v (.binary op lhs rhs flags'))
    (types : ∀ w, f'.type? w = f.type? w) (code : f.opcode? v = some (.binary op lhs rhs flags))
    (typed : f.type? v = some .int32) (arithmetic : op.isBitwise = false)
    (checked : flags.wrapping = false) (checked' : flags'.wrapping = false) :
    Covers f f' args := by
  refine covers_of_compute recoded.layout recoded.terminator? (fun w inputs phi => ?_)
    fun w o type code' typed' => ?_
  · rw [recoded.opcode?] at phi
    split at phi
    · cases phi
    · exact phi
  · rw [recoded.opcode?] at code'
    rw [types] at typed'
    split at code'
    · next own =>
      subst own
      obtain rfl := Option.some.inj code'
      obtain rfl := Option.some.inj (typed'.symm.trans typed)
      refine ⟨_, code, typed, fun m r computed => ?_⟩
      obtain ⟨a, readA, computed⟩ := bind_eq_ok.mp computed
      obtain ⟨b, readB, computed⟩ := bind_eq_ok.mp computed
      obtain ⟨x, combined, computed⟩ := bind_eq_ok.mp computed
      refine bind_eq_ok.mpr ⟨a, readA, bind_eq_ok.mpr ⟨b, readB, bind_eq_ok.mpr ⟨x, ?_, computed⟩⟩⟩
      simp only [binary, arithmetic, checked, checked', Bool.false_eq_true, if_false, ne_eq,
        not_true_eq_false] at combined ⊢
      exact checkedInt32_of_ok combined
    · exact ⟨o, code', typed', fun _ _ => id⟩

/-! ### Guards -/

/-- Behind the given first instructions of a block, the index and the length can be read, and a bounds
check of them passes. -/
structure Guard (f : Procedure) (g : FlowGraph) (b : BlockId) (first : List ValueId)
    (index length : ValueId) (minimum maximum : Int) : Prop where
  listed : ∃ rest, f.instrsAt b = first ++ rest
  readsIndex : f.Readable g b (f.phisAt b ++ first) index
  readsLength : f.Readable g b (f.phisAt b ++ first) length
  holds : ∀ args s, Reached f args s → s.block = b → ∀ passed,
    f.instrsAt b = first ++ passed ++ s.pending → s.memory.Passes index length minimum maximum

variable {b : BlockId} {first first' : List ValueId} {index length : ValueId} {minimum maximum : Int}
  {keep : ValueId → Bool}

/-- A guard holds in a procedure that does nothing else than the one for which it was made. -/
theorem Guard.covered (h : Guard f g b first index length minimum maximum)
    (layout : SameLayout f f') (covers : ∀ args, Covers f f' args) :
    Guard f' g b first index length minimum maximum where
  listed := layout.instrsAt b ▸ h.listed
  readsIndex := layout.phisAt b ▸ layout.readable.mpr h.readsIndex
  readsLength := layout.phisAt b ▸ layout.readable.mpr h.readsLength
  holds args s reached block passed split :=
    h.holds args s ((covers args).reached reached) block passed (layout.instrsAt b ▸ split)

/-- What lies behind some of the first elements of a list, and does not begin with an element that is
left out, begins behind all of them if no more than the others is kept of it. -/
theorem exists_later {α : Type} {kept : α → Bool} {first rest before pending : List α}
    (split : first ++ rest = before ++ pending) (shared : ∀ v ∈ pending.head?, kept v = true)
    (le : (pending.filter kept).length ≤ (rest.filter kept).length) :
    ∃ later, before = first ++ later := by
  rcases List.append_eq_append_iff.mp split with ⟨later, rfl, -⟩ | ⟨early, rfl, rfl⟩
  · exact ⟨later, rfl⟩
  · cases early with
    | nil => exact ⟨[], by simp⟩
    | cons v others =>
      have here : kept v = true := shared v rfl
      rw [List.cons_append, List.filter_cons_of_pos here, List.filter_append, List.length_cons,
        List.length_append] at le
      omega

/-- A readable value is available behind the place where it is readable. -/
theorem available_of_readable {v : ValueId} {passed : List ValueId}
    (read : f.Readable g s.block (f.phisAt s.block ++ first) v)
    (split : f.instrsAt s.block = first ++ passed ++ s.pending) : Available f g s v := by
  obtain ⟨home, stands, here⟩ := read
  refine ⟨first ++ passed, split, home, stands, ?_⟩
  split at here
  · next own =>
    rw [if_pos own, ← List.append_assoc]
    exact List.mem_append_left _ here
  · next other => rwa [if_neg other]

/-- A guard holds in a procedure that runs in lockstep with the one for which it was made, under the
names that its values have there, if no run of the former ends at what it does alone. -/
theorem Guard.lockstep (h : Guard f g b first index length minimum maximum) (ν : ValueId → ValueId)
    (consistent : f.Consistent g) (lock : ∀ args, Lockstep f f' keep args)
    (alive : ∀ args v halt, keep v = false → ¬EndsAt f args (some v) halt)
    (lists : (f'.instrsAt b).filter keep = (f.instrsAt b).filter keep)
    (kept : first'.filter keep = first.filter keep) (listed : ∃ rest, f'.instrsAt b = first' ++ rest)
    (readable : ∀ v, f.Readable g b (f.phisAt b ++ first) v →
      f'.Readable g b (f'.phisAt b ++ first') (ν v))
    (same : ∀ args s s', Reached f args s → Matches keep s s' → ∀ v, Available f g s v →
      s'.memory.slots[ν v]? = s.memory.slots[v]?) :
    Guard f' g b first' (ν index) (ν length) minimum maximum := by
  refine ⟨listed, readable _ h.readsIndex, readable _ h.readsLength,
    fun args s' reached' block passed split => ?_⟩
  rcases (lock args).symm.reached reached' with ⟨s, reached, m, shared⟩ | ⟨v, halt, extra, ends⟩
  · have here : s.block = b := m.block.trans block
    subst here
    obtain ⟨rest, at_first⟩ := h.listed
    obtain ⟨before, at_s⟩ := (reached.stands consistent.wellFormed consistent.describes).position
    -- The other run stands behind the first instructions as well.
    have behind : rest.filter keep = passed.filter keep ++ s'.pending.filter keep := by
      rw [split, at_first, List.filter_append, List.filter_append, List.filter_append, kept,
        List.append_assoc, List.append_cancel_left_eq] at lists
      exact lists.symm
    obtain ⟨later, rfl⟩ := exists_later (at_first.symm.trans at_s) shared (by
      rw [behind, m.pending, List.length_append]
      omega)
    obtain ⟨i, n, holdsI, holdsN, low, high⟩ := h.holds args s reached rfl later at_s
    exact ⟨i, n, (same args s s' reached m.symm _ (available_of_readable h.readsIndex at_s)).trans holdsI,
      (same args s s' reached m.symm _ (available_of_readable h.readsLength at_s)).trans holdsN, low, high⟩
  · exact (alive args v halt extra ends).elim

end Machine

end Rangefinder
