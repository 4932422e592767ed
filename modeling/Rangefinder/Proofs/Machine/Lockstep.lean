import Rangefinder.Proofs.Machine.Agreement

/-!
# Runs in lockstep

Two procedures that differ in some instructions and in the names of operands run alike: both do what
they share at the same time and with the same contents, and each stops at the instructions that only
it has. `Lockstep` states this of single steps, for both procedures alike, and its consequences for
whole runs are proved once and read in both directions: where one run stands, the other one stands
too (`Lockstep.reached`), and where one run ends, the other one ends as well (`Lockstep.endsAt`),
unless it has ended before, at an instruction of its own. Procedures that take the very same steps are
`RunsAs`; those that differ in ranges and marks only are (`runsAs_of_sameCode`).

`Parallel.lockstep` obtains it for procedures of which one has the renamed operands of the other. What
is left to show there is that a renamed operand holds the same.
-/

namespace Rangefinder

/-- Without inputs, operands are renamed. -/
theorem Opcode.rename_of_not_phi {o : Opcode} {ρ : ValueId → ValueId}
    {π : BlockId → ValueId → ValueId} (kind : o.isPhi = false) : o.rename ρ π = o.mapOperands ρ := by
  cases o with
  | phi inputs => cases kind
  | _ => rfl

namespace Machine

open Procedure

variable {f f' : Procedure} {g : FlowGraph} {args : List Number} {s s' t t' : State}
  {keep : ValueId → Bool} {position : Option ValueId} {v : ValueId} {halt : Halt} {o : Opcode}

/-- The run ends before the given instruction, or at the end of a block. -/
def EndsAt (f : Procedure) (args : List Number) (position : Option ValueId) (halt : Halt) : Prop :=
  ∃ s, Reached f args s ∧ s.pending.head? = position ∧ step f args s = .error halt

/-- A run ends only before an instruction that exists. -/
theorem EndsAt.lt_size (consistent : f.Consistent g) (h : EndsAt f args (some v) halt) :
    v < f.values.size := by
  obtain ⟨s, reached, head, -⟩ := h
  obtain ⟨rest, next⟩ : ∃ rest, s.pending = v :: rest := List.head?_eq_some_iff.mp head
  obtain ⟨before, split⟩ :=
    (reached.stands consistent.wellFormed consistent.describes).position
  refine consistent.wellFormed.structured.lt_size_of_mem (b := s.block) (List.mem_append_right _ ?_)
  simp [split, next]

/-- The value is one of the procedure. -/
def isOld (f : Procedure) (v : ValueId) : Bool := decide (v < f.values.size)

/-- A run ends only before old instructions of the procedure itself. -/
theorem EndsAt.isOld (consistent : f.Consistent g) (h : EndsAt f args position halt) :
    ∀ v ∈ position, isOld f v = true := by
  rintro v ⟨rfl⟩
  exact decide_eq_true (h.lt_size consistent)

/-! ### The same steps -/

/-- The contents of phis depend on their operations only. -/
theorem incoming_congr {m : Memory} {source : BlockId} {phis : List ValueId}
    (same : ∀ v ∈ phis, f'.opcode? v = f.opcode? v) :
    incoming f' m source phis = incoming f m source phis := by
  induction phis with
  | nil => rfl
  | cons phi rest ih =>
    rw [List.forall_mem_cons] at same
    have code : (f'.values[phi]?).map Value.opcode = (f.values[phi]?).map Value.opcode := same.1
    rw [incoming, incoming, ih same.2, code]

/-- A step depends on what it executes only, and at the end of a block on the phis that are entered. -/
theorem step_congr (layout : SameLayout f f') (terms : ∀ b, f'.terminator? b = f.terminator? b)
    (phis : ∀ b, ∀ v ∈ f.phisAt b, f'.opcode? v = f.opcode? v)
    (code : ∀ v ∈ s.pending.head?, f'.opcode? v = f.opcode? v ∧ f'.type? v = f.type? v) :
    step f' args s = step f args s := by
  have entering : ∀ m source target, enter f' m source target = enter f m source target := by
    intro m source target
    by_cases inside : target < f.blocks.size
    · rw [enter_of_lt inside, enter_of_lt (layout.flow.size.symm ▸ inside), layout.phisAt,
        layout.instrsAt, incoming_congr (phis target)]
    · have outside : ¬target < f'.blocks.size := layout.flow.size ▸ inside
      rw [enter, enter, Array.getElem?_eq_none (Nat.not_lt.mp inside),
        Array.getElem?_eq_none (Nat.not_lt.mp outside)]
  cases next : s.pending with
  | cons v rest =>
    obtain ⟨same, types⟩ := code v (by simp [next])
    cases found : f.values[v]? with
    | none =>
      have absent : f'.values[v]? = none := by
        rw [opcode?, opcode?, found, Option.map_none, Option.map_eq_none_iff] at same
        exact same
      rw [step, step, next]
      simp only [found, absent]
    | some value =>
      rw [step_of_cons next (opcode?_of_value found) (type?_of_value found),
        step_of_cons next (same.trans (opcode?_of_value found)) (types.trans (type?_of_value found))]
  | nil =>
    have term := terms s.block
    cases found : f.blocks[s.block]? with
    | none =>
      have absent : f'.blocks[s.block]? = none := by
        rw [terminator?, terminator?, found, Option.map_none, Option.map_eq_none_iff] at term
        exact term
      rw [step, step, next]
      simp only [found, absent]
    | some block =>
      have own : f.terminator? s.block = some block.terminator := by
        rw [terminator?, found, Option.map_some]
      rw [step_of_nil next own, step_of_nil next (term.trans own)]
      cases block.terminator <;> simp only [leave, entering]

/-- Procedures of the same layout start alike. -/
theorem start_congr (layout : SameLayout f f') : start f' = start f := by
  by_cases inside : f.entry < f.blocks.size
  · rw [start_eq_ok inside, start_eq_ok (by rwa [layout.entry, layout.flow.size]), layout.entry,
      layout.instrsAt, Memory.initial, Memory.initial, layout.valueCount]
  · have outside : ¬f.entry < f'.blocks.size := layout.flow.size ▸ inside
    rw [start, start, layout.entry, Array.getElem?_eq_none (Nat.not_lt.mp inside),
      Array.getElem?_eq_none (Nat.not_lt.mp outside)]

/-- The second procedure takes the steps of the first one. -/
structure RunsAs (f f' : Procedure) (args : List Number) : Prop where
  start : Machine.start f' = Machine.start f
  step : ∀ s, Reached f args s → Machine.step f' args s = Machine.step f args s

/-- The two procedures reach the same states. -/
theorem RunsAs.reached_iff (h : RunsAs f f' args) : Reached f' args s ↔ Reached f args s := by
  constructor
  · intro reached
    induction reached with
    | start started => exact .start (h.start ▸ started)
    | @step s t _ run ih => exact ih.step (h.step s ih ▸ run)
  · intro reached
    induction reached with
    | start started => exact .start (h.start.trans started)
    | @step s t before run ih => exact ih.step ((h.step s before).trans run)

/-- Runs of the two procedures end alike, whatever the budget. -/
theorem RunsAs.run_eq (h : RunsAs f f' args) (budget : Nat) : run f' args budget = run f args budget := by
  have resumes : ∀ s, Reached f args s → resume f' args budget s = resume f args budget s := by
    induction budget with
    | zero => exact fun _ _ => rfl
    | succ budget ih =>
      intro s reached
      rw [resume, resume, h.step s reached]
      cases taken : Machine.step f args s with
      | ok t => exact ih t (reached.step taken)
      | error halt => rfl
  rw [run, run, h.start]
  cases started : Machine.start f with
  | ok s => exact resumes s (.start started)
  | error halt => rfl

/-- Ranges and marks do not matter for a step. -/
theorem step_of_sameCode (same : SameCode f f') (s : State) : step f' args s = step f args s :=
  step_congr same.layout same.terminator? (fun _ v _ => same.opcode? v) fun v _ =>
    ⟨same.opcode? v, same.type? v⟩

/-- Ranges and marks do not matter to runs. -/
theorem runsAs_of_sameCode (same : SameCode f f') : RunsAs f f' args :=
  ⟨start_congr same.layout, fun s _ => step_of_sameCode same s⟩

/-- A recoded instruction does not matter if it is computed alike whenever a run comes to it. -/
theorem runsAs_of_recoded {b : BlockId} (consistent : f.Consistent g) (hv : v ∈ f.instrsAt b)
    (recoded : f.Recoded f' v o) (types : ∀ w ≠ v, f'.type? w = f.type? w)
    (same : ∀ s rest, Reached f args s → s.pending = v :: rest →
      step f' args s = step f args s) : RunsAs f f' args := by
  have structured := consistent.wellFormed.structured
  have others : ∀ w, w ≠ v → f'.opcode? w = f.opcode? w := fun w other => by
    rw [recoded.opcode?, if_neg other]
  refine ⟨start_congr recoded.layout, fun s reached => ?_⟩
  by_cases own : s.pending.head? = some v
  · obtain ⟨rest, next⟩ : ∃ rest, s.pending = v :: rest := List.head?_eq_some_iff.mp own
    exact same s rest reached next
  · refine step_congr recoded.layout recoded.terminator? (fun c w hw => others w ?_) fun w hw => ?_
    · rintro rfl
      have isPhi := (structured.phis c w hw).1
      rw [(structured.instrs b w hv).1] at isPhi
      cases isPhi
    · have other : w ≠ v := by
        rintro rfl
        exact own hw
      exact ⟨others w other, types w other⟩

/-! ### Steps of two procedures -/

/-- The states stand at the same place, and the values that are kept hold the same. -/
structure Matches (keep : ValueId → Bool) (s s' : State) : Prop where
  block : s'.block = s.block
  pending : s'.pending.filter keep = s.pending.filter keep
  memory : s.memory.SameOn keep s'.memory

/-- Matching is symmetric. -/
theorem Matches.symm (m : Matches keep s s') : Matches keep s' s :=
  ⟨m.block.symm, m.pending.symm, m.memory.symm⟩

/-- The state is about to do what both procedures do. -/
def AtShared (keep : ValueId → Bool) (s : State) : Prop := ∀ v ∈ s.pending.head?, keep v = true

/-- The next instruction is shared. -/
theorem AtShared.head?_filter (shared : AtShared keep s) :
    (s.pending.filter keep).head? = s.pending.head? := by
  cases next : s.pending with
  | nil => rfl
  | cons v rest => rw [List.filter_cons_of_pos (shared v (by simp [next]))]; rfl

/-- Both states are about to do the same. -/
theorem Matches.head? (m : Matches keep s s') (shared : AtShared keep s)
    (shared' : AtShared keep s') : s'.pending.head? = s.pending.head? := by
  rw [← shared.head?_filter, ← shared'.head?_filter, m.pending]

/-- A state that is about to do something of its own still matches when that is done. -/
theorem Matches.step_extra {rest : List ValueId} (m : Matches keep s s') (next : s'.pending = v :: rest)
    (extra : keep v = false) (code : f'.opcode? v = some o) (quiet : o.isQuiet = true)
    (run : step f' args s' = .ok t') :
    Matches keep s t' ∧ t'.pending = rest := by
  obtain ⟨value, m', slot, found, computed, rfl⟩ := step_instr next run
  obtain rfl := Option.some.inj ((opcode?_of_value found).symm.trans code)
  obtain rfl := compute_quiet quiet computed
  refine ⟨⟨m.block, ?_, m.memory.write_extra extra slot⟩, rfl⟩
  rw [← m.pending, next, List.filter_cons_of_neg (by simp [extra])]

/-- Both procedures start alike, do alike what they share, and leave the arrays alone where only one
of them does something. -/
structure Lockstep (f f' : Procedure) (keep : ValueId → Bool) (args : List Number) : Prop where
  start : ∃ s s', Machine.start f = .ok s ∧ Machine.start f' = .ok s' ∧ Matches keep s s'
  quiet : ∀ s v rest, Reached f args s → s.pending = v :: rest → keep v = false →
    ∃ o, f.opcode? v = some o ∧ o.isQuiet = true
  quiet' : ∀ s v rest, Reached f' args s → s.pending = v :: rest → keep v = false →
    ∃ o, f'.opcode? v = some o ∧ o.isQuiet = true
  step : ∀ s s', Reached f args s → Reached f' args s' → Matches keep s s' → AtShared keep s →
    AtShared keep s' → Agree (Matches keep) (step f args s) (step f' args s')

namespace Lockstep

/-- Lockstep is symmetric. -/
theorem symm (h : Lockstep f f' keep args) : Lockstep f' f keep args where
  start := by
    obtain ⟨s, s', started, started', m⟩ := h.start
    exact ⟨s', s, started', started, m.symm⟩
  quiet := h.quiet'
  quiet' := h.quiet
  step s s' reached reached' m shared shared' :=
    (h.step s' s reached' reached m.symm shared' shared).symm fun _ _ => Matches.symm

/-- A run goes on by itself until it stands at something that both do, or ends before. -/
theorem catch_up (h : Lockstep f f' keep args) (m : Matches keep s s')
    (reached : Reached f' args s') :
    (∃ t', Reached f' args t' ∧ Matches keep s t' ∧ AtShared keep t') ∨
      ∃ v halt, keep v = false ∧ EndsAt f' args (some v) halt := by
  -- Induction on what the run has still to do in the block.
  induction next : s'.pending generalizing s' with
  | nil => exact .inl ⟨s', reached, m, by simp [AtShared, next]⟩
  | cons v rest ih =>
    cases kept : keep v with
    | true => exact .inl ⟨s', reached, m, by simp [AtShared, next, kept]⟩
    | false =>
      cases run : Machine.step f' args s' with
      | error halt => exact .inr ⟨v, halt, kept, s', reached, by rw [next, List.head?_cons], run⟩
      | ok t' =>
        obtain ⟨o, code, quiet⟩ := h.quiet' s' v rest reached next kept
        obtain ⟨m', rfl⟩ := m.step_extra next kept code quiet run
        exact ih m' (reached.step run) rfl

/-- For every state of the one run there is a state of the other one, unless that run ends before, at
something that only it does. -/
theorem reached (h : Lockstep f f' keep args) (reached : Reached f args s) :
    (∃ s', Reached f' args s' ∧ Matches keep s s' ∧ AtShared keep s') ∨
      ∃ v halt, keep v = false ∧ EndsAt f' args (some v) halt := by
  induction reached with
  | start started =>
    obtain ⟨s, s', started₀, started', m⟩ := h.start
    obtain rfl := Except.ok.inj (started₀.symm.trans started)
    exact h.catch_up m (.start started')
  | @step s t before run ih =>
    rcases ih with ⟨s', reached', m, shared'⟩ | ended
    · by_cases shared : AtShared keep s
      · have agree := h.step s s' before reached' m shared shared'
        rw [run] at agree
        obtain ⟨t', run', m'⟩ := agree.of_ok
        exact h.catch_up m' (reached'.step run')
      · simp only [AtShared, Option.mem_def, not_forall, Bool.not_eq_true] at shared
        obtain ⟨v, head, extra⟩ := shared
        obtain ⟨rest, next⟩ : ∃ rest, s.pending = v :: rest := List.head?_eq_some_iff.mp head
        obtain ⟨o, code, quiet⟩ := h.quiet s v rest before next extra
        exact .inl ⟨s', reached', (m.symm.step_extra next extra code quiet run).1.symm, shared'⟩
    · exact .inr ended

/-- Where the one run ends at something that both do, the other one ends too and for the same reason,
unless it has ended before, at something that only it does. -/
theorem endsAt (h : Lockstep f f' keep args) (shared : ∀ v ∈ position, keep v = true)
    (ends : EndsAt f args position halt) :
    (∃ halt', EndsAt f' args position halt' ∧ halt'.observed = halt.observed) ∨
      ∃ v halt', keep v = false ∧ EndsAt f' args (some v) halt' := by
  obtain ⟨s, reached, rfl, failed⟩ := ends
  rcases h.reached reached with ⟨s', reached', m, shared'⟩ | ended
  · have agree := h.step s s' reached reached' m shared shared'
    rw [failed] at agree
    obtain ⟨halt', failed', same⟩ := agree.of_error
    exact .inl ⟨halt', ⟨s', reached', m.head? shared shared', failed'⟩, same⟩
  · exact .inr ended

end Lockstep

end Machine

/-! ### Procedures with renamed operands -/

namespace Procedure

/-- The second procedure has the renamed operands of the first one in what both keep. What only one
of them has is quiet. -/
structure Parallel (f f' : Procedure) (keep : ValueId → Bool) (ρ : ValueId → ValueId → ValueId)
    (π : ValueId → BlockId → ValueId → ValueId) (τ : BlockId → ValueId → ValueId) : Prop where
  flow : SameFlow f f'
  exist : ∀ v, keep v = true → (v < f'.values.size ↔ v < f.values.size)
  opcode? : ∀ v, keep v = true → f'.opcode? v = (f.opcode? v).map (Opcode.rename (ρ v) (π v))
  type? : ∀ v, keep v = true → f'.type? v = f.type? v
  phisAt : ∀ c, f'.phisAt c = f.phisAt c
  phis : ∀ c, ∀ v ∈ f.phisAt c, keep v = true
  instrsAt : ∀ c, (f'.instrsAt c).filter keep = (f.instrsAt c).filter keep
  terminator? : ∀ c, f'.terminator? c = (f.terminator? c).map (Terminator.mapOperand (τ c))
  quiet : ∀ c, ∀ v ∈ f.instrsAt c, keep v = false → ∃ o, f.opcode? v = some o ∧ o.isQuiet = true
  quiet' : ∀ c, ∀ v ∈ f'.instrsAt c, keep v = false →
    ∃ o, f'.opcode? v = some o ∧ o.isQuiet = true

end Procedure

namespace Machine

open Procedure

variable {f f' : Procedure} {g : FlowGraph} {args : List Number} {s s' t t' : State}
  {keep : ValueId → Bool} {ρ : ValueId → ValueId → ValueId}
  {π : ValueId → BlockId → ValueId → ValueId} {τ : BlockId → ValueId → ValueId}

/-- What the comparison of the two runs rests on: both procedures are consistent, and a renamed
operand holds the same whenever both can be read. -/
structure Faithful (f f' : Procedure) (g : FlowGraph) (args : List Number) (keep : ValueId → Bool)
    (ρ : ValueId → ValueId → ValueId) (π : ValueId → BlockId → ValueId → ValueId)
    (τ : BlockId → ValueId → ValueId) : Prop where
  parallel : f.Parallel f' keep ρ π τ
  before : f.Consistent g
  after : f'.Consistent g
  renamed : ∀ s s', Reached f args s → Reached f' args s' → Matches keep s s' →
    ∀ x y, Available f g s x → Available f' g s' y →
    (∃ v, y = ρ v x) ∨ (∃ p q, y = π p q x) ∨ (∃ b, y = τ b x) →
    s'.memory.slots[y]? = s.memory.slots[x]?

namespace Faithful

/-- The two runs compute an instruction that both have. -/
theorem step_instr_agree (h : Faithful f f' g args keep ρ π τ) (m : Matches keep s s')
    (reached : Reached f args s) (reached' : Reached f' args s') {v : ValueId}
    {rest rest' : List ValueId} (next : s.pending = v :: rest) (next' : s'.pending = v :: rest')
    (kept : keep v = true) : Agree (Matches keep) (step f args s) (step f' args s') := by
  have wf := h.before.wellFormed
  have stands := reached.stands wf h.before.describes
  have stands' := reached'.stands h.after.wellFormed h.after.describes
  obtain ⟨before, split⟩ := stands.position
  have listed : v ∈ f.instrsAt s.block := by simp [split, next]
  obtain ⟨kind, home⟩ := wf.structured.instrs _ v listed
  obtain ⟨value, found⟩ : ∃ value, f.values[v]? = some value :=
    ⟨_, Array.getElem?_eq_getElem (lt_size_of_home? home)⟩
  have code := opcode?_of_value found
  rw [isPhi_eq code] at kind
  have code' : f'.opcode? v = some (value.opcode.mapOperands (ρ v)) := by
    rw [h.parallel.opcode? v kept, code, Option.map_some, Opcode.rename_of_not_phi kind]
  have typed' : f'.type? v = some value.type := (h.parallel.type? v kept).trans (type?_of_value found)
  have same : ∀ x ∈ value.opcode.operands, s'.memory.slots[ρ v x]? = s.memory.slots[x]? := by
    intro x hx
    refine h.renamed s s' reached reached' m x _ (available_operand stands wf next code hx) ?_
      (.inl ⟨v, rfl⟩)
    refine available_operand stands' h.after.wellFormed next' code' ?_
    rw [← @Opcode.rename_of_not_phi _ _ (π v) kind, Opcode.operands_rename kind]
    exact List.mem_map_of_mem hx
  have rests : rest'.filter keep = rest.filter keep := by
    have := m.pending
    rw [next, next', List.filter_cons_of_pos kept, List.filter_cons_of_pos kept] at this
    exact List.tail_eq_of_cons_eq this
  rw [step_of_cons next code (type?_of_value found), step_of_cons next' code' typed']
  refine (compute_agree m.memory.store same).attach.bind fun r r' ⟨⟨store, slot⟩, ok, ok'⟩ => ?_
  refine .ok ⟨m.block, rests, ?_⟩
  rw [slot]
  refine Memory.SameOn.write ⟨store, fun w hw => ?_⟩ r.2
  rw [(compute_slots ok).1, (compute_slots ok').1, m.memory.slots w hw]

/-- The two runs enter a block from the same one. -/
theorem enter_agree (h : Faithful f f' g args keep ρ π τ) (m : Matches keep s s')
    (reached : Reached f args s) (reached' : Reached f' args s') (last : s.pending = [])
    (last' : s'.pending = []) {target : BlockId} (edge : target ∈ f.successors s.block) :
    Agree (Matches keep) (enter f s.memory s.block target)
      (enter f' s'.memory s'.block target) := by
  have wf := h.before.wellFormed
  have d := h.before.describes
  have stands := reached.stands wf d
  have stands' := reached'.stands h.after.wellFormed h.after.describes
  have inside := wf.structured.targets _ _ edge
  have entered : target ∈ g.order := d.order.closed _ stands.reachable _ edge inside
  rw [m.block, enter_of_lt inside, enter_of_lt (by rwa [h.parallel.flow.size]), h.parallel.phisAt]
  refine (incoming_agree fun phi mem => ?_).bind fun l l' eq => .ok ⟨rfl, ?_, ?_⟩
  · have mem' : phi ∈ f'.phisAt target := by rwa [h.parallel.phisAt]
    obtain ⟨inputs, code⟩ := exists_inputs (wf.structured.phis target phi mem).1
    have code' : f'.opcode? phi = some (.phi (inputs.map fun i => (π phi i.2 i.1, i.2))) := by
      rw [h.parallel.opcode? phi (h.parallel.phis target phi mem), code, Option.map_some,
        Opcode.rename]
    obtain ⟨x, found, listed⟩ := exists_input wf d entered edge mem code
    have found' : (inputs.map fun i => (π phi i.2 i.1, i.2)).find?
        (fun input => input.2 == s.block) = some (π phi s.block x, s.block) := by
      rw [List.find?_map]
      simp only [Function.comp_def, found, Option.map_some]
    refine ⟨inputs, _, x, _, code, code', found, found', ?_⟩
    refine h.renamed s s' reached reached' m x _
      (available_input wf d h.before.listed stands last entered mem code listed) ?_
      (.inr (.inl ⟨phi, _, rfl⟩))
    refine available_input h.after.wellFormed h.after.describes h.after.listed stands' last' entered
      mem' code' ?_
    rw [m.block]
    exact List.mem_of_find?_eq_some found'
  · exact h.parallel.instrsAt target
  · rw [eq]
    exact m.memory.writeAll l'

/-- The two runs leave a block. -/
theorem step_end_agree (h : Faithful f f' g args keep ρ π τ) (m : Matches keep s s')
    (reached : Reached f args s) (reached' : Reached f' args s') (last : s.pending = [])
    (last' : s'.pending = []) : Agree (Matches keep) (step f args s) (step f' args s') := by
  have wf := h.before.wellFormed
  have wf' := h.after.wellFormed
  have stands := reached.stands wf h.before.describes
  have stands' := reached'.stands wf' h.after.describes
  have inside := h.before.describes.order.inBounds _ stands.reachable
  have term : f.terminator? s.block = some f.blocks[s.block].terminator := by
    simp [Procedure.terminator?, inside]
  have successors : f.successors s.block = f.blocks[s.block].terminator.successors := by
    simp [Procedure.successors, inside]
  generalize f.blocks[s.block].terminator = last_step at term successors
  have term' : f'.terminator? s'.block = some (last_step.mapOperand (τ s.block)) := by
    rw [m.block, h.parallel.terminator?, term, Option.map_some]
  have same : ∀ v ∈ last_step.operand, s'.memory.slots[τ s.block v]? = s.memory.slots[v]? := by
    intro v hv
    refine h.renamed s s' reached reached' m v _ ⟨f.instrsAt s.block, by simp [last], ?_⟩
      ⟨f'.instrsAt s'.block, by simp [last'], ?_⟩ (.inr (.inr ⟨s.block, rfl⟩))
    · exact (wf.uses _ stands.reachable).result _ term v hv
    · refine (wf'.uses _ stands'.reachable).result _ term' _ ?_
      rw [Terminator.operand_mapOperand]
      exact Option.map_eq_some_iff.mpr ⟨v, hv, rfl⟩
  have passes : ∀ target ∈ last_step.successors, Agree (Matches keep)
      (enter f s.memory s.block target) (enter f' s'.memory s'.block target) :=
    fun target mem => h.enter_agree m reached reached' last last' (successors ▸ mem)
  rw [step_of_nil last term, step_of_nil last' term']
  cases last_step with
  | goto target => exact passes target (by simp [Terminator.successors])
  | branch c onTrue onFalse =>
    refine (Memory.number_agree (same c rfl)).bind fun x x' eq => ?_
    subst eq
    refine passes _ ?_
    split <;> simp [Terminator.successors]
  | exit result =>
    cases result with
    | none => exact .error rfl
    | some v =>
      refine (Memory.read_agree v _ (same v rfl)).bind fun slot slot' eq => ?_
      subst eq
      cases slot <;> exact .error rfl
  | unreachable => exact .error rfl

/-- Both runs start alike. -/
theorem start_matches (h : Faithful f f' g args keep ρ π τ) :
    ∃ s s', Machine.start f = .ok s ∧ Machine.start f' = .ok s' ∧ Matches keep s s' := by
  refine ⟨_, _, start_eq_ok h.before.wellFormed.structured.entry,
    start_eq_ok h.after.wellFormed.structured.entry, h.parallel.flow.entry, ?_, rfl, fun v kept => ?_⟩
  · rw [h.parallel.instrsAt, h.parallel.flow.entry]
  · simp only [Memory.initial, Array.getElem?_replicate, h.parallel.exist v kept]

/-- Procedures of which one has the renamed operands of the other run in lockstep. -/
theorem lockstep (h : Faithful f f' g args keep ρ π τ) : Lockstep f f' keep args where
  start := h.start_matches
  quiet s v rest reached next extra := by
    obtain ⟨before, split⟩ := (reached.stands h.before.wellFormed h.before.describes).position
    exact h.parallel.quiet s.block v (by simp [split, next]) extra
  quiet' s v rest reached next extra := by
    obtain ⟨before, split⟩ := (reached.stands h.after.wellFormed h.after.describes).position
    exact h.parallel.quiet' s.block v (by simp [split, next]) extra
  step s s' reached reached' m shared shared' := by
    have head := m.head? shared shared'
    cases next : s.pending with
    | nil =>
      rw [next, List.head?_nil, List.head?_eq_none_iff] at head
      exact h.step_end_agree m reached reached' next head
    | cons v rest =>
      rw [next, List.head?_cons] at head
      obtain ⟨rest', next'⟩ : ∃ rest', s'.pending = v :: rest' := List.head?_eq_some_iff.mp head
      exact h.step_instr_agree m reached reached' next next' (shared v (by simp [next]))

end Faithful

end Machine

end Rangefinder
