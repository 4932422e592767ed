import Rangefinder.Proofs.Analysis.Readings

/-!
# The rounds of a loop

A run is in a loop from the time it enters the header until it leaves the body. `Activation` follows
such a stay and counts the rounds. What comes from outside the loop does not change during a stay, so
the phis of the header that move by a constant step are where the number of rounds says
(`Activation.phi_eq`). The phi that counts the rounds meets the exit test in every round, before control
reaches what lies below the test; there, the number of rounds is still below the bound of the loop
(`Activation.bound`).
-/

namespace Rangefinder

/-- Terms decide the value. -/
theorem LinearSum.eval_congr {sum : LinearSum} {val val' : ValueId → Int}
    (same : sum.TermsSatisfy fun t => val t = val' t) : sum.eval val = sum.eval val' := by
  have terms : ∀ l : List LinearTerm, (∀ t ∈ l, val t.term = val' t.term) →
      evalTerms val l = evalTerms val' l := by
    intro l
    induction l with
    | nil => exact fun _ => rfl
    | cons t rest ih =>
      intro same
      rw [List.forall_mem_cons] at same
      rw [evalTerms, evalTerms, same.1, ih same.2]
  rw [eval, eval, terms sum.terms same]

/-- Slots decide it. -/
theorem Procedure.valueIn_congr {f : Procedure} {m m' : Memory} {v : ValueId}
    (same : m.slots[v]? = m'.slots[v]?) : f.valueIn m v = f.valueIn m' v := by
  rw [valueIn, valueIn, Memory.intAt, Memory.intAt, same]

namespace SimpleLoop

/-- A phi of the header that moves by a constant step from a first value that comes from outside. -/
structure Advances (l : SimpleLoop) (f : Procedure) (phi initial next : ValueId) (step : Int) :
    Prop where
  home : f.home? phi = some l.header
  inputs : l.HasInputs f phi initial next
  outside : l.Outside f initial
  offset : f.IsOffset next ⟨some phi, step⟩

variable {l : SimpleLoop} {f : Procedure} {g : FlowGraph} {phi initial next : ValueId} {sum : LinearSum}
  {i : LinearInequality} {step : Int} {b test : BlockId}

/-- Moving advances. -/
theorem Moves.advances (h : l.Moves f phi initial next step) (home : f.home? phi = some l.header) :
    l.Advances f phi initial next step :=
  ⟨home, h.inputs, h.outside, h.offset⟩

/-- The inequality of a test compares whole values. -/
theorem Tests.isWhole {cond t : ValueId} {truth : Bool} (h : Tests f cond truth i)
    (integral : f.Integral) (side : i.lhs.term = some t ∨ i.rhs = some t) :
    f.isWhole t = true := by
  obtain ⟨op, lhs, rhs, left, right, -, leftType, rightType, readLeft, readRight, read⟩ := h
  rw [(inequalityOf_terms read).1, (inequalityOf_terms read).2] at side
  rcases side with ofLeft | ofRight
  · exact readLeft.isWhole ofLeft integral (Procedure.isWhole_of_type leftType rfl)
  · exact readRight.isWhole ofRight integral (Procedure.isWhole_of_type rightType rfl)

/-- Where the left term is from. -/
theorem Orients.lhs {i j : LinearInequality} {t : ValueId} (h : l.Orients f i j)
    (ht : j.lhs.term = some t) : i.lhs.term = some t ∨ i.rhs = some t := by
  rcases h with ⟨rfl, -⟩ | ⟨r, rhs, -, -, rfl⟩
  · exact .inl ht
  · exact .inr (rhs.trans ht)

/-- The phi that counts the rounds moves by a constant step. -/
theorem IsCounter.advances (h : l.IsCounter f g i phi initial next step) :
    l.Advances f phi initial next step := by
  obtain ⟨write, -, -, -, -, -, refines, -, -, -, -, -, -, read⟩ := h.steady
  exact ⟨h.home, h.inputs, h.outside, refines.isOffset read⟩

/-- What an exit test says about the rounds: a phi counts them, and as long as the branch does not leave
the loop, the phi has not reached the end. -/
theorem IsExitTest.counter (h : l.IsExitTest f g b test sum) :
    ∃ cond onTrue onFalse i j phi initial next step,
      f.terminator? test = some (.branch cond onTrue onFalse) ∧
      (if onTrue ≠ b then onTrue else onFalse) ∉ l.loop.body ∧ Tests f cond (onTrue != b) i ∧
      l.Orients f i j ∧ j.lhs.term = some phi ∧ l.Advances f phi initial next step ∧
      (roundsUntil f j initial step).run = .ok (some sum) := by
  obtain ⟨cond, onTrue, onFalse, term, leaves, rounds⟩ := h.leaves
  obtain ⟨i, j, phi, initial, next, step, tests, orients, counter, until_⟩ := rounds_spec rounds
  exact ⟨cond, onTrue, onFalse, i, j, phi, initial, next, step, term, leaves, tests, orients,
    counter.term, counter.advances, until_⟩

/-- The bound of a loop is a sum of values from outside the loop. -/
theorem IsExitTest.outside (h : l.IsExitTest f g b test sum) :
    sum.TermsSatisfy (l.Outside f) := by
  obtain ⟨cond, onTrue, onFalse, i, j, phi, initial, next, step, -, -, -, orients, -, advances,
    until_⟩ := h.counter
  exact roundsUntil_terms advances.outside (fun t ht => (orients.rhs ht).1) until_

/-- The bound of a loop is a sum of whole values from outside the loop, in normal form. -/
structure FromOutside (l : SimpleLoop) (f : Procedure) (sum : LinearSum) : Prop where
  terms : sum.TermsSatisfy fun t => l.Outside f t ∧ f.isWhole t = true
  normal : sum.Normal

/-- The count is normal. -/
theorem roundsUntil_normal (h : (roundsUntil f i initial step).run = .ok (some sum)) :
    sum.Normal := by
  have optional : ∀ {a b : LinearSum} {term : Option ValueId} {scale : Int}, a.Normal →
      IsInt32 scale → (addOptional f a term scale).run = .ok (some b) → b.Normal := by
    intro a b term scale normal fits added
    cases term with
    | none => exact attempt_pure.mp added ▸ normal
    | some t => exact normal.addTerm fits added
  rw [roundsUntil] at h
  split at h
  · simp only [attempt_bind, attempt_some?] at h
    obtain ⟨a, addA, b, addB, c, -, addC⟩ := h
    exact (optional (optional LinearSum.isNormal_nil (by decide) addA) (by decide) addB).addConstant
      addC
  · split at h
    · simp only [attempt_bind, attempt_some?] at h
      obtain ⟨a, addA, b, addB, addC⟩ := h
      exact (optional (optional LinearSum.isNormal_nil (by decide) addA) (by decide) addB).addConstant
        addC
    · exact absurd h attempt_failure

/-- The first value of an advancing phi is whole. -/
theorem Advances.isWhole_initial (h : l.Advances f phi initial next step) (integral : f.Integral) :
    f.isWhole initial = true := by
  obtain ⟨inputs, code, -, enters, -⟩ := h.inputs
  exact integral.operands phi _ code initial (List.mem_map_of_mem enters)

/-- It is from outside. -/
theorem IsExitTest.fromOutside (h : l.IsExitTest f g b test sum) (integral : f.Integral) :
    l.FromOutside f sum := by
  obtain ⟨cond, onTrue, onFalse, i, j, phi, initial, next, step, -, -, tests, orients, -, advances,
    until_⟩ := h.counter
  refine ⟨roundsUntil_terms ⟨advances.outside, advances.isWhole_initial integral⟩ (fun t ht => ?_)
    until_, roundsUntil_normal until_⟩
  obtain ⟨out, side⟩ := orients.rhs ht
  exact ⟨out, tests.isWhole integral side⟩

/-- The bounds of an advancing phi are sums of the same kind. -/
theorem BoundSums.fromOutside {bound first last : LinearSum}
    (h : BoundSums f bound initial step first last) (outside : l.FromOutside f bound)
    (advances : l.Advances f phi initial next step) (integral : f.Integral) :
    l.FromOutside f first ∧ l.FromOutside f last := by
  obtain ⟨ofFirst, ofLast⟩ :=
    h.terms ⟨advances.outside, advances.isWhole_initial integral⟩ outside.terms
  obtain ⟨scaled, shifted, scaling, shifting, adding⟩ := h.ends
  exact ⟨⟨ofFirst, LinearSum.Normal.addTerm LinearSum.isNormal_nil (by decide) h.starts⟩,
    ofLast, ((outside.normal.multiply scaling).addSum shifting).addConstant adding⟩

end SimpleLoop

namespace Machine

open SimpleLoop

variable {f : Procedure} {g : FlowGraph} {args : List Number} {l : SimpleLoop}

/-- A stay in a loop that starts from the given state, with the number of times that control has
returned to the header. -/
inductive Activation (l : SimpleLoop) (f : Procedure) (args : List Number) (origin : State) :
    Nat → State → Prop
  | enter {t : State} (run : step f args origin = .ok t) (header : t.block = l.header) :
    Activation l f args origin 0 t
  | inner {k : Nat} {s t : State} (before : Activation l f args origin k s)
    (run : step f args s = .ok t) (inside : t.block ∈ l.loop.body)
    (stays : s.pending = [] → t.block ≠ l.header) : Activation l f args origin k t
  | back {k : Nat} {s t : State} (before : Activation l f args origin k s)
    (run : step f args s = .ok t) (last : s.pending = []) (header : t.block = l.header) :
    Activation l f args origin (k + 1) t

/-- A state from which a run may enter the loop. -/
structure Approaches (l : SimpleLoop) (f : Procedure) (args : List Number) (s : State) : Prop where
  reached : Reached f args s
  block : s.block = l.preheader
  last : s.pending = []

variable {origin s t : State} {k : Nat} {phi initial next : ValueId} {v : ValueId} {sum : LinearSum}
  {b test : BlockId} {stride p : Int}

/-- Activations are reached. -/
theorem Activation.reached (h : Activation l f args origin k s) (approach : Approaches l f args origin) :
    Reached f args s := by
  induction h with
  | enter run _ => exact approach.reached.step run
  | inner _ run _ _ ih => exact ih.step run
  | back _ run _ _ ih => exact ih.step run

/-- They stay in the loop. -/
theorem Activation.mem_body (h : Activation l f args origin k s)
    (natural : l.loop.IsNatural g f) : s.block ∈ l.loop.body := by
  cases h with
  | enter _ header => exact header ▸ natural.header_mem
  | inner _ _ inside _ => exact inside
  | back _ _ _ header => exact header ▸ natural.header_mem

/-- A step of an instruction stays in its block. -/
theorem block_of_instr {rest : List ValueId} (next : s.pending = v :: rest)
    (run : step f args s = .ok t) : t.block = s.block := by
  obtain ⟨value, m, slot, -, -, rfl⟩ := step_instr next run
  rfl

/-- The entry does not lie below a header that has phis: the header would be the entry, which has none. -/
theorem not_above_entry (h : f.OnInt32 g) (simple : l.IsSimple g f) (phis : f.phisAt l.header ≠ []) :
    ¬g.Above l.header f.entry := by
  intro above
  have d := h.consistent.describes
  have same : l.header = f.entry := d.above_antisymm above
    (d.entry_above (simple.natural.reachable _ simple.natural.header_mem))
  exact phis (same ▸ h.noPhis)

/-- A loop whose header has phis is entered over the edge from its preheader, and every state of a run
in the loop belongs to a stay. -/
theorem Reached.activation (reached : Reached f args s) (h : f.OnInt32 g) (simple : l.IsSimple g f)
    (phis : f.phisAt l.header ≠ []) (inside : s.block ∈ l.loop.body) :
    ∃ origin k, Approaches l f args origin ∧ Activation l f args origin k s := by
  have wf := h.consistent.wellFormed
  have d := h.consistent.describes
  have natural := simple.natural
  induction reached with
  | start started =>
    rw [(start_spec started).1] at inside
    exact absurd (natural.below _ inside) (not_above_entry h simple phis)
  | @step s t before run ih =>
    cases next : s.pending with
    | cons v rest =>
      rw [block_of_instr next run] at inside
      obtain ⟨origin, k, approach, stay⟩ := ih inside
      refine ⟨origin, k, approach, stay.inner run (block_of_instr next run ▸ inside) ?_⟩
      rw [next]
      exact nofun
    | nil =>
      have entered := step_enters (nodup_phisAt wf) next run
      have reachable := (before.stands wf d).reachable
      by_cases header : t.block = l.header
      · have edge : l.header ∈ f.successors s.block := header ▸ entered.edge
        by_cases again : s.block ∈ l.loop.body
        · obtain ⟨origin, k, approach, stay⟩ := ih again
          exact ⟨origin, k + 1, approach, stay.back run next header⟩
        · have outer := (natural.enter s.block).mpr ⟨reachable, edge, again⟩
          rw [simple.preheaders, List.mem_singleton] at outer
          exact ⟨s, 0, ⟨before, outer, next⟩, .enter run header⟩
      · obtain ⟨origin, k, approach, stay⟩ :=
          ih (natural.closed _ inside header _ reachable entered.edge)
        exact ⟨origin, k, approach, stay.inner run inside fun _ => header⟩

/-- A step into or inside a block changes nothing outside of it. -/
theorem slots_of_elsewhere (wf : f.WellFormed g) (d : g.Describes f) (reached : Reached f args s)
    (run : step f args s = .ok t) (ne : f.home? v ≠ some t.block) :
    t.memory.slots[v]? = s.memory.slots[v]? := by
  cases next : s.pending with
  | cons w rest =>
    obtain ⟨before, split⟩ := (reached.stands wf d).position
    have home := (wf.structured.instrs s.block w (by simp [split, next])).2
    obtain ⟨value, m, slot, -, computed, rfl⟩ := step_instr next run
    have other : v ≠ w := by
      rintro rfl
      exact ne home
    rw [Memory.slots_write, if_neg fun same => other same.1, (compute_slots computed).1]
  | nil =>
    exact (step_enters (nodup_phisAt wf) next run).others v fun phi =>
      ne (wf.structured.phis _ v phi).2

/-- A step into or inside a loop changes nothing outside of it. -/
theorem slots_of_outside (wf : f.WellFormed g) (d : g.Describes f) (reached : Reached f args s)
    (run : step f args s = .ok t) (inside : t.block ∈ l.loop.body) (out : l.Outside f v) :
    t.memory.slots[v]? = s.memory.slots[v]? :=
  slots_of_elsewhere wf d reached run fun home => out _ home inside

/-- During a stay nothing changes outside the loop. -/
theorem Activation.slots (h : Activation l f args origin k s) (approach : Approaches l f args origin)
    (wf : f.WellFormed g) (d : g.Describes f) (natural : l.loop.IsNatural g f) (out : l.Outside f v) :
    s.memory.slots[v]? = origin.memory.slots[v]? := by
  induction h with
  | enter run header =>
    exact slots_of_outside wf d approach.reached run (header ▸ natural.header_mem) out
  | inner before run inside _ ih =>
    exact (slots_of_outside wf d (before.reached approach) run inside out).trans ih
  | back before run _ header ih =>
    exact (slots_of_outside wf d (before.reached approach) run (header ▸ natural.header_mem) out).trans ih

/-- Sums of values from outside keep their value during a stay. -/
theorem Activation.eval_eq (h : Activation l f args origin k s) (approach : Approaches l f args origin)
    (wf : f.WellFormed g) (d : g.Describes f) (natural : l.loop.IsNatural g f)
    (outside : sum.TermsSatisfy (l.Outside f)) :
    sum.eval (f.valueIn s.memory) = sum.eval (f.valueIn origin.memory) :=
  LinearSum.eval_congr fun t ht =>
    Procedure.valueIn_congr (h.slots approach wf d natural (outside t ht))

/-- Entering a block gives a phi the content of its input, which has been computed. -/
theorem slots_phi_of_enters {phi x : ValueId} {inputs : List (ValueId × BlockId)}
    (consistent : f.Consistent g) (reached : Reached f args s) (last : s.pending = [])
    (entered : Enters f s t) (mem : phi ∈ f.phisAt t.block)
    (code : f.opcode? phi = some (.phi inputs)) (listed : (x, s.block) ∈ inputs) :
    Available f g s x ∧ t.memory.slots[phi]? = s.memory.slots[x]? := by
  have wf := consistent.wellFormed
  have d := consistent.describes
  have stands := reached.stands wf d
  have reachable := (stands.enters wf d entered).reachable
  refine ⟨available_input wf d consistent.listed stands last reachable mem code listed, ?_⟩
  obtain ⟨inputs', y, slot, code', input, found, -, written⟩ := entered.phis phi mem
  obtain rfl := Opcode.phi.inj (Option.some.inj (code.symm.trans code'))
  -- The inputs of a phi come from different blocks.
  have same : y = x := by
    have nodup := (wf.structured.sources phi inputs code).1
    exact (Prod.mk.inj (List.inj_on_of_nodup_map nodup (List.mem_of_find?_eq_some input) listed rfl)).1
  rw [written, ← found, same]
  rw [stands.size]
  exact Procedure.lt_size_of_home? (wf.structured.phis _ phi mem).2

/-- The slot of a phi of the header changes only when the header is entered. -/
theorem slots_of_header_phi (wf : f.WellFormed g) (d : g.Describes f) (reached : Reached f args s)
    (run : step f args s = .ok t) (mem : phi ∈ f.phisAt l.header)
    (stays : s.pending = [] → t.block ≠ l.header) :
    t.memory.slots[phi]? = s.memory.slots[phi]? := by
  obtain ⟨kind, home⟩ := wf.structured.phis _ phi mem
  cases next : s.pending with
  | cons w rest =>
    obtain ⟨before, split⟩ := (reached.stands wf d).position
    have other := (wf.structured.instrs s.block w (by simp [split, next])).1
    obtain ⟨value, m, slot, -, computed, rfl⟩ := step_instr next run
    have ne : phi ≠ w := by
      rintro rfl
      rw [kind] at other
      cases other
    rw [Memory.slots_write, if_neg fun same => ne same.1, (compute_slots computed).1]
  | nil =>
    refine (step_enters (nodup_phisAt wf) next run).others phi fun here => stays next ?_
    exact Option.some.inj ((wf.structured.phis _ phi here).2.symm.trans home)

/-- A stay that returns to the header comes from the end of its body. -/
theorem Activation.source_eq (h : Activation l f args origin k s) (simple : l.IsSimple g f)
    (entered : Enters f s t) (header : t.block = l.header) : s.block = l.backedge := by
  have edge : l.header ∈ f.successors s.block := header ▸ entered.edge
  have closes := (simple.natural.back s.block).mpr ⟨edge, h.mem_body simple.natural⟩
  rwa [simple.backedges, List.mem_singleton] at closes

/-- During a stay the phis of the header are available. -/
theorem Activation.available_phi (h : Activation l f args origin k s)
    (approach : Approaches l f args origin) (wf : f.WellFormed g) (d : g.Describes f)
    (simple : l.IsSimple g f) (mem : phi ∈ f.phisAt l.header) : Available f g s phi := by
  have stands := (h.reached approach).stands wf d
  obtain ⟨before, split⟩ := stands.position
  refine ⟨before, split, l.header, (wf.structured.phis _ phi mem).2, ?_⟩
  split
  · next here => exact List.mem_append_left _ (here ▸ mem)
  · exact d.dominates_iff.mpr ⟨stands.reachable, simple.natural.below _ (h.mem_body simple.natural)⟩

/-- In every round an advancing phi that holds an integer is as many steps away from its first value as
rounds have passed. -/
theorem Activation.holds_initial (h : Activation l f args origin k s)
    (approach : Approaches l f args origin) (consistent : f.Consistent g)
    (noPhis : f.phisAt f.entry = []) (simple : l.IsSimple g f)
    (advances : l.Advances f phi initial next stride) (holds : s.memory.HoldsInt phi p) :
    s.memory.HoldsInt initial (p - stride * k) := by
  have wf := consistent.wellFormed
  have d := consistent.describes
  have natural := simple.natural
  obtain ⟨inputs, code, -, enters, repeats⟩ := advances.inputs
  have mem := wf.structured.mem_phisAt_of_home consistent.listed advances.home code rfl
  have fixed : ∀ {s t : State}, Reached f args s → step f args s = .ok t → t.block ∈ l.loop.body →
      t.memory.slots[initial]? = s.memory.slots[initial]? := fun reached run inside =>
    slots_of_outside wf d reached run inside advances.outside
  induction h generalizing p with
  | enter run header =>
    have entered := step_enters (nodup_phisAt wf) approach.last run
    have moved := (slots_phi_of_enters consistent approach.reached approach.last entered
      (header ▸ mem) code (approach.block ▸ enters)).2
    rw [Int.natCast_zero, Int.mul_zero, Int.sub_zero]
    exact (holds.congr moved.symm).congr (fixed approach.reached run (header ▸ natural.header_mem))
  | inner before run inside stays ih =>
    have reached := before.reached approach
    exact (ih (holds.congr (slots_of_header_phi wf d reached run mem stays).symm)).congr
      (fixed reached run inside)
  | @back k s t before run last header ih =>
    have reached := before.reached approach
    have entered := step_enters (nodup_phisAt wf) last run
    obtain ⟨avail, moved⟩ := slots_phi_of_enters consistent reached last entered (header ▸ mem) code
      (before.source_eq simple entered header ▸ repeats)
    -- The next value is read as the phi of this round plus the step.
    obtain ⟨value, terms⟩ := reached.offset_holds consistent noPhis avail advances.offset
      (holds.congr moved.symm)
    obtain ⟨availPhi, q, here⟩ := terms phi rfl
    have ofPhi := reached.valueIn_eq consistent noPhis availPhi here
    simp only [Offset.eval, Option.map_some, Option.getD_some, ofPhi] at value
    have shifted : p - stride * ((k + 1 : Nat) : Int) = q - stride * k := by
      rw [value]
      push_cast
      ring
    rw [shifted]
    exact (ih here).congr (fixed reached run (header ▸ natural.header_mem))

/-- A phi after some rounds. -/
theorem Activation.phi_eq (h : Activation l f args origin k s) (approach : Approaches l f args origin)
    (consistent : f.Consistent g) (noPhis : f.phisAt f.entry = []) (simple : l.IsSimple g f)
    (advances : l.Advances f phi initial next stride) (holds : s.memory.HoldsInt phi p) :
    f.valueIn s.memory phi = f.valueIn s.memory initial + stride * k := by
  have wf := consistent.wellFormed
  have d := consistent.describes
  obtain ⟨inputs, code, -, enters, -⟩ := advances.inputs
  have mem := wf.structured.mem_phisAt_of_home consistent.listed advances.home code rfl
  have here := (h.reached approach).valueIn_eq consistent noPhis
    (h.available_phi approach wf d simple mem) holds
  -- The first value has not changed since the loop was entered.
  have same := h.slots approach wf d simple.natural advances.outside
  have first : Available f g origin initial := available_input wf d consistent.listed
    (approach.reached.stands wf d) approach.last
    (simple.natural.reachable _ simple.natural.header_mem) mem code (approach.block ▸ enters)
  have start := h.holds_initial approach consistent noPhis simple advances holds
  rw [here, Procedure.valueIn_congr same, approach.reached.valueIn_eq consistent noPhis first
    (start.congr same.symm)]
  omega

/-- When the branch of the exit test stays in the loop, the values in the bound of the loop hold
integers, and fewer rounds have passed than the bound allows. -/
theorem Activation.passes (h : Activation l f args origin k s) (approach : Approaches l f args origin)
    (keeps : f.KeepsIntegers g) (simple : l.IsSimple g f) (exit : l.IsExitTest f g b test sum)
    (here : s.block = test) (last : s.pending = []) (run : step f args s = .ok t)
    (stays : t.block ∈ l.loop.body) :
    (sum.TermsSatisfy fun x => ∃ n, s.memory.HoldsInt x n) ∧
      k + 1 ≤ sum.eval (f.valueIn s.memory) := by
  have consistent := keeps.consistent
  have wf := consistent.wellFormed
  have d := consistent.describes
  have reached := h.reached approach
  have stands := reached.stands wf d
  have entered := step_enters (nodup_phisAt wf) last run
  obtain ⟨cond, onTrue, onFalse, i, j, phi, initial, next, step, term, leaves, tests, orients, counts,
    advances, until_⟩ := exit.counter
  rw [← here] at term
  have avail : Available f g s cond :=
    ⟨f.instrsAt s.block, by simp [last], (wf.uses _ stands.reachable).result _ term cond rfl⟩
  obtain ⟨x, slot, target⟩ := entered.test cond onTrue onFalse term
  have stays' : ¬x.isTruthy = (onTrue != b) := by
    intro left
    refine leaves ?_
    cases leavesOnTrue : onTrue != b with
    | true =>
      rw [left, leavesOnTrue, if_pos rfl] at target
      rw [if_pos (by simpa using leavesOnTrue), ← target]
      exact stays
    | false =>
      rw [left, leavesOnTrue, if_neg nofun] at target
      rw [if_neg (by simpa using leavesOnTrue), ← target]
      exact stays
  obtain ⟨turned, sides⟩ := reached.test_holds_iff keeps avail tests slot
  obtain ⟨availPhi, p, ofPhi⟩ := sides phi (orients.lhs counts)
  have ofInitial := h.holds_initial approach consistent keeps.noPhis simple advances ofPhi
  exact ⟨roundsUntil_terms ⟨_, ofInitial⟩ (fun t ht => (sides t (orients.rhs ht).2).2) until_,
    roundsUntil_eval (f.respectsConstants_valueIn _) counts
      (h.phi_eq approach consistent keeps.noPhis simple advances ofPhi)
      (fun holds => stays' (turned.mp (orients.holds_iff.mp holds))) until_⟩

/-- Below the exit test of a loop, fewer rounds have passed than the bound of the loop allows. -/
theorem Activation.bound (h : Activation l f args origin k s) (approach : Approaches l f args origin)
    (keeps : f.KeepsIntegers g) (simple : l.IsSimple g f) (exit : l.IsExitTest f g b test sum)
    (hb : b ∈ l.loop.body) (ne : b ≠ l.header) (above : g.Above test s.block) (below : test ≠ s.block) :
    k + 1 ≤ sum.eval (f.valueIn s.memory) := by
  have wf := keeps.consistent.wellFormed
  have d := keeps.consistent.describes
  have natural := simple.natural
  have inside := exit.test_mem simple d hb ne
  -- Nothing in the loop lies strictly above the header.
  have atHeader : ∀ {t : State}, t.block = l.header → g.Above test t.block → test ≠ t.block → False :=
    fun header above below =>
      below (header ▸ d.above_antisymm (header ▸ above) (natural.below _ inside))
  induction h with
  | enter run header => exact (atHeader header above below).elim
  | back before run last header => exact (atHeader header above below).elim
  | @inner k s t before run stays _ ih =>
    have reached := before.reached approach
    have same : sum.eval (f.valueIn t.memory) = sum.eval (f.valueIn s.memory) :=
      LinearSum.eval_congr fun x hx =>
        Procedure.valueIn_congr (slots_of_outside wf d reached run stays (exit.outside x hx))
    rw [same]
    cases next : s.pending with
    | cons v rest =>
      rw [block_of_instr next run] at above below
      exact ih above below
    | nil =>
      have entered := step_enters (nodup_phisAt wf) next run
      have stands := reached.stands wf d
      have earlier := d.above_pred stands.reachable entered.edge (natural.reachable _ stays) above below
      by_cases own : test = s.block
      · exact (before.passes approach keeps simple exit own.symm next run stays).2
      · exact ih earlier own

end Machine

end Rangefinder
