import Rangefinder.Proofs.Machine.Lockstep

/-!
# Betas and assertions are transparent

A beta holds what it refines in every state in which it is available: the refined value is computed
above the block of the beta, and control cannot come back there without passing the beta again. So
a use that was redirected to a beta reads what it read before, and a procedure with betas returns and
bails out as it does without them. A range assertion is read by nothing; a procedure with assertions
gives the same answer, or it fails at one of the assertions.

Betas and assertions are placed one by one, so both statements follow by induction over the stage
from a comparison of two procedures that differ in one instruction.
-/

namespace Rangefinder

/-- The run has ended with an answer: a result, or the check at which it left the procedure. -/
def Halt.isAnswer : Halt → Bool
  | returned _ | bailout _ _ => true
  | failed _ | faulted _ => false

/-- Answers are told apart by what is observed of them. -/
theorem Halt.eq_of_observed {halt halt' : Halt} (answer : halt.isAnswer = true)
    (same : halt'.observed = halt.observed) : halt' = halt := by
  cases halt <;> cases halt' <;> simp_all [observed, isAnswer]

/-- The opcode looks at a value and changes nothing. -/
def Opcode.looksOnly : Opcode → Bool
  | beta _ _ | assertRange _ _ => true
  | _ => false

/-- Renaming keeps opcodes quiet. -/
theorem Opcode.isQuiet_rename {o : Opcode} {ρ : ValueId → ValueId}
    {π : BlockId → ValueId → ValueId} : (o.rename ρ π).isQuiet = o.isQuiet := by
  cases o <;> rfl

namespace Machine

variable {f f' : Procedure} {g : FlowGraph} {args : List Number} {halt : Halt} {before after : List ValueId}
  {type : ValueType} {o : Opcode} {v : ValueId} {g' : FlowGraph} {b : BlockId}

/-- The run ends this way, given enough budget. -/
def Ends (f : Procedure) (args : List Number) (halt : Halt) : Prop :=
  ∃ budget, run f args budget = some halt

/-- Procedures that take the same steps end alike. -/
theorem RunsAs.ends_iff (h : RunsAs f f' args) : Ends f args halt ↔ Ends f' args halt := by
  simp only [Ends, h.run_eq]

/-- A state of a run is reached after finitely many steps. -/
theorem Reached.run_eq {s : State} (h : Reached f args s) :
    ∃ n, ∀ more, run f args (n + more) = resume f args more s := by
  induction h with
  | start started => exact ⟨0, fun more => by rw [run, started, Nat.zero_add]⟩
  | step before next ih =>
    obtain ⟨n, eq⟩ := ih
    refine ⟨n + 1, fun more => ?_⟩
    rw [Nat.add_assoc, Nat.add_comm 1, eq, resume, next]

/-- A run ends at some position in a state that it reaches. -/
theorem ends_iff (entry : f.entry < f.blocks.size) :
    Ends f args halt ↔ ∃ position, EndsAt f args position halt := by
  constructor
  · rintro ⟨budget, ended⟩
    rcases run_eq_some ended with failed | ⟨s, reached, failed⟩
    · rw [start_eq_ok entry] at failed
      cases failed
    · exact ⟨_, s, reached, rfl, failed⟩
  · rintro ⟨position, s, reached, -, failed⟩
    obtain ⟨n, eq⟩ := reached.run_eq
    exact ⟨n + 1, by rw [eq, resume, failed]⟩

/-- The run fails at an assertion that only the second procedure has. -/
def FailsAtAssertion (f f' : Procedure) (args : List Number) : Prop :=
  ∃ v input range e, f.values.size ≤ v ∧ f'.opcode? v = some (.assertRange input range) ∧
    EndsAt f' args (some v) (.failed e)

/-- A run does not end at a beta, since what the beta refines has been computed. -/
theorem not_endsAt_beta {v x : ValueId} {r : Range} (consistent : f.Consistent g)
    (noPhis : f.phisAt f.entry = []) (code : f.opcode? v = some (.beta x r)) :
    ¬EndsAt f args (some v) halt := by
  rintro ⟨s, reached, head, failed⟩
  have wf := consistent.wellFormed
  have holds := (maintained_isSet wf).reached wf consistent.describes consistent.listed noPhis reached
  obtain ⟨rest, next⟩ : ∃ rest, s.pending = v :: rest := List.head?_eq_some_iff.mp head
  have set := holds.values x
    (available_operand holds.stands wf next code (by simp [Opcode.operands]))
  obtain ⟨value, found, -⟩ := Option.map_eq_some_iff.mp code
  rw [step_of_cons next code (Procedure.type?_of_value found), bind_eq_error] at failed
  rcases failed with failed | ⟨r, -, failed⟩
  · rcases bind_eq_error.mp failed with failed | ⟨slot, -, failed⟩
    · exact set.read_ne_error v failed
    · cases failed
  · cases failed

/-- Looking at a value can only fail. -/
theorem failed_of_looksOnly {m : Memory} (looks : o.looksOnly = true)
    (h : compute args m v type o = .error halt) :
    ∃ e, halt = .failed e := by
  have read : ∀ user x halt, m.read user x = .error halt → ∃ e, halt = .failed e := by
    intro user x halt h
    rw [Memory.read] at h
    split at h <;> cases h <;> exact ⟨_, rfl⟩
  cases o with
  | beta input refinement =>
    rcases bind_eq_error.mp h with h | ⟨slot, -, h⟩
    · exact read v input halt h
    · cases h
  | assertRange input range =>
    rcases bind_eq_error.mp h with h | ⟨x, -, h⟩
    · rcases bind_eq_error.mp h with h | ⟨slot, -, h⟩
      · exact read input input halt h
      · split at h <;> cases h
        exact ⟨_, rfl⟩
    · split at h <;> cases h
      exact ⟨_, rfl⟩
  | _ => cases looks

/-- A run that ends at an instruction which only looks at a value fails there. -/
theorem EndsAt.failed_of_looksOnly (h : EndsAt f args (some v) halt) (code : f.opcode? v = some o)
    (looks : o.looksOnly = true) :
    ∃ e, halt = .failed e := by
  obtain ⟨s, -, head, failed⟩ := h
  obtain ⟨rest, next⟩ : ∃ rest, s.pending = v :: rest := List.head?_eq_some_iff.mp head
  obtain ⟨value, found, -⟩ := Option.map_eq_some_iff.mp code
  rw [step_of_cons next code (Procedure.type?_of_value found), bind_eq_error] at failed
  rcases failed with failed | ⟨r, -, failed⟩
  · exact Machine.failed_of_looksOnly looks failed
  · cases failed

/-! ### One additional instruction -/

/-- A procedure and the same one with a new quiet instruction, and with uses renamed, have the old
instructions in common. -/
theorem parallel_of_placed {f₁ : Procedure} {ρ : ValueId → ValueId → ValueId}
    {π : ValueId → BlockId → ValueId → ValueId} {τ : BlockId → ValueId → ValueId}
    (structured : f.Structured) (placed : f.Placed f₁ b before after o type)
    (renamed : Procedure.Renaming f₁ f' ρ π τ) (quiet : o.isQuiet = true) :
    f.Parallel f' (isOld f) ρ π τ := by
  have old : ∀ c, ∀ v ∈ f.instrsAt c, isOld f v = true := fun c v hv =>
    decide_eq_true (structured.lt_size_of_mem (List.mem_append_right _ hv))
  have ne : ∀ v, isOld f v = true → v ≠ f.values.size := fun v kept =>
    Nat.ne_of_lt (of_decide_eq_true kept)
  have instrs : ∀ c, (f'.instrsAt c).filter (isOld f) = f.instrsAt c := by
    intro c
    rw [renamed.layout.instrsAt, placed.instrsAt]
    split
    · next own =>
      subst own
      have own := old c
      rw [placed.listed] at own ⊢
      simp only [List.mem_append] at own
      rw [List.filter_append, List.filter_cons_of_neg (by simp [isOld]),
        List.filter_eq_self.mpr fun v hv => own v (.inl hv),
        List.filter_eq_self.mpr fun v hv => own v (.inr hv)]
    · exact List.filter_eq_self.mpr (old c)
  refine ⟨placed.flow.trans renamed.layout.flow, fun v kept => ?_, fun v kept => ?_, fun v kept => ?_,
    fun c => ?_, fun c v hv => ?_, fun c => ?_, fun c => ?_, fun c v hv extra => ?_,
    fun c v hv extra => ?_⟩
  · have := of_decide_eq_true kept
    rw [renamed.layout.valueCount, placed.valueCount]
    exact ⟨fun _ => this, fun _ => Nat.lt_succ_of_lt this⟩
  · rw [renamed.opcode?, placed.opcode?, if_neg (ne v kept)]
  · rw [renamed.type?, placed.type?, if_neg (ne v kept)]
  · rw [renamed.layout.phisAt, placed.phisAt]
  · exact decide_eq_true (structured.lt_size_of_mem (List.mem_append_left _ hv))
  · rw [instrs, List.filter_eq_self.mpr (old c)]
  · rw [renamed.terminator?, placed.terminator?]
  · rw [old c v hv] at extra
    cases extra
  · have new : v = f.values.size := by
      rw [renamed.layout.instrsAt, placed.instrsAt] at hv
      split at hv
      · next own =>
        subst own
        have own := old c v
        rw [placed.listed] at own
        simp only [List.mem_append, List.mem_cons] at hv own
        rcases hv with hv | rfl | hv
        · exact absurd (own (.inl hv)) (by simp [extra])
        · rfl
        · exact absurd (own (.inr hv)) (by simp [extra])
      · exact absurd (old c v hv) (by simp [extra])
    refine ⟨o.rename (ρ v) (π v), by rw [renamed.opcode?, placed.opcode?, if_pos new]; rfl, ?_⟩
    exact Opcode.isQuiet_rename.trans quiet

/-- A new quiet instruction that nothing reads runs beside the others. -/
theorem lockstep_of_placed (consistent : f.Consistent g) (later : f'.Consistent g)
    (placed : f.Placed f' b before after o type) (quiet : o.isQuiet = true) (args : List Number) :
    Lockstep f f' (isOld f) args := by
  refine Faithful.lockstep ⟨parallel_of_placed consistent.wellFormed.structured placed .refl quiet,
    consistent, later, fun state state' _ _ m x y avail _ use => ?_⟩
  have same : y = x := by
    rcases use with ⟨v, rfl⟩ | ⟨p, q, rfl⟩ | ⟨c, rfl⟩ <;> rfl
  obtain ⟨-, -, home, stands, -⟩ := avail
  rw [same, m.memory.slots x (decide_eq_true (Procedure.lt_size_of_home? stands))]

/-- An answer of the one procedure is one of the other, if no run ends at an instruction that only one of
them has. -/
theorem Lockstep.ends_of {keep : ValueId → Bool} (lock : Lockstep f f' keep args)
    (before : f.Consistent g) (after : f'.Consistent g')
    (alone : ∀ v halt', keep v = false → ¬EndsAt f args (some v) halt')
    (alone' : ∀ v halt', keep v = false → ¬EndsAt f' args (some v) halt')
    (answer : halt.isAnswer = true) (ends : Ends f args halt) : Ends f' args halt := by
  obtain ⟨position, ends⟩ := (Machine.ends_iff before.wellFormed.structured.entry).mp ends
  have shared : ∀ v ∈ position, keep v = true := by
    rintro v ⟨rfl⟩
    by_contra extra
    exact alone v halt (Bool.not_eq_true _ ▸ extra) ends
  rcases lock.endsAt shared ends with ⟨halt', ends', same⟩ | ⟨v, halt', extra, ends'⟩
  · exact (Machine.ends_iff after.wellFormed.structured.entry).mpr
      ⟨position, Halt.eq_of_observed answer same ▸ ends'⟩
  · exact absurd ends' (alone' v halt' extra)

/-- Procedures in lockstep give the same answers, if no run ends at an instruction that only one of them
has. -/
theorem Lockstep.ends_iff {keep : ValueId → Bool} (lock : Lockstep f f' keep args)
    (before : f.Consistent g) (after : f'.Consistent g')
    (alone : ∀ v halt', keep v = false → ¬EndsAt f args (some v) halt')
    (alone' : ∀ v halt', keep v = false → ¬EndsAt f' args (some v) halt')
    (answer : halt.isAnswer = true) : Ends f args halt ↔ Ends f' args halt :=
  ⟨lock.ends_of before after alone alone' answer, lock.symm.ends_of after before alone' alone answer⟩

/-- A run does not end at an instruction that the procedure does not have. -/
theorem not_endsAt_new (consistent : f.Consistent g) (extra : isOld f v = false) :
    ¬EndsAt f args (some v) halt := by
  intro ends
  rw [ends.isOld consistent v rfl] at extra
  cases extra

end Machine

namespace Session

open Machine

variable {s t : Session} {args : List Number} {input : ValueId} {range : Range} {b : BlockId} {halt : Halt}

/-- A beta is read only where it holds what was read before. -/
theorem PlacesBeta.lockstep (h : s.PlacesBeta t b input range)
    (consistent : s.procedure.Consistent s.graph) (noPhis : s.procedure.phisAt s.procedure.entry = [])
    (args : List Number) :
    Lockstep s.procedure t.procedure (isOld s.procedure) args := by
  have after := h.consistent consistent
  rw [h.graph] at after
  obtain ⟨f, type, -, placed, ρ, π, τ, renamed, hρ, hπ, hτ⟩ := h.edit
  have structured := consistent.wellFormed.structured
  have noPhis' : t.procedure.phisAt t.procedure.entry = [] := by
    rw [renamed.layout.phisAt, placed.phisAt, renamed.entry, placed.entry, noPhis]
  have code : t.procedure.opcode? s.procedure.values.size = some (.beta input range) := by
    have stays : ρ s.procedure.values.size input = input :=
      (hρ _ input).resolve_right fun moved => moved.2.1 rfl
    rw [renamed.opcode?, placed.opcode?, if_pos rfl, Option.map_some,
      Opcode.rename_of_not_phi rfl, Opcode.mapOperands, stays]
  refine Faithful.lockstep ⟨parallel_of_placed structured placed renamed rfl, consistent, after,
    fun state state' _ reached' m x y avail avail' use => ?_⟩
  have old : isOld s.procedure x = true := by
    obtain ⟨-, -, home, stands, -⟩ := avail
    exact decide_eq_true (Procedure.lt_size_of_home? stands)
  have moved : y = x ∨ x = input ∧ y = s.procedure.values.size := by
    rcases use with ⟨v, rfl⟩ | ⟨p, q, rfl⟩ | ⟨c, rfl⟩
    · exact (hρ v x).imp_right And.left
    · exact (hπ p q x).imp_right And.left
    · exact (hτ c x).imp_right And.left
  rw [← m.memory.slots x old]
  rcases moved with rfl | ⟨rfl, rfl⟩
  · rfl
  · exact (reached'.computed after noPhis' avail').beta code

/-- A beta changes no answer. -/
theorem PlacesBeta.ends_iff (h : s.PlacesBeta t b input range)
    (consistent : s.procedure.Consistent s.graph) (noPhis : s.procedure.phisAt s.procedure.entry = [])
    (answer : halt.isAnswer = true) :
    Ends s.procedure args halt ↔ Ends t.procedure args halt := by
  have after := h.consistent consistent
  have lockstep := h.lockstep consistent noPhis args
  obtain ⟨f, type, -, placed, ρ, π, τ, renamed, -⟩ := h.edit
  have noPhis' : t.procedure.phisAt t.procedure.entry = [] := by
    rw [renamed.layout.phisAt, placed.phisAt, renamed.entry, placed.entry, noPhis]
  -- The only additional instruction is the beta, and a run does not end there.
  refine lockstep.ends_iff consistent after (fun v halt' => not_endsAt_new consistent)
    (fun v halt' extra ends => ?_) answer
  have new : v = s.procedure.values.size := by
    have := ends.lt_size after
    rw [renamed.layout.valueCount, placed.valueCount] at this
    exact Nat.le_antisymm (Nat.lt_succ_iff.mp this) (Nat.not_lt.mp (of_decide_eq_false extra))
  have code : t.procedure.opcode? v = some (.beta (ρ v input) range) := by
    rw [renamed.opcode?, placed.opcode?, if_pos new]
    rfl
  exact not_endsAt_beta after noPhis' code ends

/-- Betas change no answer. -/
theorem addBetas_ends_iff {e : Option AnalysisError} (consistent : s.procedure.Consistent s.graph)
    (noPhis : s.procedure.phisAt s.procedure.entry = []) (answer : halt.isAnswer = true)
    (run : s.addBetas = .ok (t, e)) :
    Ends s.procedure args halt ↔ Ends t.procedure args halt := by
  refine (addBetas_invariant (fun u => u.procedure.Consistent u.graph ∧
      u.procedure.phisAt u.procedure.entry = [] ∧
      (Ends s.procedure args halt ↔ Ends u.procedure args halt))
    (fun _ => And.left) (fun u v b input range kept places => ?_)
    ⟨consistent, noPhis, Iff.rfl⟩ run).1.2.2
  obtain ⟨consistent, noPhis, same⟩ := kept
  obtain ⟨f, type, -, placed, ρ, π, τ, renamed, -⟩ := places.edit
  refine ⟨places.consistent consistent, ?_, same.trans (places.ends_iff consistent noPhis answer)⟩
  rw [renamed.layout.phisAt, placed.phisAt, renamed.entry, placed.entry, noPhis]

/-- An assertion is read by nothing. -/
theorem PlacesAssertion.lockstep (h : s.PlacesAssertion t)
    (consistent : s.procedure.Consistent s.graph) (args : List Number) :
    Lockstep s.procedure t.procedure (isOld s.procedure) args := by
  have after := h.consistent consistent
  rw [h.graph] at after
  obtain ⟨b, before, rest, v, range, -, placed⟩ := h.edit
  exact lockstep_of_placed consistent after placed rfl args

/-- What a run of the one procedure tells about a run of the other, which has assertions in addition. -/
structure Asserts (f f' : Procedure) (args : List Number) : Prop where
  count : f.values.size ≤ f'.values.size
  forth : ∀ position halt, EndsAt f args position halt →
    (∃ halt', EndsAt f' args position halt' ∧ halt'.observed = halt.observed) ∨
      FailsAtAssertion f f' args
  back : ∀ position halt, EndsAt f' args position halt → halt.isAnswer = true →
    EndsAt f args position halt

/-- A run that fails at an assertion fails at one when another assertion is placed. -/
theorem PlacesAssertion.asserts {f : Procedure} (h : s.PlacesAssertion t)
    (consistent : s.procedure.Consistent s.graph) (asserts : Asserts f s.procedure args) :
    Asserts f t.procedure args := by
  have after := h.consistent consistent
  have lockstep := h.lockstep consistent args
  obtain ⟨b, before, rest, x, range, -, placed⟩ := h.edit
  -- The only additional instruction is the assertion.
  have atNew : ∀ v halt, isOld s.procedure v = false → EndsAt t.procedure args (some v) halt →
      t.procedure.opcode? v = some (.assertRange x range) ∧ s.procedure.values.size ≤ v := by
    intro v halt extra ends
    have new := Nat.not_lt.mp (of_decide_eq_false extra)
    have := ends.lt_size after
    rw [placed.valueCount] at this
    rw [placed.opcode?, if_pos (Nat.le_antisymm (Nat.lt_succ_iff.mp this) new)]
    exact ⟨rfl, new⟩
  have fails : ∀ v halt, isOld s.procedure v = false → EndsAt t.procedure args (some v) halt →
      FailsAtAssertion f t.procedure args := by
    intro v halt extra ends
    obtain ⟨code, new⟩ := atNew v halt extra ends
    obtain ⟨e, rfl⟩ := ends.failed_of_looksOnly code rfl
    exact ⟨v, x, range, e, asserts.count.trans new, code, ends⟩
  refine ⟨asserts.count.trans ?_, fun position halt ends => ?_, fun position halt ends answer => ?_⟩
  · rw [placed.valueCount]
    exact Nat.le_succ _
  · rcases asserts.forth position halt ends with ⟨halt', ends', same⟩ |
      ⟨v, input, r, e, new, code, failed⟩
    · rcases lockstep.endsAt (ends'.isOld consistent) ends' with ⟨halt'', ends'', same'⟩ |
        ⟨v, halt'', extra, ends''⟩
      · exact .inl ⟨halt'', ends'', same'.trans same⟩
      · exact .inr (fails v halt'' extra ends'')
    · rcases lockstep.endsAt (failed.isOld consistent) failed with ⟨halt', ends', same⟩ |
        ⟨w, halt', extra, ends'⟩
      · have old := failed.lt_size consistent
        have code' : t.procedure.opcode? v = some (.assertRange input r) := by
          rw [placed.opcode?, if_neg (Nat.ne_of_lt old), code]
        obtain ⟨e', rfl⟩ := ends'.failed_of_looksOnly code' rfl
        exact .inr ⟨v, input, r, e', new, code', ends'⟩
      · exact .inr (fails w halt' extra ends')
  · have shared : ∀ v ∈ position, isOld s.procedure v = true := by
      rintro v ⟨rfl⟩
      by_contra extra
      obtain ⟨code, -⟩ := atNew v halt (Bool.not_eq_true _ ▸ extra) ends
      obtain ⟨e, rfl⟩ := ends.failed_of_looksOnly code rfl
      cases answer
    rcases lockstep.symm.endsAt shared ends with ⟨halt', ends', same⟩ | ⟨v, halt', extra, ends'⟩
    · obtain rfl := Halt.eq_of_observed answer same
      exact asserts.back position halt' ends' answer
    · rw [ends'.isOld consistent v rfl] at extra
      cases extra

/-- Assertions change no answer but by failing. -/
theorem addAssertions_asserts (args : List Number) (consistent : s.procedure.Consistent s.graph)
    (run : s.addAssertions = .ok t) : Asserts s.procedure t.procedure args ∧
      t.procedure.Consistent t.graph := by
  refine addAssertions_invariant (fun u => Asserts s.procedure u.procedure args ∧
      u.procedure.Consistent u.graph) (fun _ => And.right)
    (fun u v kept places => ⟨places.asserts kept.2 kept.1, places.consistent kept.2⟩)
    ⟨⟨le_rfl, fun position halt ends => .inl ⟨halt, ends, rfl⟩, fun _ _ ends _ => ends⟩,
      consistent⟩ run

/-- A procedure gives the same answers with betas as without them. With range assertions it gives the
same answers, except that the run may fail at an assertion that was placed. -/
theorem instrumentation_transparent (current : FlowGraph.build s.procedure = .ok s.graph)
    (accepted : s.procedure.verify = .ok (.ok ()))
    (noPhis : s.procedure.phisAt s.procedure.entry = []) (listed : s.procedure.AllListed)
    (args : List Number) :
    (∀ t, s.addBetas = .ok (t, none) → ∀ halt, halt.isAnswer = true →
      (Ends s.procedure args halt ↔ Ends t.procedure args halt)) ∧
    ∀ t, s.addAssertions = .ok t → ∀ halt, halt.isAnswer = true →
      (Ends s.procedure args halt → Ends t.procedure args halt ∨
        FailsAtAssertion s.procedure t.procedure args) ∧
      (Ends t.procedure args halt → Ends s.procedure args halt) := by
  obtain ⟨-, g, built, wellFormed⟩ := Procedure.verify_eq_ok.mp accepted
  obtain rfl : s.graph = g := Except.ok.inj (current.symm.trans built)
  have consistent : s.procedure.Consistent s.graph := ⟨built, wellFormed, listed⟩
  refine ⟨fun t run halt answer => addBetas_ends_iff consistent noPhis answer run,
    fun t run halt answer => ?_⟩
  obtain ⟨asserts, after⟩ := addAssertions_asserts args consistent run
  rw [Machine.ends_iff wellFormed.structured.entry,
    Machine.ends_iff after.wellFormed.structured.entry]
  constructor
  · rintro ⟨position, ends⟩
    rcases asserts.forth position halt ends with ⟨halt', ends', same⟩ | failed
    · exact .inl ⟨position, Halt.eq_of_observed answer same ▸ ends'⟩
    · exact .inr failed
  · rintro ⟨position, ends⟩
    exact ⟨position, asserts.back position halt ends answer⟩

/-- Counts from 0 to 10. The range of the first constant is known. -/
def countToTen : Procedure where
  name := "count"
  entry := 0
  blocks := #[⟨0, [], [0, 1, 2], .goto 1, false⟩, ⟨1, [3], [4], .branch 4 2 3, false⟩,
    ⟨2, [], [5], .goto 1, false⟩, ⟨3, [], [], .exit (some 3), false⟩]
  values := #[⟨0, .const (.int 0), .int32, some 0, some .anyBoolean⟩,
    ⟨1, .const (.int 10), .int32, some 0, none⟩, ⟨2, .const (.int 1), .int32, some 0, none⟩,
    ⟨3, .phi [(0, 0), (5, 2)], .int32, some 1, none⟩, ⟨4, .compare .lt 3 1, .boolean, some 1, none⟩,
    ⟨5, .binary .add 3 2 .checked, .int32, some 2, none⟩]
  unsupported := false
  reasons := []

/-- Both ways out of the test of `countToTen` get a beta, and the known range is asserted. -/
theorem countToTen_transparent : ∃ s t t', start countToTen .standard = .ok s ∧
    s.addBetas = .ok (t, none) ∧ t.stats.betasInserted = 2 ∧
    s.addAssertions = .ok t' ∧ t'.stats.assertions = 1 ∧
    (FlowGraph.build s.procedure = .ok s.graph ∧ s.procedure.verify = .ok (.ok ()) ∧
      s.procedure.phisAt s.procedure.entry = [] ∧ s.procedure.AllListed) ∧
    ∀ args x, (Ends countToTen args (.returned x) ↔ Ends t.procedure args (.returned x)) ∧
      (Ends t'.procedure args (.returned x) → Ends countToTen args (.returned x)) := by
  have betas : (fun r : StageResult => (r.2.isNone, r.1.stats.betasInserted)) <$>
      (start countToTen .standard >>= addBetas) = .ok (true, 2) := by decide +kernel
  have assertions : (fun r : Session => r.stats.assertions) <$>
      (start countToTen .standard >>= addAssertions) = .ok 1 := by decide +kernel
  obtain ⟨⟨t, e⟩, ran, counts⟩ := map_eq_ok.mp betas
  obtain ⟨t', ran', placed⟩ := map_eq_ok.mp assertions
  obtain ⟨given, inserted⟩ := Prod.mk.inj counts
  obtain rfl := Option.isNone_iff_eq_none.mp given
  obtain ⟨s, started, ran⟩ := bind_eq_ok.mp ran
  obtain ⟨s', started', ran'⟩ := bind_eq_ok.mp ran'
  obtain rfl := Except.ok.inj (started.symm.trans started')
  obtain ⟨g, current, same⟩ := bind_eq_ok.mp started
  have procedure : s.procedure = countToTen := by rw [← pure_eq_ok.mp same]
  have graph : s.graph = g := by rw [← pure_eq_ok.mp same]
  have accepted : countToTen.verify = .ok (.ok ()) := by decide +kernel
  have listed : countToTen.AllListed := by decide +kernel
  rw [← procedure] at current accepted listed
  rw [← graph] at current
  have noPhis : s.procedure.phisAt s.procedure.entry = [] := by
    rw [procedure]
    rfl
  refine ⟨s, t, t', started, ran, inserted, ran', placed, ⟨current, accepted, noPhis, listed⟩,
    fun args x => ?_⟩
  obtain ⟨withBetas, withAssertions⟩ :=
    instrumentation_transparent current accepted noPhis listed args
  rw [← procedure]
  exact ⟨withBetas t ran _ rfl, (withAssertions t' ran' _ rfl).2⟩

end Session

end Rangefinder
