import Rangefinder.Analysis.Listing
import Rangefinder.Proofs.Stages.Skeleton

/-!
# Symbolic bounds and the arena that holds them

Ranges name their symbolic bounds by numbers, which are positions in the arena of a session. The ranges
belong to the procedure and outlive the session, the arena does not. Within a session the two stay in
step: only the analysis writes numbers, each after the bound has found its place in the arena, and it
begins by taking away all that were there.

What an earlier session has left on the procedure is another matter. Until the analysis is called, the
arena of the next session is empty, so every number that is there refers to nothing.
-/

namespace Rangefinder

namespace Arena

variable {a a' : Arena} {n : Nat} {id : Nat}

/-- The arena has the given capacity and holds no more than that, and its symbolic bounds are tied to
loop bounds that it holds. -/
structure Sound (a : Arena) (n : Nat) : Prop where
  capacity : a.capacity = n
  room : a.size ≤ n
  tied : ∀ bound ∈ a.symbolicBounds, ∀ id ∈ bound.loopBound, id < a.loopBounds.size

/-- An empty arena is sound. -/
theorem sound_empty (n : Nat) : (empty n).Sound n := ⟨rfl, Nat.zero_le n, by simp [empty]⟩

namespace Sound

/-- A symbolic bound may be added when it is tied to a loop bound that is there. -/
theorem addSymbolic? {bound : SymbolicBound} (h : a.Sound n)
    (tie : ∀ l ∈ bound.loopBound, l < a.loopBounds.size) (added : a.addSymbolic? bound = some (a', id)) :
    a'.Sound n := by
  obtain ⟨room, rfl, -⟩ := addSymbolic?_eq_some.mp added
  refine ⟨h.capacity, ?_, fun b mem l tied => ?_⟩
  · have limit := h.capacity
    simp only [size, Array.size_push] at room ⊢
    omega
  · rcases Array.mem_push.mp mem with old | rfl
    · exact h.tied b old l tied
    · exact tie l tied

/-- A loop bound keeps it so. -/
theorem addLoopBound? {bound : LoopBound} (h : a.Sound n)
    (added : a.addLoopBound? bound = some (a', id)) : a'.Sound n ∧ id < a'.loopBounds.size := by
  obtain ⟨room, rfl, rfl⟩ := addLoopBound?_eq_some.mp added
  refine ⟨⟨h.capacity, ?_, fun b mem l tied => ?_⟩, by simp⟩
  · have limit := h.capacity
    simp only [size, Array.size_push] at room ⊢
    omega
  · have old := h.tied b mem l tied
    simp only [Array.size_push]
    omega

/-- The text of a bound in the arena can be written. -/
theorem symbolicText_yields (h : a.Sound n) (held : id < a.symbolicBounds.size) :
    Yields (a.symbolicText id) fun _ => True := by
  have found : a.symbolicBounds[id]? = some a.symbolicBounds[id] := Array.getElem?_eq_getElem held
  have first : Yields (a.symbolic id) fun bound => bound ∈ a.symbolicBounds :=
    ⟨_, by rw [symbolic, found], Array.getElem_mem held⟩
  refine first.bind fun bound mem => ?_
  cases tied : bound.loopBound with
  | none => exact .ok trivial
  | some l =>
    have inside := h.tied bound mem l tied
    have looked : a.loopBound l = .ok a.loopBounds[l] := by
      rw [loopBound, Array.getElem?_eq_getElem inside]
    exact Yields.bind ⟨_, looked, trivial⟩ fun _ (_ : True) => .ok trivial

/-- The text of a range can be written when the arena has its symbolic bounds. -/
theorem rangeText_yields {r : Range} (h : a.Sound n)
    (held : ∀ id, r.Mentions id → id < a.symbolicBounds.size) :
    Yields (a.rangeText r) fun _ => True := by
  have side : ∀ o : Option Nat, (∀ id, o = some id → r.Mentions id) →
      Yields (o.mapM a.symbolicText) fun _ => True := by
    intro o mentioned
    cases o with
    | none => exact .ok trivial
    | some id => exact (h.symbolicText_yields (held id (mentioned id rfl))).bind fun _ _ => .ok trivial
  refine (side r.symbolicLower fun id => .inl).bind fun _ _ => ?_
  exact (side r.symbolicUpper fun id => .inr).bind fun _ _ => .ok trivial

end Sound

end Arena

namespace Procedure

variable {f f' : Procedure} {b : BlockId} {v : ValueId}

/-- The blocks carry their identifiers, phis stand apart from instructions, and what is listed exists. -/
structure Listable (f : Procedure) : Prop where
  numbered : f.BlocksNumbered
  phis : f.ListsPhis
  instrs : ∀ b, ∀ v ∈ f.instrsAt b, v < f.values.size

/-- Structured is listable. -/
theorem Structured.listable (s : f.Structured) : f.Listable :=
  ⟨s.numbered, s.listsPhis, fun b v hv => lt_size_of_home? (s.instrs b v hv).2⟩

/-- Every member of a block exists. -/
theorem Listable.lt_size (h : f.Listable) (hv : v ∈ f.membersAt b) :
    v < f.values.size := by
  rcases List.mem_append.mp hv with phi | instr
  · exact SameSkeleton.lt_size_of_isPhi (h.phis b v phi)
  · exact h.instrs b v instr

/-- Blocks stay numbered. -/
theorem SameSkeleton.numbered (h : SameSkeleton f f') (numbered : f.BlocksNumbered) :
    f'.BlocksNumbered := by
  intro b block found
  have same := map_eq_of_map_eq (h.blocks b) Prod.fst
  rw [found] at same
  obtain ⟨old, found', own⟩ := Option.map_eq_some_iff.mp same.symm
  exact own.symm.trans (numbered b old found')

/-- An instruction that is listed after an edit was listed before, or is the new one. -/
theorem Edit.mem_instrsAt (h : Edit f f') (hv : v ∈ f'.instrsAt b) :
    v ∈ f.instrsAt b ∨ v < f'.values.size := by
  cases h with
  | @place c before after o t placed =>
    rw [placed.instrsAt] at hv
    split at hv
    · next own =>
      subst own
      rw [placed.listed, placed.valueCount]
      rcases List.mem_append.mp hv with first | last
      · exact .inl (List.mem_append_left _ first)
      · rcases List.mem_cons.mp last with rfl | last
        · exact .inr (Nat.lt_succ_self _)
        · exact .inl (List.mem_append_right _ last)
    · exact .inl hv
  | note same _ => exact .inl (same.layout.instrsAt b ▸ hv)
  | rename renamed => exact .inl (renamed.layout.instrsAt b ▸ hv)
  | recode _ _ same =>
    subst same
    exact .inl hv
  | @detach w c _ out =>
    obtain ⟨block, found, listed⟩ := Procedure.mem_instrsAt.mp hv
    rw [out.blocks] at found
    obtain ⟨old, present, rfl⟩ := Option.map_eq_some_iff.mp found
    refine .inl (Procedure.mem_instrsAt.mpr ⟨old, present, ?_⟩)
    split at listed
    · exact List.mem_of_mem_filter listed
    · exact listed

/-- Edits and notes keep a procedure listable. -/
theorem Evolves.listable (h : Evolves f f') (listable : f.Listable) : f'.Listable := by
  have same := Evolves.sameSkeleton h listable.phis
  refine ⟨same.numbered listable.numbered, same.listsPhis listable.phis, ?_⟩
  induction h with
  | refl => exact listable.instrs
  | @tail f₁ f₂ before step ih =>
    have instrs := ih (Evolves.sameSkeleton before listable.phis)
    rcases step with edit | code
    · intro b v hv
      rcases edit.mem_instrsAt hv with old | new
      · exact (instrs b v old).trans_le edit.count
      · exact new
    · intro b v hv
      rw [code.layout.valueCount]
      exact instrs b v (code.layout.instrsAt b ▸ hv)

end Procedure

namespace Session

open Procedure

variable {s t : Session} {n : Nat} {e : Option AnalysisError} {bound : LinearSum} {l : SimpleLoop}
  {boundId : Nat} {phi : ValueId}

/-- The arena holds every symbolic bound that a range mentions. -/
def Resolves (s : Session) : Prop :=
  ∀ v id, s.procedure.Mentions v id → id < s.arena.symbolicBounds.size

/-! ### The listing -/

/-- A line can be written. -/
theorem valueLine_yields {v : ValueId} (present : v < s.procedure.values.size)
    (sound : s.arena.Sound n) (resolves : s.Resolves) : Yields (s.valueLine v) fun _ => True := by
  refine (value_yields present).bind fun value found => ?_
  cases ranged : value.range with
  | none => exact .ok trivial
  | some r =>
    have held : ∀ id, r.Mentions id → id < s.arena.symbolicBounds.size := fun id mentions =>
      resolves v id ⟨r, (range?_of_value found).trans ranged, mentions⟩
    exact (sound.rangeText_yields held).bind fun _ _ => .ok trivial

/-- The listing can be written when the arena holds what the ranges mention. -/
theorem listing_yields (listable : s.procedure.Listable) (sound : s.arena.Sound n)
    (resolves : s.Resolves) : Yields s.listing fun _ => True := by
  have lines : Yields (s.procedure.blocks.toList.mapM s.blockLines) fun _ => True := by
    refine mapM_yields fun block mem => ?_
    obtain ⟨b, found⟩ := Array.mem_iff_getElem?.mp (Array.mem_toList_iff.mp mem)
    have present : block.id < s.procedure.blocks.size := by
      rw [listable.numbered b block found]
      exact (Array.getElem?_eq_some_iff.mp found).1
    have members : Yields ((s.procedure.membersAt block.id).mapM s.valueLine) fun _ => True :=
      mapM_yields fun v hv => valueLine_yields (listable.lt_size hv) sound resolves
    rw [blockLines, members_eq present]
    exact members.bind fun _ _ => .ok trivial
  exact lines.bind fun _ _ => .ok trivial

/-! ### Calls -/

/-- Edits of the procedure leave numbers and arena alone. -/
theorem Revises.resolves_iff (h : s.Revises t) : t.Resolves ↔ s.Resolves := by
  unfold Resolves
  rw [h.arena]
  exact forall₂_congr fun v id => imp_congr_left (Edits.mentions h.edits v id)

/-- The bounds of a phi are tied to the bound of the loop at most. -/
theorem phiBounds_tied {f : Procedure} {bounds : SimpleLoop.PhiBounds}
    (found : (l.phiBounds f boundId bound phi).run = .ok (some bounds)) :
    (∀ id ∈ bounds.lower.loopBound, id = boundId) ∧ ∀ id ∈ bounds.upper.loopBound, id = boundId := by
  obtain ⟨_, _, _, _, _, _, _, _, -, -, -, -, -, which⟩ := SimpleLoop.phiBounds_spec found
  rcases which with ⟨-, -, lower, upper⟩ | ⟨-, -, lower, upper⟩
  all_goals simp [lower, upper]

/-- The bounds of a phi are noted only once the arena holds both of them. -/
theorem boundPhi_resolves (sound : s.arena.Sound n) (resolves : s.Resolves)
    (known : boundId < s.arena.loopBounds.size) (run : boundPhi l boundId bound s phi = .ok (t, e)) :
    t.arena.Sound n ∧ t.Resolves ∧ boundId < t.arena.loopBounds.size := by
  rcases boundPhi_steps run with ⟨rfl, -⟩ | ⟨bounds, found, ⟨rfl, -⟩ | ⟨a, lower, first, rest⟩⟩
  · exact ⟨sound, resolves, known⟩
  · exact ⟨sound, resolves, known⟩
  obtain ⟨tiedLower, tiedUpper⟩ := phiBounds_tied found
  have sound₁ := sound.addSymbolic? (fun id tied => tiedLower id tied ▸ known) first
  obtain ⟨-, rfl, rfl⟩ := Arena.addSymbolic?_eq_some.mp first
  -- The arena may be full now. The lower bound stays in it, but the phi has not been touched.
  rcases rest with ⟨rfl, -⟩ | ⟨a', upper, stats, second, rfl, -⟩
  · refine ⟨sound₁, fun v id mentions => ?_, known⟩
    exact (resolves v id mentions).trans_le (by simp)
  have sound₂ := sound₁.addSymbolic? (fun id tied => tiedUpper id tied ▸ known) second
  obtain ⟨-, rfl, rfl⟩ := Arena.addSymbolic?_eq_some.mp second
  refine ⟨sound₂, fun v id mentions => ?_, known⟩
  simp only [Array.size_push] at mentions ⊢
  by_cases own : v = phi
  · subst own
    obtain ⟨r, same, mentioned⟩ := mentions.of_setRange
    obtain rfl := Option.some.inj same
    rcases mentioned with isLower | isUpper
    · have := Option.some.inj isLower
      omega
    · have := Option.some.inj isUpper
      omega
  · have old := resolves v id ((mentions_setRange_of_ne own).mp mentions)
    omega

/-- Bounding a loop leaves nothing dangling. -/
theorem boundLoop_resolves {loop : Loop} (sound : s.arena.Sound n) (resolves : s.Resolves)
    (run : s.boundLoop loop = .ok (t, e)) : t.arena.Sound n ∧ t.Resolves := by
  rcases boundLoop_cases run with ⟨rfl, -⟩ |
    ⟨l, test, sum, arena, id, stats, block, u, gaveUp, -, -, -, added, -, phis, ends⟩
  · exact ⟨sound, resolves⟩
  obtain ⟨sound₁, known⟩ := sound.addLoopBound? added
  obtain ⟨-, rfl, -⟩ := Arena.addLoopBound?_eq_some.mp added
  have noted : u.arena.Sound n ∧ u.Resolves ∧ id < u.arena.loopBounds.size := by
    refine forEach_keeps (fun u => u.arena.Sound n ∧ u.Resolves ∧ id < u.arena.loopBounds.size)
      (fun phi _ u w e held step => ?_) ?_ phis
    · exact boundPhi_resolves held.1 held.2.1 held.2.2 step
    · exact ⟨sound₁, resolves, known⟩
  rcases ends with ⟨rfl, -⟩ | ⟨-, -, -, hoisted⟩
  · exact ⟨noted.1, noted.2.1⟩
  · have revised := hoist_revises hoisted
    exact ⟨revised.arena ▸ noted.1, revised.resolves_iff.mpr noted.2.1⟩

/-- After the analysis the arena holds what the ranges mention, whatever was there before. -/
theorem analyze_resolves (sound : s.arena.Sound n) (run : s.analyze = .ok (t, e)) :
    t.arena.Sound n ∧ t.Resolves := by
  refine analyze_invariant (fun u => u.arena.Sound n ∧ u.Resolves) (fun u e fixed => ?_)
    (fun u w l e held step => boundLoop_resolves held.1 held.2 step) (fun u w changed held step => ?_)
    (fun u w held revised => ?_) run
  · refine ⟨(fixedPoint_sameWork fixed).1.arena ▸ sound, fun v id mentions => ?_⟩
    exact absurd mentions (not_mentions_of_fixedPoint fixed)
  · have same := (pass_sameWork step).arena
    refine ⟨same ▸ held.1, fun v id mentions => same ▸ held.2 v id ?_⟩
    obtain ⟨p, ran, step⟩ := bind_eq_ok.mp step
    obtain ⟨rfl, -⟩ := Prod.mk.inj (pure_eq_ok.mp step)
    exact Pass.mentions_of_run ran mentions
  · exact ⟨revised.arena ▸ held.1, revised.resolves_iff.mpr held.2⟩

/-- What a sequence of calls does to the arena and to the numbers on the ranges. -/
theorem after_resolves {calls : List Call} (sound : s.arena.Sound n) (run : s.after calls = .ok t) :
    t.arena.Sound n ∧ (.analyze ∈ calls ∨ s.Resolves → t.Resolves) ∧
      (.analyze ∉ calls → s.Revises t) := by
  induction calls generalizing s with
  | nil =>
    obtain rfl := pure_eq_ok.mp run
    exact ⟨sound, fun held => held.resolve_left (by simp), fun _ => .refl⟩
  | cons call rest ih =>
    obtain ⟨u, step, run⟩ := bind_eq_ok.mp run
    by_cases analysis : call = .analyze
    · subst analysis
      obtain ⟨⟨u, e⟩, analyzed, rfl⟩ := map_eq_ok.mp step
      obtain ⟨sound', resolves⟩ := analyze_resolves sound analyzed
      obtain ⟨kept, held, -⟩ := ih sound' run
      exact ⟨kept, fun _ => held (.inr resolves), fun none => absurd List.mem_cons_self none⟩
    · have revised := Call.run_revises analysis step
      obtain ⟨kept, held, only⟩ := ih (revised.arena ▸ sound) run
      refine ⟨kept, fun before => held ?_, fun none => ?_⟩
      · rcases before with mem | resolves
        · exact .inl ((List.mem_cons.mp mem).resolve_left fun same => analysis same.symm)
        · exact .inr (revised.resolves_iff.mpr resolves)
      · exact revised.trans (only fun mem => none (List.mem_cons_of_mem _ mem))

end Session

/-- Work on a procedure that is done before the next begins: calls on a session of its own, or a run of
the pipeline. -/
inductive Task where
  | session (config : Config) (calls : List Call)
  | pipeline (config : Config)

namespace Task

/-- The procedure that a task leaves behind. -/
def run (f : Procedure) : Task → Except Fault Procedure
  | session config calls => do
    let s ← Session.start f config
    return (← s.after calls).procedure
  | pipeline config => Prod.fst <$> Pipeline.run config f

/-- Tasks evolve. -/
theorem run_evolves {f f' : Procedure} {task : Task} (ran : run f task = .ok f') :
    Procedure.Evolves f f' := by
  cases task with
  | session config calls =>
    obtain ⟨s, started, ran⟩ := bind_eq_ok.mp ran
    obtain ⟨t, reached, ran⟩ := bind_eq_ok.mp ran
    obtain rfl := pure_eq_ok.mp ran
    exact (Pipeline.start_keepsSkeleton started).1 ▸ (Session.after_evolves reached).procedure
  | pipeline config =>
    obtain ⟨⟨left, result⟩, ended, rfl⟩ := map_eq_ok.mp ran
    exact Pipeline.run_evolves ended

end Task

namespace Session

open Procedure

variable {f f' : Procedure} {config : Config} {tasks : List Task} {calls : List Call} {s t : Session}

/-- Symbolic bounds do not dangle once a session has analyzed its procedure. Let any tasks be done on an
accepted procedure without symbolic bounds, then let a session start and any calls be made on it. The
arena of the session stays within its capacity, and its bounds are tied to loop bounds that it holds. It
holds what the ranges mention exactly if the analysis has been called, or no task has left symbolic
bounds behind, so always in the first session; and then the listing can be written. -/
theorem bounds_resolve (accepted : f.verify = .ok (.ok ())) (numeric : ∀ v id, ¬f.Mentions v id)
    (earlier : tasks.foldlM Task.run f = .ok f') (started : start f' config = .ok s)
    (reached : s.after calls = .ok t) :
    t.arena.Sound config.arenaCapacity ∧
      (t.Resolves ↔ .analyze ∈ calls ∨ ∀ v id, ¬f'.Mentions v id) ∧ (tasks = [] → t.Resolves) ∧
      (t.Resolves → ∃ text, t.listing = .ok text) := by
  have evolved : Procedure.Evolves f f' := foldlM_invariant (Procedure.Evolves f)
    (fun _ _ _ _ kept step => Relation.ReflTransGen.trans kept (Task.run_evolves step)) .refl earlier
  obtain ⟨same, -, -⟩ := Pipeline.start_keepsSkeleton started
  have empty : s.arena = .empty config.arenaCapacity := by
    obtain ⟨g, -, made⟩ := bind_eq_ok.mp started
    rw [← pure_eq_ok.mp made]
  obtain ⟨sound, held, only⟩ := after_resolves (empty ▸ Arena.sound_empty _) reached
  -- The session starts with an empty arena, and without the analysis neither side changes.
  have exactly : t.Resolves ↔ .analyze ∈ calls ∨ ∀ v id, ¬f'.Mentions v id := by
    refine ⟨fun resolves => ?_, fun covered => held (covered.imp_right fun none v id mentions => ?_)⟩
    · by_cases analysis : .analyze ∈ calls
      · exact .inl analysis
      · refine .inr fun v id mentions => ?_
        have resolved := (only analysis).resolves_iff.mp resolves v id (same ▸ mentions)
        rw [empty] at resolved
        exact absurd resolved (Nat.not_lt_zero id)
    · exact absurd (same ▸ mentions) (none v id)
  refine ⟨sound, exactly, fun none => exactly.mpr (.inr ?_), fun resolves => ?_⟩
  · subst none
    obtain rfl := pure_eq_ok.mp earlier
    exact numeric
  · have structured := (verify_eq_ok.mp accepted).2.choose_spec.2.structured
    have listable := Procedure.Evolves.listable evolved structured.listable
    have listable' := Procedure.Evolves.listable (after_evolves reached).procedure (same ▸ listable)
    obtain ⟨text, written, -⟩ := listing_yields listable' sound resolves
    exact ⟨text, written⟩

/-- A loop that counts to ten, and behind it a branch on a test of a parameter. The test stands in the
first block but is not listed there, so it goes on reading a disjunction that truncation folds away. -/
def foldedTest : Procedure where
  name := "folded_test"
  entry := 0
  blocks := #[⟨0, [], [0, 1, 2, 6, 7], .goto 1, false⟩, ⟨1, [3], [4], .branch 4 2 3, false⟩,
    ⟨2, [], [5], .goto 1, false⟩, ⟨3, [], [], .branch 8 4 5, false⟩, ⟨4, [], [], .exit none, false⟩,
    ⟨5, [], [], .exit none, false⟩]
  values := #[⟨0, .const (.int 0), .int32, some 0, none⟩, ⟨1, .const (.int 1), .int32, some 0, none⟩,
    ⟨2, .const (.int 10), .int32, some 0, none⟩, ⟨3, .phi [(0, 0), (5, 2)], .int32, some 1, none⟩,
    ⟨4, .compare .lt 3 2, .boolean, some 1, none⟩,
    ⟨5, .binary .add 3 1 .checked, .int32, some 2, none⟩, ⟨6, .param 0, .int32, some 0, none⟩,
    ⟨7, .binary .bitOr 6 0 .checked, .int32, some 0, none⟩,
    ⟨8, .compare .lt 7 2, .boolean, some 0, none⟩]
  unsupported := false
  reasons := []

/-- The example mentions no bound. -/
theorem foldedTest_not_mentions (v : ValueId) (id : Nat) : ¬foldedTest.Mentions v id := by
  have none : ∀ value ∈ foldedTest.values, value.range = none := by decide
  rintro ⟨r, known, -⟩
  obtain ⟨value, found, ranged⟩ := Option.bind_eq_some_iff.mp known
  rw [none value (Array.mem_of_getElem? found)] at ranged
  cases ranged

/-- A run of the pipeline leaves the phi of the loop with symbolic bounds. In the next session the betas
cannot be placed, but the analysis is called all the same and gives the phi new bounds. -/
theorem foldedTest_bounds_resolve :
    ∃ f' s t text, [Task.pipeline .standard].foldlM Task.run foldedTest = .ok f' ∧
      start f' .standard = .ok s ∧ s.after [.addBetas, .analyze, .truncate] = .ok t ∧
      f'.Mentions 3 0 ∧ t.procedure.Mentions 3 1 ∧ t.arena.Sound Config.standard.arenaCapacity ∧
      t.Resolves ∧ t.listing = .ok text := by
  have accepted : foldedTest.verify = .ok (.ok ()) := by decide +kernel
  have computed : (do
      let f' ← [Task.pipeline .standard].foldlM Task.run foldedTest
      let s ← start f' .standard
      let t ← s.after [.addBetas, .analyze, .truncate]
      return decide ((f'.range? 3).bind Range.symbolicLower = some 0 ∧
        (t.procedure.range? 3).bind Range.symbolicUpper = some 1)) = Except.ok true := by
    decide +kernel
  obtain ⟨f', earlier, computed⟩ := bind_eq_ok.mp computed
  obtain ⟨s, started, computed⟩ := bind_eq_ok.mp computed
  obtain ⟨t, reached, computed⟩ := bind_eq_ok.mp computed
  obtain ⟨left, fresh⟩ := of_decide_eq_true (pure_eq_ok.mp computed)
  obtain ⟨r, known, lower⟩ := Option.bind_eq_some_iff.mp left
  obtain ⟨r', known', upper⟩ := Option.bind_eq_some_iff.mp fresh
  obtain ⟨sound, exactly, -, listed⟩ :=
    bounds_resolve accepted foldedTest_not_mentions earlier started reached
  have resolves := exactly.mpr (.inl (by simp))
  obtain ⟨text, written⟩ := listed resolves
  exact ⟨f', s, t, text, earlier, started, reached, ⟨r, known, .inl lower⟩, ⟨r', known', .inr upper⟩,
    sound, resolves, written⟩

/-- The bounds that the run has left behind dangle in the next session until the analysis is called: at
its start, and also after the betas could not be placed. There a second run ends, and leaves them. -/
theorem foldedTest_bounds_dangle :
    foldedTest.verify = .ok (.ok ()) ∧ (∀ v id, ¬foldedTest.Mentions v id) ∧
      ∃ f' s t g d, [Task.pipeline .standard].foldlM Task.run foldedTest = .ok f' ∧
        start f' .standard = .ok s ∧ ¬s.Resolves ∧ s.listing = .error (.missingBound 0) ∧
        s.after [.addBetas] = .ok t ∧ ¬t.Resolves ∧
        Pipeline.run .standard f' = .ok (g, .error d) ∧ d.code = .internal ∧ g.Mentions 3 0 := by
  have accepted : foldedTest.verify = .ok (.ok ()) := by decide +kernel
  have computed : (do
      let f' ← [Task.pipeline .standard].foldlM Task.run foldedTest
      let s ← start f' .standard
      let t ← s.after [.addBetas]
      let p ← Pipeline.run .standard f'
      return decide (s.listing = .error (.missingBound 0) ∧
        p.2.mapError Diagnostic.code = .error .internal ∧
        (s.arena.symbolicBounds.size = 0 ∧ t.arena.symbolicBounds.size = 0) ∧
        ∀ h ∈ [s.procedure, t.procedure, p.1], (h.range? 3).bind Range.symbolicLower = some 0)) =
      Except.ok true := by
    decide +kernel
  obtain ⟨f', earlier, computed⟩ := bind_eq_ok.mp computed
  obtain ⟨s, started, computed⟩ := bind_eq_ok.mp computed
  obtain ⟨t, reached, computed⟩ := bind_eq_ok.mp computed
  obtain ⟨⟨g, result⟩, ran, computed⟩ := bind_eq_ok.mp computed
  obtain ⟨fails, ended, ⟨none, none'⟩, lowers⟩ := of_decide_eq_true (pure_eq_ok.mp computed)
  cases result with
  | ok stats => cases ended
  | error d =>
    have mentions : ∀ h ∈ [s.procedure, t.procedure, g], h.Mentions 3 0 := by
      intro h mem
      obtain ⟨r, known, lower⟩ := Option.bind_eq_some_iff.mp (lowers h mem)
      exact ⟨r, known, .inl lower⟩
    have dangles : ∀ u : Session, u.procedure.Mentions 3 0 → u.arena.symbolicBounds.size = 0 →
        ¬u.Resolves := fun u mentions none resolves => by
      have held := resolves 3 0 mentions
      omega
    exact ⟨accepted, foldedTest_not_mentions, f', s, t, g, d, earlier, started,
      dangles s (mentions _ (by simp)) none, fails, reached,
      dangles t (mentions _ (by simp)) none', ran, Except.error.inj ended, mentions g (by simp)⟩

end Session

end Rangefinder
