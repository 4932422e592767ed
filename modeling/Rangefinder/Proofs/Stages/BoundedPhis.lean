import Rangefinder.Proofs.Stages.Emission
import Rangefinder.Proofs.Machine.Guards

/-!
# Phis stay within their symbolic bounds

The treatment of a loop notes two sums for each phi of the header that moves by a constant step: its
first value, and the value that it has when the bound on the rounds is reached. `Bracketed` says what
this means: in every state of a run in the loop the phi lies between the values of the two sums,
wherever they apply. The sum that is tied to the exit test of the loop applies below the test.
-/

namespace Rangefinder

open Procedure Machine

/-- The bound says something about the states of a block: it is tied to nothing, or to a test that
lies above the block. -/
def SymbolicBound.AppliesAt (bound : SymbolicBound) (arena : Arena) (g : FlowGraph) (b : BlockId) :
    Prop :=
  ∀ id ∈ bound.loopBound, ∃ limit, arena.loopBound id = .ok limit ∧ g.Above limit.test b ∧
    limit.test ≠ b

/-- Loop bounds decide. -/
theorem SymbolicBound.AppliesAt.congr {bound : SymbolicBound} {arena arena' : Arena} {g : FlowGraph}
    {b : BlockId} (h : bound.AppliesAt arena' g b) (same : arena'.loopBounds = arena.loopBounds) :
    bound.AppliesAt arena g b := by
  intro id tied
  obtain ⟨limit, found, above⟩ := h id tied
  refine ⟨limit, ?_, above⟩
  rw [Arena.loopBound, ← same]
  exact found

namespace Machine

variable {f f' : Procedure} {args : List Number} {l : SimpleLoop} {origin s : State} {k : Nat}

/-- Approaches are covered. -/
theorem Approaches.covered (h : Approaches l f' args s) (covers : Covers f f' args) :
    Approaches l f args s :=
  ⟨covers.reached h.reached, h.block, h.last⟩

/-- So are activations. -/
theorem Activation.covered (h : Activation l f' args origin k s) (covers : Covers f f' args) :
    Activation l f args origin k s := by
  induction h with
  | enter run header => exact .enter (covers.step _ _ run) header
  | inner _ run inside stays ih => exact ih.inner (covers.step _ _ run) inside stays
  | back _ run last header ih => exact ih.back (covers.step _ _ run) last header

end Machine

namespace SimpleLoop

variable {l : SimpleLoop} {f f' : Procedure} {g : FlowGraph} {arena arena' : Arena} {b : BlockId}
  {sum : LinearSum} {lower upper : SymbolicBound} {phi : ValueId} {v : ValueId} {test : BlockId}

/-- Below the test fewer rounds have passed than the sum says. -/
def LimitsRounds (l : SimpleLoop) (f : Procedure) (g : FlowGraph) (test : BlockId) (sum : LinearSum) :
    Prop :=
  ∀ args origin k s, Approaches l f args origin → Activation l f args origin k s →
    g.Above test s.block → test ≠ s.block → k + 1 ≤ sum.eval (f.valueIn s.memory)

/-- The phi of the header lies between two sums of values from outside the loop, wherever these
apply. -/
structure Bracketed (l : SimpleLoop) (f : Procedure) (g : FlowGraph) (arena : Arena) (phi : ValueId)
    (lower upper : SymbolicBound) : Prop where
  header : phi ∈ f.phisAt l.header
  fromBelow : l.FromOutside f lower.sum
  fromAbove : l.FromOutside f upper.sum
  low : ∀ args s, Reached f args s → s.block ∈ l.loop.body → lower.AppliesAt arena g s.block →
    lower.sum.eval (f.valueIn s.memory) ≤ f.valueIn s.memory phi
  high : ∀ args s, Reached f args s → s.block ∈ l.loop.body → upper.AppliesAt arena g s.block →
    f.valueIn s.memory phi ≤ upper.sum.eval (f.valueIn s.memory)

/-! ### Procedures with the same code -/

/-- Notes keep values outside. -/
theorem Outside.of_sameCode (h : l.Outside f v) (same : SameCode f f') :
    l.Outside f' v := fun b home => h b (same.layout.home? v ▸ home)

/-- So for sums of them. -/
theorem FromOutside.of_sameCode (h : l.FromOutside f sum) (same : SameCode f f') :
    l.FromOutside f' sum := by
  refine ⟨fun t ht => ?_, h.normal⟩
  obtain ⟨out, whole⟩ := h.terms t ht
  exact ⟨out.of_sameCode same, isWhole_congr (same.type? t.term) ▸ whole⟩

/-- Notes change no value. -/
theorem valueIn_of_sameCode (same : SameCode f f') (m : Memory) : f'.valueIn m = f.valueIn m := by
  funext v
  rw [valueIn, valueIn, same.opcode?]

/-- They change no limit. -/
theorem LimitsRounds.of_sameCode (h : l.LimitsRounds f g test sum) (same : SameCode f f') :
    l.LimitsRounds f' g test sum := by
  intro args origin k s approaches stay
  rw [valueIn_of_sameCode same]
  exact h args origin k s (approaches.covered (covers_of_sameCode same))
    (stay.covered (covers_of_sameCode same))

/-- They change no bracket. -/
theorem Bracketed.of_sameCode (h : l.Bracketed f g arena phi lower upper) (same : SameCode f f')
    (tests : arena'.loopBounds = arena.loopBounds) : l.Bracketed f' g arena' phi lower upper := by
  refine ⟨same.layout.phisAt l.header ▸ h.header, h.fromBelow.of_sameCode same,
    h.fromAbove.of_sameCode same, fun args s reached inside applies => ?_,
    fun args s reached inside applies => ?_⟩
  · rw [valueIn_of_sameCode same]
    exact h.low args s ((covers_of_sameCode same).reached reached) inside (applies.congr tests)
  · rw [valueIn_of_sameCode same]
    exact h.high args s ((covers_of_sameCode same).reached reached) inside (applies.congr tests)

/-! ### Extended procedures -/

/-- New values leave old ones outside. -/
theorem Outside.extends (h : l.Outside f v) (grown : f.Extends f' g b) (old : v < f.values.size) :
    l.Outside f' v := fun c home => h c (grown.home? v old ▸ home)

/-- Whole values exist. -/
theorem lt_size_of_isWhole (h : f.isWhole v = true) : v < f.values.size := by
  obtain ⟨type, typed, -⟩ := isWhole_iff.mp h
  exact lt_size_of_type? typed

/-- Sums stay outside. -/
theorem FromOutside.extends (h : l.FromOutside f sum) (grown : f.Extends f' g b) :
    l.FromOutside f' sum := by
  refine ⟨fun t ht => ?_, h.normal⟩
  obtain ⟨out, whole⟩ := h.terms t ht
  have old := lt_size_of_isWhole whole
  exact ⟨out.extends grown old, isWhole_congr (grown.type? t.term old) ▸ whole⟩

/-- The sum has the same value in matching states of the two runs. -/
theorem FromOutside.eval_eq {s s' : State} (h : l.FromOutside f sum) (grown : f.Extends f' g b)
    (m : Matches (isOld f) s s') :
    sum.eval (f'.valueIn s'.memory) = sum.eval (f.valueIn s.memory) :=
  LinearSum.eval_congr fun t ht => grown.valueIn_eq m (lt_size_of_isWhole (h.terms t ht).2)

/-- Brackets stay. -/
theorem Bracketed.extends (h : l.Bracketed f g arena phi lower upper) (consistent : f.Consistent g)
    (grown : f.Extends f' g b) : l.Bracketed f' g arena phi lower upper := by
  have old := consistent.wellFormed.structured.lt_size_of_mem (List.mem_append_left _ h.header)
  refine ⟨grown.phisAt l.header ▸ h.header, h.fromBelow.extends grown, h.fromAbove.extends grown,
    fun args s' reached' inside applies => ?_, fun args s' reached' inside applies => ?_⟩
  all_goals
    obtain ⟨s, reached, m⟩ := grown.reached consistent reached'
    rw [m.block] at inside applies
    rw [grown.valueIn_eq m old]
  · rw [h.fromBelow.eval_eq grown m]
    exact h.low args s reached inside applies
  · rw [h.fromAbove.eval_eq grown m]
    exact h.high args s reached inside applies

/-! ### Bounds that are found -/

/-- Exit tests limit rounds. -/
theorem IsExitTest.limitsRounds (h : l.IsExitTest f g b test sum) (on : f.OnInt32 g)
    (simple : l.IsSimple g f) (hb : b ∈ l.loop.body) (ne : b ≠ l.header) :
    l.LimitsRounds f g test sum := fun _ _ _ _ approaches stay above below =>
  stay.bound approaches on.keepsIntegers simple h hb ne above below

/-- The bounds that are found for a phi hold. -/
theorem phiBounds_bracketed {boundId : Nat} {bound : LinearSum} {bounds : PhiBounds} {limit : LoopBound}
    (on : f.OnInt32 g) (simple : l.IsSimple g f) (mem : phi ∈ f.phisAt l.header)
    (limits : l.LimitsRounds f g limit.test bound) (outside : l.FromOutside f bound)
    (known : arena.loopBound boundId = .ok limit)
    (run : (l.phiBounds f boundId bound phi).run = .ok (some bounds)) :
    l.Bracketed f g arena phi bounds.lower bounds.upper := by
  obtain ⟨value, initial, next, step, first, last, firstRange, reach, valued, moves, sums, -, -,
    boundsOf⟩ := phiBounds_spec run
  have advances := moves.advances (on.consistent.wellFormed.structured.phis _ phi mem).2
  obtain ⟨ofFirst, ofLast⟩ := sums.fromOutside outside advances on.integral
  -- Every state in the loop belongs to a stay, and the number of rounds tells where the phi is.
  have rounds : ∀ args s, Reached f args s → s.block ∈ l.loop.body → ∃ k : Nat,
      f.valueIn s.memory phi = first.eval (f.valueIn s.memory) + step * k ∧
        last.eval (f.valueIn s.memory) =
          first.eval (f.valueIn s.memory) + step * (bound.eval (f.valueIn s.memory) - 1) ∧
        ((⟨some boundId, last⟩ : SymbolicBound).AppliesAt arena g s.block →
          k + 1 ≤ bound.eval (f.valueIn s.memory)) := by
    intro args s reached inside
    obtain ⟨origin, k, approaches, stay⟩ :=
      reached.activation on simple (List.ne_nil_of_mem mem) inside
    obtain ⟨start, final⟩ := sums.eval (f.respectsConstants_valueIn s.memory)
    refine ⟨k, ?_, ?_, fun applies => ?_⟩
    · have avail := stay.available_phi approaches on.consistent.wellFormed on.consistent.describes
        simple mem
      have whole := isWhole_of_type moves.type rfl
      rw [start, stay.phi_eq approaches on.consistent on.noPhis simple advances
        ⟨_, (reached.slot_eq on avail whole).1, rfl⟩]
    · rw [final, start]
    · obtain ⟨limit', found, above, below⟩ := applies boundId rfl
      obtain rfl := Except.ok.inj (known.symm.trans found)
      exact limits args origin k s approaches stay above below
  rcases boundsOf with ⟨grows, -, lower, upper⟩ | ⟨shrinks, -, lower, upper⟩
  · rw [lower, upper]
    refine ⟨mem, ofFirst, ofLast, fun args s reached inside _ => ?_,
      fun args s reached inside applies => ?_⟩
    · obtain ⟨k, here, -⟩ := rounds args s reached inside
      have := Int.mul_nonneg (Int.le_of_lt grows) (Int.natCast_nonneg k)
      dsimp only
      omega
    · obtain ⟨k, here, final, within⟩ := rounds args s reached inside
      have := Int.mul_le_mul_of_nonneg_left (Int.le_sub_right_of_add_le (within applies))
        (Int.le_of_lt grows)
      dsimp only
      omega
  · rw [lower, upper]
    refine ⟨mem, ofLast, ofFirst, fun args s reached inside applies => ?_,
      fun args s reached inside _ => ?_⟩
    · obtain ⟨k, here, final, within⟩ := rounds args s reached inside
      have := mul_le_mul_of_nonpos_left (Int.le_sub_right_of_add_le (within applies))
        (Int.le_of_lt shrinks)
      dsimp only
      omega
    · obtain ⟨k, here, -⟩ := rounds args s reached inside
      have := Int.mul_nonpos_of_nonpos_of_nonneg (Int.le_of_lt shrinks) (Int.natCast_nonneg k)
      dsimp only
      omega

end SimpleLoop

/-! ### The phis of a header -/

namespace Session

variable {s t : Session} {l : SimpleLoop} {these : ValueId → Prop} {e : Option AnalysisError}
  {bound : LinearSum} {boundId : Nat} {limit : LoopBound} {phi : ValueId}

/-- Apart from the given values, only phis of the header have symbolic bounds, and these hold. -/
def Brackets (s : Session) (l : SimpleLoop) (these : ValueId → Prop) : Prop :=
  ∀ v r id, s.procedure.range? v = some r → r.Mentions id → these v ∨
    ∃ lowerId upperId lower upper, r.symbolicLower = some lowerId ∧
      r.symbolicUpper = some upperId ∧ s.arena.symbolic lowerId = .ok lower ∧
      s.arena.symbolic upperId = .ok upper ∧
      l.Bracketed s.procedure s.graph s.arena v lower upper

/-- Between the two, notes were taken about ranges and symbolic bounds only. -/
structure TakesNotes (s t : Session) : Prop where
  code : SameCode s.procedure t.procedure
  graph : t.graph = s.graph
  arena : s.arena.Grows t.arena

/-- Taking notes twice. -/
theorem TakesNotes.trans {u : Session} (h : s.TakesNotes t) (h' : t.TakesNotes u) : s.TakesNotes u :=
  ⟨h.code.trans h'.code, h'.graph.trans h.graph, h.arena.trans h'.arena⟩

/-- Bounding a phi takes notes. -/
theorem boundPhi_takesNotes (run : boundPhi l boundId bound s phi = .ok (t, e)) :
    s.TakesNotes t := by
  rcases boundPhi_cases run with ⟨rfl, -⟩ | ⟨arena, capacity, grows, rfl, -⟩ |
    ⟨bounds, lower, upper, arena, stats, -, grows, -, -, rfl, -⟩
  · exact ⟨.refl, rfl, .refl⟩
  · exact ⟨.refl, rfl, grows⟩
  · exact ⟨sameCode_setRange phi _, rfl, grows⟩

/-- Bounds that hold go on to do so when notes are taken about other values. -/
theorem Brackets.note {v : ValueId} {r : Range} {id : Nat} (h : s.Brackets l these)
    (notes : s.TakesNotes t) (ranged : s.procedure.range? v = some r) (mentions : r.Mentions id) :
    these v ∨ ∃ lowerId upperId lower upper, r.symbolicLower = some lowerId ∧
      r.symbolicUpper = some upperId ∧ t.arena.symbolic lowerId = .ok lower ∧
      t.arena.symbolic upperId = .ok upper ∧
      l.Bracketed t.procedure t.graph t.arena v lower upper := by
  refine (h v r id ranged mentions).imp_right ?_
  rintro ⟨lowerId, upperId, lower, upper, hasLower, hasUpper, foundLower, foundUpper, bracketed⟩
  exact ⟨lowerId, upperId, lower, upper, hasLower, hasUpper, notes.arena.symbolic _ _ foundLower,
    notes.arena.symbolic _ _ foundUpper,
    notes.graph ▸ bracketed.of_sameCode notes.code notes.arena.loopBounds⟩

/-- The bounds that a phi is given hold. -/
theorem boundPhi_brackets (h : s.Brackets l these) (on : s.procedure.OnInt32 s.graph)
    (simple : l.IsSimple s.graph s.procedure) (mem : phi ∈ s.procedure.phisAt l.header)
    (limits : l.LimitsRounds s.procedure s.graph limit.test bound)
    (outside : l.FromOutside s.procedure bound) (known : s.arena.loopBound boundId = .ok limit)
    (run : boundPhi l boundId bound s phi = .ok (t, e)) : t.Brackets l these := by
  have notes := boundPhi_takesNotes run
  intro v r id ranged mentions
  rcases boundPhi_cases run with ⟨rfl, -⟩ | ⟨arena, capacity, grows, rfl, -⟩ |
    ⟨bounds, lower, upper, arena, stats, found, grows, foundLower, foundUpper, rfl, -⟩
  · exact h v r id ranged mentions
  · exact h.note notes ranged mentions
  · dsimp only at ranged
    rw [range?_setRange] at ranged
    split at ranged
    · next own =>
      subst own
      obtain ⟨_, -, noted⟩ := Option.bind_eq_some_iff.mp ranged
      obtain rfl := Option.some.inj noted
      exact .inr ⟨lower, upper, bounds.lower, bounds.upper, rfl, rfl, foundLower, foundUpper,
        (SimpleLoop.phiBounds_bracketed on simple mem limits outside known found).of_sameCode
          notes.code grows.loopBounds⟩
    · exact h.note notes ranged mentions

/-- The bounds that the phis of a header are given hold. -/
theorem forEach_boundPhi_brackets {phis : List ValueId} (h : s.Brackets l these)
    (on : s.procedure.OnInt32 s.graph) (simple : l.IsSimple s.graph s.procedure)
    (members : ∀ phi ∈ phis, phi ∈ s.procedure.phisAt l.header)
    (limits : l.LimitsRounds s.procedure s.graph limit.test bound)
    (outside : l.FromOutside s.procedure bound) (known : s.arena.loopBound boundId = .ok limit)
    (run : forEach (boundPhi l boundId bound) phis s = .ok (t, e)) :
    t.Brackets l these ∧ s.TakesNotes t := by
  refine forEach_keeps (fun u => u.Brackets l these ∧ s.TakesNotes u)
    (fun phi hphi u v e ⟨brackets, notes⟩ run => ?_) ⟨h, .refl, rfl, .refl⟩ run
  have on' : u.procedure.OnInt32 u.graph := notes.graph ▸ on.of_sameCode notes.code
  have simple' : l.IsSimple u.graph u.procedure := by
    rw [notes.graph]
    exact simple.of_describes on.consistent.describes (notes.graph ▸ on'.consistent.describes)
  have limits' : l.LimitsRounds u.procedure u.graph limit.test bound :=
    notes.graph ▸ limits.of_sameCode notes.code
  have known' : u.arena.loopBound boundId = .ok limit := by
    rw [Arena.loopBound, notes.arena.loopBounds]
    exact known
  exact ⟨boundPhi_brackets brackets on' simple' (notes.code.layout.phisAt l.header ▸ members phi hphi)
    limits' (outside.of_sameCode notes.code) known' run, notes.trans (boundPhi_takesNotes run)⟩

end Session

end Rangefinder
