import Rangefinder.Proofs.Analysis.NormalRanges
import Rangefinder.Proofs.Range.Integers
import Rangefinder.Proofs.Stages.LoopLimits

/-!
# The phis of a loop stay within what is noted about them

For a phi of the header that moves by a constant step, the treatment of a loop notes two sums and refines
the range of the phi. `boundLoop_phis` says what this means for the runs of a procedure on int32 numbers.
The phi is never behind its first value. Below the exit test it is not beyond the sum for the last round.
Its refined range contains it, also when it has made the step after which the loop is left, and after
the loop, provided that the ranges from which the refinement is made contain what they are about.

The proviso is needed: `twoEntries_exceeds` is about a procedure with a loop that is entered at two
places. There the fixed point leaves a range too small, and a phi of another loop leaves its refined range.
-/

namespace Rangefinder

open Procedure Machine

namespace SimpleLoop

variable {l : SimpleLoop} {f f' : Procedure} {g : FlowGraph} {val : ValueId → Int} {i e n : Int}
  {range first r : Range} {reach : Option Range}

/-! ### Refined ranges -/

/-- The range of a sum admits its value when the ranges of its terms admit theirs. -/
theorem rangeOfSum_admits {sum : LinearSum} {r : Range}
    (terms : sum.TermsSatisfy fun x => ∀ r, f.rangeRead x = .ok r → r.Admits (val x))
    (run : rangeOfSum f sum = .ok r) : r.Admits (sum.eval val) := by
  obtain ⟨start, constant, run⟩ := bind_eq_ok.mp run
  have fold : ∀ (l : List LinearTerm) (acc : Range) (a : Int),
      (∀ t ∈ l, ∀ r, f.rangeRead t.term = .ok r → r.Admits (val t.term)) → acc.Admits a →
      l.foldlM (fun acc t => do
        let scaled ← (← f.rangeRead t.term).mul (← Range.int32 t.scale t.scale)
        acc.add scaled) acc = .ok r → r.Admits (a + LinearSum.evalTerms val l) := by
    intro l
    induction l with
    | nil =>
      intro acc a _ within run
      rw [← Except.ok.inj run, LinearSum.evalTerms, Int.add_zero]
      exact within
    | cons t rest ih =>
      intro acc a terms within run
      rw [List.forall_mem_cons] at terms
      rw [List.foldlM_cons] at run
      obtain ⟨next, added, run⟩ := bind_eq_ok.mp run
      obtain ⟨read, reading, added⟩ := bind_eq_ok.mp added
      obtain ⟨factor, scale, added⟩ := bind_eq_ok.mp added
      obtain ⟨scaled, product, added⟩ := bind_eq_ok.mp added
      have own := Range.mul_admits product (terms.1 read reading) (Range.int32_admits scale)
      have := ih next _ terms.2 (Range.add_admits added within own) run
      rwa [LinearSum.evalTerms, Int.mul_comm, ← Int.add_assoc]
  rw [LinearSum.eval, Int.add_comm]
  exact fold sum.terms start sum.constant terms (Range.int32_admits constant) run

/-- The refined range of a growing phi contains what lies between its first value and what it
reaches. -/
theorem refineGrowing_contains (run : refineGrowing range first reach = .ok r)
    (h : range.contains (.ofInt n) = true) (fits : IsInt32 n) (starts : first.Admits i)
    (ends : ∀ r ∈ reach, r.Admits e) (low : i ≤ n) (high : n ≤ max i e) :
    r.contains (.ofInt n) = true := by
  have capped : ∀ raised : Range, raised.contains (.ofInt n) = true →
      refineGrowing raised { first with lower := none } reach = .ok r →
      r.contains (.ofInt n) = true := by
    intro raised above run
    simp only [refineGrowing, pure_bind] at run
    split at run
    · next k k' bound bound' =>
      obtain ⟨r', reaches, bound'⟩ := Option.bind_eq_some_iff.mp bound'
      have := starts.upper k bound
      have := (ends r' reaches).upper k' bound'
      split at run
      · exact Range.atMost_contains run above fits (by omega)
      · exact pure_eq_ok.mp run ▸ above
    · exact pure_eq_ok.mp run ▸ above
  rw [refineGrowing] at run
  cases bound : first.lower with
  | none =>
    simp only [bound, pure_bind] at run
    exact capped range h run
  | some k =>
    simp only [bound, pure_bind] at run
    split at run
    · obtain ⟨raised, raising, run⟩ := bind_eq_ok.mp run
      exact capped raised
        (Range.atLeast_contains raising h fits ((starts.lower k bound).trans low)) run
    · exact capped range h run

/-- The refined range of a shrinking phi contains what lies between its first value and what it
reaches. -/
theorem refineShrinking_contains (run : refineShrinking range first reach = .ok r)
    (h : range.contains (.ofInt n) = true) (fits : IsInt32 n) (starts : first.Admits i)
    (ends : ∀ r ∈ reach, r.Admits e) (high : n ≤ i) (low : min i e ≤ n) :
    r.contains (.ofInt n) = true := by
  have raised : ∀ lowered : Range, lowered.contains (.ofInt n) = true →
      refineShrinking lowered { first with upper := none } reach = .ok r →
      r.contains (.ofInt n) = true := by
    intro lowered below run
    simp only [refineShrinking, pure_bind] at run
    split at run
    · next k k' bound bound' =>
      obtain ⟨r', reaches, bound'⟩ := Option.bind_eq_some_iff.mp bound'
      have := starts.lower k bound
      have := (ends r' reaches).lower k' bound'
      split at run
      · exact Range.atLeast_contains run below fits (by omega)
      · exact pure_eq_ok.mp run ▸ below
    · exact pure_eq_ok.mp run ▸ below
  rw [refineShrinking] at run
  cases bound : first.upper with
  | none =>
    simp only [bound, pure_bind] at run
    exact raised range h run
  | some k =>
    simp only [bound, pure_bind] at run
    split at run
    · obtain ⟨lowered, lowering, run⟩ := bind_eq_ok.mp run
      exact raised lowered
        (Range.atMost_contains lowering h fits (high.trans (starts.upper k bound))) run
    · exact raised range h run

/-- What is defined before the loop does not stand below the header. -/
theorem IsSimple.not_below {v : ValueId} {b : BlockId} (simple : l.IsSimple g f) (d : g.Describes f)
    (defined : f.DefinedAtEnd g v l.preheader) (home : f.home? v = some b) :
    ¬g.Above l.header b := by
  obtain ⟨b', home', dominates⟩ := defined
  obtain rfl := Option.some.inj (home.symm.trans home')
  intro below
  exact simple.natural.not_above_preheader (by simp [simple.preheaders])
    (below.trans (d.dominates_iff.mp dominates).2)

end SimpleLoop

namespace Machine

open SimpleLoop

variable {f : Procedure} {g : FlowGraph} {args : List Number} {l : SimpleLoop} {s : State}
  {b test : BlockId} {sum : LinearSum} {phi initial next : ValueId}

/-! ### After the loop -/

/-- A run that is below the header of a loop has been in the loop. Since it was there last, the phis of
the header and what does not stand below the header have not changed. -/
theorem Reached.lastStay (reached : Reached f args s) (h : f.OnInt32 g) (simple : l.IsSimple g f)
    (phis : f.phisAt l.header ≠ []) (below : g.Above l.header s.block) :
    ∃ origin k last, Approaches l f args origin ∧ Activation l f args origin k last ∧
      (s.block ∈ l.loop.body → last = s) ∧ ∀ v, v ∈ f.phisAt l.header ∨
        (∀ b, f.home? v = some b → ¬g.Above l.header b) → s.memory.slots[v]? = last.memory.slots[v]? := by
  have wf := h.consistent.wellFormed
  have d := h.consistent.describes
  induction reached with
  | start started =>
    rw [(start_spec started).1] at below
    exact absurd below (not_above_entry h simple phis)
  | @step s t before run ih =>
    by_cases inside : t.block ∈ l.loop.body
    · obtain ⟨origin, k, approach, stay⟩ := (before.step run).activation h simple phis inside
      exact ⟨origin, k, t, approach, stay, fun _ => rfl, fun _ _ => rfl⟩
    have ne : t.block ≠ l.header := fun same => inside (same ▸ simple.natural.header_mem)
    have earlier : g.Above l.header s.block := by
      cases pending : s.pending with
      | cons v rest => exact block_of_instr pending run ▸ below
      | nil =>
        have entered := step_enters (nodup_phisAt wf) pending run
        exact d.above_pred (before.stands wf d).reachable entered.edge
          ((before.step run).stands wf d).reachable below (Ne.symm ne)
    obtain ⟨origin, k, last, approach, stay, -, same⟩ := ih earlier
    refine ⟨origin, k, last, approach, stay, fun here => absurd here inside,
      fun v kept => Eq.trans ?_ (same v kept)⟩
    rcases kept with mem | out
    · exact slots_of_header_phi wf d before run mem fun _ => ne
    · exact slots_of_elsewhere wf d before run fun home => out _ home below

/-- Wherever a phi that moves by a constant step is available, it is some steps away from its first value,
no more than the bound of the loop says, and less below the exit test. -/
theorem Reached.phi_steps {stride : Int} (reached : Reached f args s) (valid : f.Valid g)
    (on : f.OnInt32 g) (simple : l.IsSimple g f) (mem : phi ∈ f.phisAt l.header)
    (moves : l.Moves f phi initial next stride) (exit : l.IsExitTest f g b test sum)
    (hb : b ∈ l.loop.body) (ne : b ≠ l.header) (upper : g.Above b l.backedge)
    (avail : Available f g s phi) :
    ∃ k : Nat, f.valueIn s.memory phi = f.valueIn s.memory initial + stride * k ∧
      k ≤ max 0 (sum.eval (f.valueIn s.memory)) ∧
      (s.block ∈ l.loop.body → g.Above test s.block → test ≠ s.block →
        k + 1 ≤ sum.eval (f.valueIn s.memory)) := by
  have wf := on.consistent.wellFormed
  have d := on.consistent.describes
  have home := (wf.structured.phis _ phi mem).2
  have below : g.Above l.header s.block := by
    obtain ⟨before, -, b, home', here⟩ := avail
    obtain rfl := Option.some.inj (home.symm.trans home')
    split at here
    · next own => exact own ▸ .refl
    · exact (d.dominates_iff.mp here).2
  obtain ⟨origin, k, last, approach, stay, here, same⟩ :=
    reached.lastStay on simple (List.ne_nil_of_mem mem) below
  have before : ∀ x, f.DefinedAtEnd g x l.preheader →
      f.valueIn s.memory x = f.valueIn last.memory x := fun x defined =>
    valueIn_congr (same x (.inr fun _ home => simple.not_below d defined home))
  have availLast := stay.available_phi approach wf d simple mem
  have holds := ((stay.reached approach).slot_eq on availLast (isWhole_of_type moves.type rfl)).1
  refine ⟨k, ?_, ?_, fun inside above below => ?_⟩
  · rw [valueIn_congr (same phi (.inl mem)), before initial (moves.inputs.definedAtEnd valid simple home)]
    exact stay.phi_eq approach on.consistent on.noPhis simple (moves.advances home) ⟨_, holds, rfl⟩
  · rw [LinearSum.eval_congr fun t ht => before _ (exit.terms valid simple hb ne t ht),
      stay.eval_eq approach wf d simple.natural exit.outside]
    exact stay.le_bound approach on.keepsIntegers simple exit hb ne upper
  · obtain rfl := here inside
    exact stay.bound approach on.keepsIntegers simple exit hb ne above below

end Machine

/-! ### What is noted about a phi -/

/-- The second number lies in the direction of the step from the first one, or is equal to it. -/
def Onward (step a b : Int) : Prop := if 0 < step then a ≤ b else b ≤ a

/-- Steps lead onward. -/
theorem onward_of_eq {step a b d : Int} (moved : b = a + step * d) (ahead : 0 ≤ d) :
    Onward step a b := by
  rw [Onward]
  split
  · next grows =>
    have := Int.mul_nonneg (Int.le_of_lt grows) ahead
    omega
  · next shrinks =>
    have := Int.mul_nonpos_of_nonpos_of_nonneg (Int.not_lt.mp shrinks) ahead
    omega

namespace SimpleLoop

variable {l : SimpleLoop} {f f' : Procedure} {g : FlowGraph} {phi initial next : ValueId} {step : Int}
  {limit : LoopBound} {r : Range} {reach : Option Range} {bounds : PhiBounds} {boundId : Nat}

/-- The symbolic bounds of a moving phi. One is its first value. The other one is tied to the bound of the
loop and says how far the phi gets: as many steps as there are rounds, less one. -/
structure IsSpan (f : Procedure) (boundId : Nat) (limit : LoopBound) (initial : ValueId) (step : Int)
    (start stop : SymbolicBound) : Prop where
  untied : start.loopBound = none
  tied : stop.loopBound = some boundId
  first : ∀ m, start.sum.eval (f.valueIn m) = f.valueIn m initial
  last : ∀ m, stop.sum.eval (f.valueIn m) =
    limit.sum.eval (f.valueIn m) * step + f.valueIn m initial - step

/-- What the note about a phi says of a state. The range of the phi is only as good as those that it was
made from: the one that the phi had before, and those of its first value and of the values in the bound
of the loop. -/
structure KeepsTo (l : SimpleLoop) (f : Procedure) (g : FlowGraph) (limit : LoopBound)
    (phi initial : ValueId) (step : Int) (r : Range) (s : State) : Prop where
  integer : s.memory.slots[phi]? = some (.number (.ofInt (f.valueIn s.memory phi)))
  start : Onward step (f.valueIn s.memory initial) (f.valueIn s.memory phi)
  stop : s.block ∈ l.loop.body → g.Above limit.test s.block → limit.test ≠ s.block →
    Onward step (f.valueIn s.memory phi)
      (limit.sum.eval (f.valueIn s.memory) * step + f.valueIn s.memory initial - step)
  range : (∀ r₀, f.range? phi = some r₀ → r₀.contains (.ofInt (f.valueIn s.memory phi)) = true) →
    (∀ x ∈ initial :: limit.sum.terms.map LinearTerm.term, ∀ r₀, f.rangeRead x = .ok r₀ →
      r₀.contains (.ofInt (f.valueIn s.memory x)) = true) →
    r.contains (.ofInt (f.valueIn s.memory phi)) = true

/-- The numbers of a value without a range are those of its type. -/
theorem contains_getD {range : Option Range} {n : Int} (fits : IsInt32 n)
    (h : ∀ r ∈ range, r.contains (.ofInt n) = true) :
    (range.getD ValueType.int32.range).contains (.ofInt n) = true := by
  cases range with
  | some r => exact h r rfl
  | none =>
    refine Range.Normal.contains (ValueType.range_normal .int32)
      ⟨fun k bound => ?_, fun k bound => ?_⟩ fits
    · obtain rfl := Option.some.inj bound
      exact fits.1
    · obtain rfl := Option.some.inj bound
      exact fits.2

/-- What a phi reaches when the loop is left belongs to the range that was found for it. -/
theorem Reaches.admits {bound first last : LinearSum} {val : ValueId → Int}
    (h : Reaches f last step reach) (sums : BoundSums f bound initial step first last)
    (respects : LinearSum.RespectsConstants f val)
    (read : ∀ x ∈ initial :: bound.terms.map LinearTerm.term, ∀ r, f.rangeRead x = .ok r →
      r.Admits (val x)) :
    ∀ r ∈ reach, r.Admits (val initial + step * bound.eval val) := by
  intro r hr
  obtain ⟨sum, adding, ranged⟩ := h r hr
  have terms : last.TermsSatisfy fun x => ∀ r, f.rangeRead x = .ok r → r.Admits (val x) :=
    (sums.terms (read initial List.mem_cons_self) fun t ht =>
      read t.term (List.mem_cons_of_mem _ (List.mem_map_of_mem ht))).2
  have admits := rangeOfSum_admits (terms.addConstant adding) ranged
  rw [LinearSum.eval_addConstant adding, (sums.eval respects).2, Int.mul_sub, Int.mul_one] at admits
  have same : val initial + (step * bound.eval val - step) + step =
      val initial + step * bound.eval val := by omega
  exact same ▸ admits

/-- The refined range of a phi contains the phi when the ranges that it is made from contain what they are
about. -/
theorem BoundsOf.contains {range first : Range} {start stop : LinearSum} {i n rounds : Int} {k : Nat}
    (h : BoundsOf bounds range first reach boundId step start stop)
    (own : range.contains (.ofInt n) = true) (fits : IsInt32 n) (starts : first.Admits i)
    (ends : ∀ r ∈ reach, r.Admits (i + step * rounds)) (moved : n = i + step * k)
    (few : k ≤ max 0 rounds) : bounds.range.contains (.ofInt n) = true := by
  have extreme : step * k = 0 ∨ k ≤ rounds := by
    rcases le_total 0 rounds with some | none
    · exact .inr (max_eq_right some ▸ few)
    · rw [max_eq_left none] at few
      obtain rfl : k = 0 := by omega
      exact .inl (by simp)
  rcases h with ⟨grows, refined, -⟩ | ⟨shrinks, refined, -⟩
  · have ahead := Int.mul_nonneg (Int.le_of_lt grows) (Int.natCast_nonneg k)
    refine refineGrowing_contains refined own fits starts ends (by omega) ?_
    rcases extreme with none | few
    · omega
    · have := Int.mul_le_mul_of_nonneg_left few (Int.le_of_lt grows)
      omega
  · have ahead := Int.mul_nonpos_of_nonpos_of_nonneg (Int.le_of_lt shrinks) (Int.natCast_nonneg k)
    refine refineShrinking_contains refined own fits starts ends (by omega) ?_
    rcases extreme with none | few
    · omega
    · have := mul_le_mul_of_nonpos_left few (Int.le_of_lt shrinks)
      omega

/-- Type and range decide what is read. -/
theorem rangeRead_congr {x : ValueId} (types : f'.type? x = f.type? x)
    (ranges : f'.range? x = f.range? x) : f'.rangeRead x = f.rangeRead x := by
  rw [rangeRead, rangeRead, value, value]
  cases found : f.values[x]? with
  | none =>
    rw [type?, type?, found, Option.map_none, Option.map_eq_none_iff] at types
    rw [types]
  | some value =>
    rw [type?_of_value found] at types
    obtain ⟨value', found', type⟩ := Option.map_eq_some_iff.mp types
    rw [range?_of_value found, range?_of_value found'] at ranges
    simp only [found', bind, Except.bind, type, ranges]

/-- Notes change no move. -/
theorem Moves.of_sameCode (h : l.Moves f phi initial next step) (same : SameCode f f') :
    l.Moves f' phi initial next step := by
  obtain ⟨inputs, code, listed⟩ := h.inputs
  exact ⟨(same.type? phi).trans h.type, ⟨inputs, (same.opcode? phi).trans code, listed⟩,
    h.outside.of_sameCode same,
    h.offset.mono (fun w o code => (same.opcode? w).trans code) fun w _ _ => same.type? w, h.moving⟩

/-- What the bounds that are found for a phi say holds in every run. Meanwhile ranges of other values of
the loop may have been noted. -/
theorem phiBounds_keepsTo {b : BlockId} (valid : f.Valid g) (on : f.OnInt32 g) (simple : l.IsSimple g f)
    (mem : phi ∈ f.phisAt l.header) (exit : l.IsExitTest f g b limit.test limit.sum)
    (hb : b ∈ l.loop.body) (ne : b ≠ l.header) (upper : g.Above b l.backedge) (same : SameCode f f')
    (ranges : ∀ x, x = phi ∨ l.Outside f x → f'.range? x = f.range? x)
    (run : (l.phiBounds f' boundId limit.sum phi).run = .ok (some bounds)) :
    ∃ initial next step start stop, l.Moves f phi initial next step ∧
      bounds.lower = (if 0 < step then start else stop) ∧
      bounds.upper = (if 0 < step then stop else start) ∧
      IsSpan f boundId limit initial step start stop ∧ ∀ args s, Reached f args s →
        Available f g s phi → l.KeepsTo f g limit phi initial step bounds.range s := by
  obtain ⟨value, initial, next, step, first, last, firstRange, reach, valued, moving, sums, read, reaches,
    boundsOf⟩ := phiBounds_spec run
  have moves := moving.of_sameCode same.symm
  have respects : ∀ m, LinearSum.RespectsConstants f' (f.valueIn m) := fun m =>
    valueIn_of_sameCode same m ▸ f'.respectsConstants_valueIn m
  refine ⟨initial, next, step, ⟨none, first⟩, ⟨some boundId, last⟩, moves, ?_, ?_,
    ⟨rfl, rfl, fun m => (sums.eval (respects m)).1, fun m => ?_⟩, fun args s reached avail => ?_⟩
  · rcases boundsOf with ⟨grows, -, lower, -⟩ | ⟨shrinks, -, lower, -⟩
    · rw [lower, if_pos grows]
    · rw [lower, if_neg (by omega)]
  · rcases boundsOf with ⟨grows, -, -, upper⟩ | ⟨shrinks, -, -, upper⟩
    · rw [upper, if_pos grows]
    · rw [upper, if_neg (by omega)]
  · dsimp only
    rw [(sums.eval (respects m)).2, Int.mul_sub, Int.mul_comm step]
    omega
  · obtain ⟨integer, fits⟩ := reached.slot_eq on avail (isWhole_of_type moves.type rfl)
    obtain ⟨k, moved, few, fewer⟩ :=
      reached.phi_steps valid on simple mem moves exit hb ne upper avail
    refine ⟨integer, onward_of_eq moved (Int.natCast_nonneg k), fun inside above below => ?_,
      fun own reads => ?_⟩
    · have ahead := fewer inside above below
      refine onward_of_eq (d := limit.sum.eval (f.valueIn s.memory) - 1 - k) ?_ (by omega)
      rw [moved]
      ring
    · -- The ranges that were read are those of values from outside the loop.
      have admits : ∀ x ∈ initial :: limit.sum.terms.map LinearTerm.term, ∀ r₀,
          f'.rangeRead x = .ok r₀ → r₀.Admits (f.valueIn s.memory x) := by
        intro x hx r₀ read
        have out : l.Outside f x := by
          rcases List.mem_cons.mp hx with rfl | hx
          · exact moves.outside
          · obtain ⟨t, ht, rfl⟩ := List.mem_map.mp hx
            exact exit.outside t ht
        rw [rangeRead_congr (same.type? x) (ranges x (.inr out))] at read
        exact Range.admits_of_contains (reads x hx r₀ read)
      refine boundsOf.contains (contains_getD fits fun r₀ ranged => own r₀ ?_) fits
        (admits initial List.mem_cons_self _ read)
        (reaches.admits sums (respects s.memory) admits) moved few
      rw [← ranges phi (.inl rfl), range?_of_value valued]
      exact ranged

end SimpleLoop

namespace Session

variable {s t : Session} {l : SimpleLoop} {boundId : Nat} {bound : LinearSum} {phi : ValueId} {r : Range}
  {e : Option AnalysisError} {loop : Loop} {rest : List Loop}

/-- Other values keep their range. -/
theorem boundPhi_range? {x : ValueId} (run : boundPhi l boundId bound s phi = .ok (t, e))
    (ne : x ≠ phi) :
    t.procedure.range? x = s.procedure.range? x := by
  rcases boundPhi_cases run with ⟨rfl, -⟩ | ⟨arena, capacity, -, rfl, -⟩ |
    ⟨bounds, lower, upper, arena, stats, -, -, -, -, rfl, -⟩
  · rfl
  · rfl
  · rw [range?_setRange, if_neg ne]

/-- The phi has been given the bounds that are found for it with the ranges from before. -/
def Gives (s t : Session) (l : SimpleLoop) (boundId : Nat) (bound : LinearSum) (phis : List ValueId)
    (phi : ValueId) : Prop :=
  ∃ (f : Procedure) (bounds : SimpleLoop.PhiBounds) (lower upper : Nat),
    SameCode s.procedure f ∧ (∀ x, x = phi ∨ x ∉ phis → f.range? x = s.procedure.range? x) ∧
    (l.phiBounds f boundId bound phi).run = .ok (some bounds) ∧
    t.procedure.range? phi = some (bounds.range.withBounds lower upper) ∧
    t.arena.symbolic lower = .ok bounds.lower ∧ t.arena.symbolic upper = .ok bounds.upper

/-- What the phis of a header are given: nothing, or the bounds that are found for them. -/
theorem forEach_boundPhi_gives {phis : List ValueId} (nodup : phis.Nodup)
    (run : forEach (boundPhi l boundId bound) phis s = .ok (t, e)) :
    s.TakesNotes t ∧ (∀ x ∉ phis, t.procedure.range? x = s.procedure.range? x) ∧
    ∀ phi ∈ phis, t.procedure.range? phi = s.procedure.range? phi ∨
      s.Gives t l boundId bound phis phi := by
  induction phis generalizing s with
  | nil =>
    obtain ⟨rfl, rfl⟩ := Prod.mk.inj (Except.ok.inj run)
    exact ⟨⟨.refl, rfl, .refl⟩, fun _ _ => rfl, nofun⟩
  | cons p rest ih =>
    rw [List.nodup_cons] at nodup
    obtain ⟨⟨u, gaveUp⟩, first, run⟩ := bind_eq_ok.mp run
    have notes := boundPhi_takesNotes first
    have others : ∀ x, x ≠ p → u.procedure.range? x = s.procedure.range? x := fun x ne =>
      boundPhi_range? first ne
    obtain ⟨notes', kept, given⟩ : u.TakesNotes t ∧
        (∀ x ∉ rest, t.procedure.range? x = u.procedure.range? x) ∧
        ∀ phi ∈ rest, t.procedure.range? phi = u.procedure.range? phi ∨
          u.Gives t l boundId bound rest phi := by
      cases gaveUp with
      | some r =>
        obtain ⟨rfl, rfl⟩ := Prod.mk.inj (pure_eq_ok.mp run)
        exact ⟨⟨.refl, rfl, .refl⟩, fun _ _ => rfl, fun _ _ => .inl rfl⟩
      | none => exact ih nodup.2 run
    refine ⟨notes.trans notes', fun x hx => ?_, fun phi hphi => ?_⟩
    · rw [List.mem_cons, not_or] at hx
      exact (kept x hx.2).trans (others x hx.1)
    rcases List.mem_cons.mp hphi with rfl | hphi
    · -- The phi's own turn: its range is not touched later.
      have same := kept phi nodup.1
      rcases boundPhi_cases first with ⟨rfl, -⟩ | ⟨arena, capacity, -, rfl, -⟩ |
        ⟨bounds, lower, upper, arena, stats, found, -, foundLower, foundUpper, rfl, -⟩
      · exact .inl same
      · exact .inl same
      · obtain ⟨value, -, -, -, -, -, -, -, valued, -⟩ := SimpleLoop.phiBounds_spec found
        refine .inr ⟨s.procedure, bounds, lower, upper, .refl, fun _ _ => rfl, found, ?_,
          notes'.arena.symbolic _ _ foundLower, notes'.arena.symbolic _ _ foundUpper⟩
        rw [same, range?_setRange, if_pos rfl, valued, Option.bind_some]
    · -- The turn of another phi: its range was not touched before.
      have ne : phi ≠ p := fun same => nodup.1 (same ▸ hphi)
      rcases given phi hphi with same | ⟨f, bounds, lower, upper, code, ranges, found⟩
      · exact .inl (same.trans (others phi ne))
      · refine .inr ⟨f, bounds, lower, upper, notes.code.trans code, fun x hx => ?_, found⟩
        rcases hx with rfl | hx
        · exact (ranges x (.inl rfl)).trans (others x ne)
        · rw [List.mem_cons, not_or] at hx
          exact (ranges x (.inr hx.2)).trans (others x hx.1)

/-- The range has the two symbolic bounds, in the order in which the step goes from one to the other. -/
def HasSpan (s : Session) (r : Range) (step : Int) (start stop : SymbolicBound) : Prop :=
  ∃ lower upper, r.symbolicLower = some lower ∧ r.symbolicUpper = some upper ∧
    s.arena.symbolic lower = .ok (if 0 < step then start else stop) ∧
    s.arena.symbolic upper = .ok (if 0 < step then stop else start)

/-- When a phi of the header has symbolic bounds after the treatment of a loop, then the loop has a bound,
and what is noted about the phi holds in every run of the procedure as it was before. -/
theorem boundLoop_keepsTo {id : Nat} (valid : s.Valid) (on : s.procedure.OnInt32 s.graph)
    (natural : loop.IsNatural s.graph s.procedure) (outside : s.SymbolicOutside (loop :: rest))
    (later : ∀ l ∈ rest, loop.header ∉ l.body) (run : s.boundLoop loop = .ok (t, e))
    (mem : phi ∈ s.procedure.phisAt loop.header) (ranged : t.procedure.range? phi = some r)
    (mentions : r.Mentions id) :
    ∃ l boundId limit initial next step start stop, SimpleLoop.ofLoop? loop = some l ∧
      t.arena.loopBound boundId = .ok limit ∧ limit.header = loop.header ∧
      l.Moves s.procedure phi initial next step ∧ t.HasSpan r step start stop ∧
      SimpleLoop.IsSpan s.procedure boundId limit initial step start stop ∧
      ∀ args state, Reached s.procedure args state → Available s.procedure s.graph state phi →
        l.KeepsTo s.procedure s.graph limit phi initial step r state := by
  have home := (valid.wellFormed.structured.phis _ phi mem).2
  have fresh : ∀ {r : Range} {id : Nat}, s.procedure.range? phi = some r → ¬r.Mentions id :=
    fun ranged mentions =>
      outside phi _ _ ranged mentions _ home loop List.mem_cons_self natural.header_mem
  rcases boundLoop_natural valid.describes natural run with rfl | ⟨l, test, sum, b, arena, boundId,
    stats, block, u, gaveUp, found, rfl, simple, ⟨hb, ne, upper⟩, exit, added, header, phis, ends⟩
  · exact absurd mentions (fresh ranged)
  obtain ⟨-, ready, -⟩ :=
    @forEach_boundPhi_ready { s with arena := arena, stats := stats } u l _ _ _ rest _ valid simple
      outside later header (exit.terms valid simple hb ne) phis
  have listed : s.procedure.phisAt l.header = block.phis := by simp [phisAt, header]
  obtain ⟨notes, -, given⟩ :=
    forEach_boundPhi_gives (listed ▸ nodup_phisAt valid.wellFormed l.header) phis
  obtain ⟨before, arenas⟩ : u.procedure.range? phi = some r ∧ t.arena = u.arena := by
    rcases ends with rfl | hoisting
    · exact ⟨ranged, rfl⟩
    · exact ⟨((hoist_spec ready hoisting).2 phi r id ranged mentions).1, hoist_arena hoisting⟩
  rcases given phi (listed ▸ mem) with unchanged | ⟨f, bounds, lower, upper', code, ranges, bounded,
    noted, foundLower, foundUpper⟩
  · exact absurd mentions (fresh (unchanged.symm.trans before))
  obtain rfl := Option.some.inj (noted.symm.trans before)
  have others : ∀ x, x = phi ∨ l.Outside s.procedure x →
      f.range? x = s.procedure.range? x := fun x hx =>
    ranges x (hx.imp_right fun out isPhi => out _
      (valid.wellFormed.structured.phis _ x (listed ▸ isPhi)).2 natural.header_mem)
  obtain ⟨initial, next, step, start, stop, moves, isLower, isUpper, span, keeps⟩ :=
    @SimpleLoop.phiBounds_keepsTo l s.procedure f s.graph phi ⟨l.header, test, sum⟩ bounds boundId b
      valid on simple mem exit hb ne upper code others bounded
  have known : t.arena.loopBound boundId = .ok ⟨l.header, test, sum⟩ := by
    rw [arenas, Arena.loopBound, notes.arena.loopBounds]
    exact (Arena.addLoopBound?_spec added).1
  have spans : t.HasSpan (bounds.range.withBounds lower upper') step start stop :=
    ⟨lower, upper', rfl, rfl, by rw [arenas, foundLower, isLower], by rw [arenas, foundUpper, isUpper]⟩
  refine ⟨l, boundId, ⟨l.header, test, sum⟩, initial, next, step, start, stop, found, known, rfl, moves,
    spans, span, fun args state reached avail => ?_⟩
  -- Which numbers a range contains does not depend on its symbolic bounds.
  obtain ⟨integer, behind, ahead, contained⟩ := keeps args state reached avail
  exact ⟨integer, behind, ahead, contained⟩

/-- The analysis comes to a loop: a fixed point has been found, and the loops in front of it have been
treated. -/
def ComesTo (s t : Session) (loop : Loop) (rest : List Loop) : Prop :=
  ∃ u front, s.fixedPoint = .ok (u, none) ∧ u.loops = front ++ loop :: rest ∧
    forEach boundLoop front u = .ok (t, none)

/-- What holds of the session in which the analysis comes to a loop. -/
theorem ComesTo.spec (h : s.ComesTo t loop rest) (valid : s.Valid) (loops : s.LoopsNatural)
    (on : s.procedure.OnInt32 s.graph) :
    t.Valid ∧ t.procedure.OnInt32 t.graph ∧ loop.IsNatural t.graph t.procedure ∧
      t.SymbolicOutside (loop :: rest) ∧ ∀ l ∈ rest, loop.header ∉ l.body := by
  obtain ⟨u, front, fixed, split, treated⟩ := h
  have same := (fixedPoint_sameWork fixed).1
  have keeps := same.keeps valid
  obtain ⟨natural, ordered⟩ := loops.keeps valid keeps
  rw [split] at natural ordered
  have on' : u.procedure.OnInt32 u.graph := same.graph ▸ on.of_sameCode same.code
  obtain ⟨tracked, kept, none⟩ := forEach_boundLoop_tracked (.refl keeps.valid on')
    (fun l hl => natural l (List.mem_append_left _ hl)) ordered (fixedPoint_symbolicOutside fixed)
    treated
  refine ⟨kept.valid, tracked.on, ?_, none rfl,
    (List.pairwise_cons.mp (List.pairwise_append.mp ordered).2.1).1⟩
  rw [kept.graph]
  exact (natural loop (by simp)).of_describes keeps.valid.describes
    (kept.graph ▸ kept.valid.describes)

/-- Bounds of phis hold. When the treatment of a loop gives a phi of the header symbolic bounds, then the
phi moves by a constant step, and the bounds are its first value and a sum that is tied to the bound of
the loop: the bound times the step, plus the first value, less one step. In every run, wherever the phi is
available, it is not behind its first value; below the test in the loop it is not beyond the sum; and its
refined range contains it if the ranges that this one is made from contain what they are about. -/
theorem boundLoop_phis {config : Config} {f : Procedure} {u w : Session} {loop : Loop}
    {rest : List Loop} {e : Option AnalysisError} {id : Nat}
    (accepted : f.verify = .ok (.ok ())) (noPhis : f.phisAt f.entry = []) (listed : f.AllListed)
    (ints : f.Int32Only) (started : start f config = .ok s)
    (betas : t = s ∨ s.addBetas = .ok (t, none)) (comes : t.ComesTo u loop rest)
    (run : u.boundLoop loop = .ok (w, e)) (mem : phi ∈ u.procedure.phisAt loop.header)
    (ranged : w.procedure.range? phi = some r) (mentions : r.Mentions id) :
    ∃ l boundId limit initial next step start stop, SimpleLoop.ofLoop? loop = some l ∧
      w.arena.loopBound boundId = .ok limit ∧ limit.header = loop.header ∧
      l.Moves u.procedure phi initial next step ∧ w.HasSpan r step start stop ∧
      SimpleLoop.IsSpan u.procedure boundId limit initial step start stop ∧
      ∀ args state, Reached u.procedure args state → Available u.procedure u.graph state phi →
        l.KeepsTo u.procedure u.graph limit phi initial step r state := by
  obtain ⟨valid, loops, on⟩ := start_onInt32 accepted noPhis listed ints started betas
  obtain ⟨valid', on', natural, outside, later⟩ := comes.spec valid loops on
  exact boundLoop_keepsTo valid' on' natural outside later run mem ranged mentions

/-- The only loop of a procedure with betas, in the session in which the analysis comes to it, and the
session after its treatment. -/
def onlyLoop (f : Procedure) (config : Config) : Attempt (Session × Loop × Session) := do
  let (t, none) ← liftM (start f config >>= addBetas) | failure
  let (u, none) ← liftM t.fixedPoint | failure
  let [loop] := u.loops | failure
  let (w, none) ← liftM (u.boundLoop loop) | failure
  return (u, loop, w)

/-- How the only loop is bounded. -/
theorem onlyLoop_spec {config : Config} {f : Procedure} {u w : Session}
    (run : (onlyLoop f config).run = .ok (some (u, loop, w))) :
    ∃ s t, start f config = .ok s ∧ s.addBetas = .ok (t, none) ∧ t.ComesTo u loop [] ∧
      u.boundLoop loop = .ok (w, none) := by
  obtain ⟨⟨t, given⟩, begun, run⟩ := attempt_bind.mp run
  obtain ⟨s, started, added⟩ := bind_eq_ok.mp (attempt_lift.mp begun)
  cases given with
  | some r => exact absurd run attempt_failure
  | none =>
    obtain ⟨⟨u', given⟩, fixed, run⟩ := attempt_bind.mp run
    cases given with
    | some r => exact absurd run attempt_failure
    | none =>
      dsimp only at run
      split at run
      · next loop' loops =>
        obtain ⟨⟨w', given⟩, bounded, run⟩ := attempt_bind.mp run
        cases given with
        | some r => exact absurd run attempt_failure
        | none =>
          obtain ⟨rfl, rest⟩ := Prod.mk.inj (attempt_pure.mp run)
          obtain ⟨rfl, rfl⟩ := Prod.mk.inj rest
          exact ⟨s, t, started, added, ⟨u', [], attempt_lift.mp fixed, loops, rfl⟩,
            attempt_lift.mp bounded⟩
      · exact absurd run attempt_failure

/-- Counts up to the low bits of the argument, and down from a hundred by tens. -/
def countDown : Procedure where
  name := "countDown"
  entry := 0
  blocks := #[⟨0, [], [0, 1, 2, 3, 4, 5, 6], .goto 1, false⟩, ⟨1, [7, 8], [9], .branch 9 2 3, false⟩,
    ⟨2, [], [10, 11], .goto 1, false⟩, ⟨3, [], [], .exit (some 8), false⟩]
  values := #[⟨0, .param 0, .int32, some 0, none⟩, ⟨1, .const (.int 7), .int32, some 0, none⟩,
    ⟨2, .binary .bitAnd 0 1 .checked, .int32, some 0, none⟩,
    ⟨3, .const (.int 0), .int32, some 0, none⟩, ⟨4, .const (.int 1), .int32, some 0, none⟩,
    ⟨5, .const (.int 10), .int32, some 0, none⟩, ⟨6, .const (.int 100), .int32, some 0, none⟩,
    ⟨7, .phi [(3, 0), (10, 2)], .int32, some 1, none⟩,
    ⟨8, .phi [(6, 0), (11, 2)], .int32, some 1, none⟩,
    ⟨9, .compare .lt 7 2, .boolean, some 1, none⟩,
    ⟨10, .binary .add 7 4 .checked, .int32, some 2, none⟩,
    ⟨11, .binary .sub 8 5 .checked, .int32, some 2, none⟩]
  unsupported := false
  reasons := []

/-- The phi that `countDown` counts down has the range from 30 to 100. A run with the number 3 leaves the
loop with 70 in it. -/
theorem countDown_phis : ∃ s t u w loop r state, start countDown .standard = .ok s ∧
    s.addBetas = .ok (t, none) ∧ t.ComesTo u loop [] ∧ u.boundLoop loop = .ok (w, none) ∧
    (countDown.verify = .ok (.ok ()) ∧ countDown.phisAt countDown.entry = [] ∧
      countDown.AllListed ∧ countDown.Int32Only) ∧
    8 ∈ u.procedure.phisAt loop.header ∧ w.procedure.range? 8 = some r ∧ r.Mentions 2 ∧
    r.lower = some 30 ∧ r.upper = some 100 ∧
    Reached u.procedure [.ofInt 3] state ∧ Available u.procedure u.graph state 8 ∧ state.block = 3 ∧
    state.memory.slots[8]? = some (.number (.ofInt 70)) ∧ r.contains (.ofInt 70) = true ∧
    ∃ (l : SimpleLoop) (limit : LoopBound) (step : Int),
      l.KeepsTo u.procedure u.graph limit 8 6 step r state := by
  have computed : (Option.map fun (u, loop, w) => decide (loop.header = 1 ∧ loop.body = [1, 2] ∧
      u.procedure.phisAt 1 = [7, 8] ∧ u.procedure.instrsAt 3 = [] ∧ u.procedure.home? 8 = some 1 ∧
      u.procedure.home? 11 = some 2 ∧ u.graph.dominates 1 3 = true ∧
      u.procedure.opcode? 8 = some (.phi [(6, 0), (11, 2)]) ∧
      u.procedure.opcode? 6 = some (.const (.int 100)) ∧
      u.procedure.opcode? 2 = some (.binary .bitAnd 0 1 .checked) ∧
      (u.procedure.range? 8).all (fun r => r.contains (.ofInt 70)) = true ∧
      (fun r : Range => r.contains (.ofInt 100)) <$> u.procedure.rangeRead 6 = .ok true ∧
      (fun r : Range => r.contains (.ofInt 3)) <$> u.procedure.rangeRead 2 = .ok true ∧
      (fun state : State => (state.block, state.pending, state.memory.slots[8]?,
        state.memory.slots[2]?)) <$> stateAfter u.procedure [.ofInt 3] 31 =
          .ok (3, [], some (.number (.ofInt 70)), some (.number (.ofInt 3))) ∧
      (w.procedure.range? 8).map (fun r => (r.lower, r.upper, r.symbolicLower)) =
        some (some 30, some 100, some 2) ∧
      w.arena.loopBounds = #[⟨1, 1, ⟨[⟨2, 1⟩], 0⟩⟩])) <$> (onlyLoop countDown .standard).run =
        .ok (some true) := by decide +kernel
  obtain ⟨found, run, shape⟩ := map_eq_ok.mp computed
  obtain ⟨⟨u, loop, w⟩, rfl, facts⟩ := Option.map_eq_some_iff.mp shape
  obtain ⟨s, t, started, adding, comes, bounded⟩ := onlyLoop_spec run
  obtain ⟨header, body, phis, instrs, home, homeNext, dominates, code, codeInitial, codeTerm, own,
    readInitial, readTerm, runs, shape, bounds⟩ := of_decide_eq_true facts
  obtain ⟨r, ranged, shape⟩ := Option.map_eq_some_iff.mp shape
  obtain ⟨low, shape⟩ := Prod.mk.inj shape
  obtain ⟨high, symbolic⟩ := Prod.mk.inj shape
  obtain ⟨state, standing, shape⟩ := map_eq_ok.mp runs
  obtain ⟨block, shape⟩ := Prod.mk.inj shape
  obtain ⟨pending, shape⟩ := Prod.mk.inj shape
  obtain ⟨slot, slotTerm⟩ := Prod.mk.inj shape
  have reached : Reached u.procedure [.ofInt 3] state := reached_iff_stateAfter.mpr ⟨31, standing⟩
  have accepted : countDown.verify = .ok (.ok ()) := by decide +kernel
  have listed : countDown.AllListed := by decide +kernel
  have ints : countDown.Int32Only := by decide +kernel
  have mem : 8 ∈ u.procedure.phisAt loop.header := by
    rw [header, phis]
    decide
  have avail : Available u.procedure u.graph state 8 :=
    ⟨[], by rw [block, pending, instrs]; rfl, 1, home, by rw [block]; exact dominates⟩
  obtain ⟨l, boundId, limit, initial, next, step, start, stop, found, known, -, moves, -, -, keeps⟩ :=
    boundLoop_phis accepted rfl listed ints started (.inr adding) comes bounded mem ranged
      (.inl symbolic)
  obtain ⟨rfl, -⟩ := SimpleLoop.ofLoop?_eq_some found
  obtain rfl : initial = 6 := by
    obtain ⟨inputs, code', -, enters, -⟩ := moves.inputs
    obtain rfl := Opcode.phi.inj (Option.some.inj (code.symm.trans code'))
    rcases List.mem_cons.mp enters with first | second
    · exact (Prod.mk.inj first).1
    · obtain ⟨rfl, -⟩ := Prod.mk.inj (List.mem_singleton.mp second)
      exact absurd (by rw [body]; decide) (moves.outside 2 homeNext)
  obtain rfl : limit = ⟨1, 1, ⟨[⟨2, 1⟩], 0⟩⟩ := by
    rw [Arena.loopBound, bounds] at known
    cases boundId with
    | zero => exact (Except.ok.inj known).symm
    | succ _ => cases known
  have keep := keeps _ state reached avail
  have value : u.procedure.valueIn state.memory 8 = 70 :=
    Number.ofInt_inj.mp (Slot.number.inj (Option.some.inj (keep.integer.symm.trans slot)))
  have contained : r.contains (.ofInt 70) = true := by
    rw [← value]
    refine keep.range (fun r₀ had => ?_) fun x hx r₀ read => ?_
    · rw [value]
      rw [had] at own
      exact own
    · simp only [List.map_cons, List.map_nil, List.mem_cons, List.not_mem_nil, or_false] at hx
      rcases hx with rfl | rfl
      · rw [valueIn, codeInitial]
        rw [read] at readInitial
        exact Except.ok.inj readInitial
      · rw [valueIn, codeTerm, Memory.HoldsInt.intAt_eq ⟨_, slotTerm, rfl⟩]
        rw [read] at readTerm
        exact Except.ok.inj readTerm
  exact ⟨s, t, u, w, l.loop, r, state, started, adding, comes, bounded, ⟨accepted, rfl, listed, ints⟩,
    mem, ranged, .inl symbolic, low, high, reached, avail, block, slot, contained, l, _, step, keep⟩

/-- Counts up to what comes out of a loop that is entered at two places, and another phi up by a power of
two. -/
def twoEntries : Procedure where
  name := "twoEntries"
  entry := 0
  blocks := #[⟨0, [], [0, 1, 2, 3, 4, 5, 6, 7, 8, 11], .branch 4 1 3, false⟩, ⟨1, [], [], .goto 2, false⟩,
    ⟨2, [12, 13], [], .branch 5 4 3, false⟩, ⟨3, [], [9, 10], .goto 2, false⟩,
    ⟨4, [], [], .branch 6 5 6, false⟩, ⟨5, [], [], .goto 7, false⟩, ⟨6, [], [], .goto 7, false⟩,
    ⟨7, [14], [], .goto 8, false⟩, ⟨8, [15, 16], [17], .branch 17 9 10, false⟩,
    ⟨9, [], [18, 19], .goto 8, false⟩, ⟨10, [], [], .exit (some 16), false⟩]
  values := #[⟨0, .param 0, .int32, some 0, none⟩, ⟨1, .const (.int 255), .int32, some 0, none⟩,
    ⟨2, .binary .bitAnd 0 1 .checked, .int32, some 0, none⟩,
    ⟨3, .const (.int 0), .int32, some 0, none⟩, ⟨4, .compare .lt 2 3, .boolean, some 0, none⟩,
    ⟨5, .param 1, .boolean, some 0, none⟩, ⟨6, .param 2, .boolean, some 0, none⟩,
    ⟨7, .const (.int 1), .int32, some 0, none⟩, ⟨8, .const (.int 1073741824), .int32, some 0, none⟩,
    ⟨9, .const (.int 5), .int32, some 3, none⟩, ⟨10, .const (.bool false), .boolean, some 3, none⟩,
    ⟨11, .const (.bool true), .boolean, some 0, none⟩,
    ⟨12, .phi [(3, 1), (9, 3)], .int32, some 2, none⟩,
    ⟨13, .phi [(11, 1), (10, 3)], .boolean, some 2, none⟩,
    ⟨14, .phi [(12, 5), (3, 6)], .int32, some 7, none⟩,
    ⟨15, .phi [(13, 7), (18, 9)], .int32, some 8, none⟩,
    ⟨16, .phi [(13, 7), (19, 9)], .int32, some 8, none⟩,
    ⟨17, .compare .lt 15 14, .boolean, some 8, none⟩,
    ⟨18, .binary .add 15 7 .checked, .int32, some 9, none⟩,
    ⟨19, .binary .add 16 8 .checked, .int32, some 9, none⟩]
  unsupported := false
  reasons := []

/-- The refined range of a phi need not contain it. In `twoEntries` the fixed point leaves the number that
the second loop counts up to with the range of zero alone, though it may be five. So the phi that goes up by
a power of two gets the range from 0 to 1, but holds that power after one round. -/
theorem twoEntries_exceeds : ∃ s t u w loop r state, start twoEntries .standard = .ok s ∧
    s.addBetas = .ok (t, none) ∧ t.ComesTo u loop [] ∧ u.boundLoop loop = .ok (w, none) ∧
    (twoEntries.verify = .ok (.ok ()) ∧ twoEntries.phisAt twoEntries.entry = [] ∧
      twoEntries.AllListed ∧ twoEntries.Int32Only) ∧
    16 ∈ u.procedure.phisAt loop.header ∧ w.procedure.range? 16 = some r ∧ r.Mentions 2 ∧
    Reached u.procedure [.ofInt 3, .ofInt 1, .ofInt 1] state ∧
    Available u.procedure u.graph state 16 ∧
    state.memory.slots[16]? = some (.number (.ofInt 1073741824)) ∧
    r.contains (.ofInt 1073741824) = false := by
  have computed : (Option.map fun (u, loop, w) => decide (loop.header = 8 ∧
      u.procedure.phisAt 8 = [15, 16] ∧ u.procedure.instrsAt 8 = [17] ∧
      u.procedure.home? 16 = some 8 ∧
      (fun state : State => (state.block, state.pending, state.memory.slots[16]?)) <$>
        stateAfter u.procedure [.ofInt 3, .ofInt 1, .ofInt 1] 25 =
          .ok (8, [17], some (.number (.ofInt 1073741824))) ∧
      (w.procedure.range? 16).map (fun r => (r.symbolicLower, r.contains (.ofInt 1073741824))) =
        some (some 2, false))) <$> (onlyLoop twoEntries .standard).run = .ok (some true) := by
    decide +kernel
  obtain ⟨found, run, shape⟩ := map_eq_ok.mp computed
  obtain ⟨⟨u, loop, w⟩, rfl, facts⟩ := Option.map_eq_some_iff.mp shape
  obtain ⟨s, t, started, adding, comes, bounded⟩ := onlyLoop_spec run
  obtain ⟨header, phis, instrs, home, runs, shape⟩ := of_decide_eq_true facts
  obtain ⟨r, ranged, shape⟩ := Option.map_eq_some_iff.mp shape
  obtain ⟨symbolic, misses⟩ := Prod.mk.inj shape
  obtain ⟨state, standing, shape⟩ := map_eq_ok.mp runs
  obtain ⟨block, shape⟩ := Prod.mk.inj shape
  obtain ⟨pending, slot⟩ := Prod.mk.inj shape
  refine ⟨s, t, u, w, loop, r, state, started, adding, comes, bounded,
    ⟨by decide +kernel, rfl, by decide +kernel, by decide +kernel⟩, ?_, ranged, .inl symbolic,
    reached_iff_stateAfter.mpr ⟨25, standing⟩, ?_, slot, misses⟩
  · rw [header, phis]
    decide
  · refine ⟨[], by rw [block, pending, instrs]; rfl, 8, home, ?_⟩
    rw [block, if_pos rfl, phis]
    decide

end Session

end Rangefinder
