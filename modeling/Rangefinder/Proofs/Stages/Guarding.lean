import Rangefinder.Proofs.Stages.BoundedPhis
import Rangefinder.Proofs.Stages.Collapsing

/-!
# Checks that are dropped cannot fail

A check is dropped only after others have been placed in front of the loop. A run that reaches the
place of the check has passed those others on its way into the loop. They were passed for sums of values
that do not change in the loop, and the index lies between the sums at the place of the check, so the
check would pass (`Plans.guarded`). Such guards last: more checks may be placed in front of the loop, and
other checks that are guarded may be dropped (`Guard.extends`, `Guard.drop`).
-/

namespace Rangefinder

open Procedure Machine

/-- Offsets stay offsets. -/
theorem Procedure.IsOffset.extends {f f' : Procedure} {g : FlowGraph} {b : BlockId} {v : ValueId}
    {o : Offset} (h : f.IsOffset v o) (grown : f.Extends f' g b) : f'.IsOffset v o :=
  h.mono (fun _ _ code => (grown.opcode? _ (lt_size_of_opcode? code)).trans code)
    fun _ _ code => grown.type? _ (lt_size_of_opcode? code)

namespace Machine

variable {f f' : Procedure} {g : FlowGraph} {args : List Number} {b c : BlockId}
  {first : List ValueId} {index length : ValueId} {minimum maximum : Int} {movable : Bool}

/-- A guard lasts when the procedure is extended. -/
theorem Guard.extends (h : Guard f g b first index length minimum maximum)
    (consistent : f.Consistent g) (grown : f.Extends f' g c) :
    Guard f' g b first index length minimum maximum := by
  have lists := (grown.parallel consistent.wellFormed.structured).instrsAt b
  refine h.lockstep id consistent (grown.lockstep consistent) (fun args v halt extra ends => ?_) lists
    rfl ?_ (fun v read => ?_) fun args s s' reached m v avail => ?_
  · rw [ends.isOld consistent v rfl] at extra
    cases extra
  · obtain ⟨rest, split⟩ := h.listed
    obtain ⟨added, split', -⟩ := grown.instrsAt b
    exact ⟨rest ++ added, by rw [split', split, List.append_assoc]⟩
  · obtain ⟨home, stands, here⟩ := read
    exact ⟨home, (grown.home? v (lt_size_of_home? stands)).trans stands, grown.phisAt b ▸ here⟩
  · obtain ⟨-, -, home, stands, -⟩ := avail
    exact m.memory.slots v (decide_eq_true (lt_size_of_home? stands))

/-- A check holds its index. -/
theorem Computed.boundsCheck {m : Memory} {v : ValueId} (h : Computed f args m v)
    (code : f.opcode? v = some (.boundsCheck index length minimum maximum movable)) :
    m.slots[v]? = m.slots[index]? := by
  obtain ⟨value, found, -⟩ := Option.map_eq_some_iff.mp code
  obtain ⟨m₀, result, operands, computed, own⟩ := h _ _ code (type?_of_value found) rfl
  obtain ⟨i, readI, computed⟩ := bind_eq_ok.mp computed
  obtain ⟨n, -, computed⟩ := bind_eq_ok.mp computed
  split at computed
  · obtain rfl := pure_eq_ok.mp computed
    rw [own, operands index (by simp [Opcode.operands]), Memory.number_eq_ok.mp readI]
  · cases computed

/-- No run ends at a check whose place is guarded. -/
theorem Guard.not_endsAt {check : ValueId} {after : List ValueId} {halt : Halt}
    (h : Guard f g b first index length minimum maximum) (on : f.OnInt32 g)
    (split : f.instrsAt b = first ++ check :: after)
    (code : f.opcode? check = some (.boundsCheck index length minimum maximum movable)) :
    ¬EndsAt f args (some check) halt := by
  rintro ⟨s, reached, head, failed⟩
  have structured := on.consistent.wellFormed.structured
  have stands := reached.stands on.consistent.wellFormed on.consistent.describes
  obtain ⟨rest, next⟩ : ∃ rest, s.pending = check :: rest := List.head?_eq_some_iff.mp head
  obtain ⟨before, at_s⟩ := stands.position
  obtain ⟨rfl, rfl, rfl⟩ := structured.split_unique (next ▸ at_s) split
  have here : f.instrsAt s.block = before ++ [] ++ s.pending := by rw [List.append_nil, at_s]
  obtain ⟨i, n, holdsI, holdsN, low, high⟩ := h.holds args s reached rfl [] here
  have wholeI := on.integral.operands check _ code index (by simp [Opcode.wholeOperands])
  obtain ⟨slot, fits⟩ := reached.slot_eq on (available_of_readable h.readsIndex here) wholeI
  rw [holdsI] at slot
  obtain rfl := Number.ofInt_inj.mp (Slot.number.inj (Option.some.inj slot))
  have small := fits.natAbs_le
  have lowest := (on.integral.limits check _ code minimum (by simp [Opcode.limits])).natAbs_le
  have highest := (on.integral.limits check _ code maximum (by simp [Opcode.limits])).natAbs_le
  obtain ⟨value, found, -⟩ := Option.map_eq_some_iff.mp code
  rw [step_of_cons next code (type?_of_value found)] at failed
  have passes : compute args s.memory check value.type
      (.boundsCheck index length minimum maximum movable) =
        .ok (s.memory, .number (.ofInt (f.valueIn s.memory index))) := by
    refine bind_eq_ok.mpr ⟨_, Memory.number_eq_ok.mpr holdsI, bind_eq_ok.mpr
      ⟨_, Memory.number_eq_ok.mpr holdsN, ?_⟩⟩
    rw [Number.add_ofInt (by omega), Number.add_ofInt (by omega), Number.le_ofInt, Number.lt_ofInt,
      if_pos (by simp [low, high])]
    rfl
  rw [passes] at failed
  cases failed

end Machine

/-! ### Dropping a check -/

namespace Session

variable {f f' : Procedure} {g : FlowGraph} {args : List Number} {b : BlockId}
  {check index length : ValueId} {minimum maximum : Int} {movable : Bool}

/-- The procedure with the check and the one without it run in lockstep, since the check holds its
index. -/
theorem Drops.lockstep (drops : Drops f f' g check index) (on : f.OnInt32 g)
    (code : f.opcode? check = some (.boundsCheck index length minimum maximum movable))
    (args : List Number) : Lockstep f f' (· != check) args :=
  drops.toCollapsed.lockstep on.consistent drops.valid.consistent code rfl rfl (by simp [Opcode.operands])
    fun _ reached avail => (reached.computed on.consistent on.noPhis avail).boundsCheck code

/-- Dropping a check keeps the procedure on int32 numbers. -/
theorem Drops.onInt32 (drops : Drops f f' g check index) (on : f.OnInt32 g)
    (code : f.opcode? check = some (.boundsCheck index length minimum maximum movable)) :
    f'.OnInt32 g :=
  drops.toCollapsed.onInt32 on drops.valid.consistent fun _ =>
    on.integral.operands check _ code index (by simp [Opcode.wholeOperands])

/-- What can be read can be read without the check, under the name that it has then. -/
theorem Drops.readable {v : ValueId} {first rest : List ValueId} (drops : Drops f f' g check index)
    (consistent : f.Consistent g) (ne : index ≠ check)
    (code : f.opcode? check = some (.boundsCheck index length minimum maximum movable))
    (hb : b ∈ g.order) (split : f.instrsAt b = first ++ rest)
    (read : f.Readable g b (f.phisAt b ++ first) v) :
    f'.Readable g b (f'.phisAt b ++ first.filter (· != check)) (substitute check index v) := by
  have others : ∀ w, w ≠ check → f.Readable g b (f.phisAt b ++ first) w →
      f'.Readable g b (f'.phisAt b ++ first.filter (· != check)) w := by
    rintro w ne ⟨home, stands, here⟩
    refine ⟨home, by rw [drops.home?, if_neg ne, stands], ?_⟩
    split at here
    · next own =>
      rw [if_pos own, drops.phisAt]
      simpa [ne] using here
    · next other => rwa [if_neg other]
  rw [substitute]
  split
  · next same =>
    subst same
    obtain ⟨home, stands, -⟩ := id read
    have hv := consistent.wellFormed.structured.mem_instrsAt_of_home consistent.listed stands code rfl
    exact others index ne (consistent.wellFormed.readable_operand consistent.describes hv code
      (by simp [Opcode.operands]) hb split read)
  · next other => exact others v other read

end Session

namespace Machine

open Session

variable {f f' : Procedure} {g : FlowGraph} {b : BlockId} {first : List ValueId}
  {check x y index length : ValueId} {low high minimum maximum : Int} {movable : Bool}

/-- A guard lasts when a check at which no run ends is dropped. -/
theorem Guard.drop (h : Guard f g b first x y low high) (on : f.OnInt32 g)
    (drops : Drops f f' g check index) (ne : index ≠ check)
    (code : f.opcode? check = some (.boundsCheck index length minimum maximum movable))
    (hb : b ∈ g.order) (alive : ∀ args halt, ¬EndsAt f args (some check) halt) :
    Guard f' g b (first.filter (· != check)) (substitute check index x) (substitute check index y) low
      high := by
  obtain ⟨rest, split⟩ := h.listed
  refine h.lockstep (substitute check index) on.consistent (drops.lockstep on code)
    (fun args v halt extra ends => ?_)
    ((drops.toCollapsed.parallel on.consistent.wellFormed.structured code rfl rfl).instrsAt b)
    (by simp [List.filter_filter]) ⟨rest.filter (· != check), ?_⟩
    (fun v read => drops.readable on.consistent ne code hb split read)
    fun args s s' reached m v avail => ?_
  · obtain rfl : v = check := by simpa using extra
    exact alive args halt ends
  · rw [drops.instrsAt, split, List.filter_append]
  · rw [substitute]
    split
    · next same =>
      subst same
      rw [m.memory.slots index (by simpa using ne)]
      exact ((reached.computed on.consistent on.noPhis avail).boundsCheck code).symm
    · next other => exact m.memory.slots v (by simpa using other)

end Machine

/-! ### The checks in front of a loop -/

namespace Session

variable {s t : Session} {l : SimpleLoop} {f' : Procedure} {b : BlockId}

/-- A bound that is said to hold at a check applies in the block of the check. -/
theorem boundHoldsAt_spec {check : ValueId} {bound : SymbolicBound}
    (h : s.boundHoldsAt l check bound = .ok true) (d : s.graph.Describes s.procedure)
    (hb : b ∈ s.graph.order) (home : s.procedure.home? check = some b) :
    bound.AppliesAt s.arena s.graph b := by
  intro id tied
  rw [boundHoldsAt, Option.mem_def.mp tied] at h
  obtain ⟨limit, found, h⟩ := bind_eq_ok.mp h
  obtain ⟨block, defined, h⟩ := bind_eq_ok.mp h
  obtain ⟨value, valued, defined⟩ := bind_eq_ok.mp defined
  obtain rfl : block = b := by
    rw [home?_of_value (value_eq_ok.mp valued)] at home
    rw [← pure_eq_ok.mp defined, home, Option.getD_some]
  split at h
  · cases h
  · have stop := beq_iff_eq.mp (pure_eq_ok.mp h)
    exact ⟨limit, found, d.above_of_mem_tail hb (List.mem_of_find?_eq_some stop)⟩

/-- Bounds that hold go on to do so when the procedure is extended. -/
theorem Brackets.extends (h : s.Brackets l (l.Outside s.procedure))
    (consistent : s.procedure.Consistent s.graph) (grown : s.procedure.Extends f' s.graph b) :
    ({ s with procedure := f' } : Session).Brackets l (l.Outside f') := by
  intro v r id ranged mentions
  have old := grown.lt_of_mentions ranged mentions
  refine (h v r id (grown.range? v old ▸ ranged) mentions).imp (fun out => out.extends grown old) ?_
  rintro ⟨lowerId, upperId, lower, upper, hasLower, hasUpper, foundLower, foundUpper, bracketed⟩
  exact ⟨lowerId, upperId, lower, upper, hasLower, hasUpper, foundLower, foundUpper,
    bracketed.extends consistent grown⟩

variable {check index length term : ValueId} {minimum maximum offset : Int}
  {lower upper : SymbolicBound} {plan : HoistedCheck} {f : Procedure} {g : FlowGraph}

/-- The value that a plan is about is a phi that lies between the bounds of the plan. -/
theorem Plans.bracketed (h : Plans s l check index length term minimum maximum offset lower upper plan)
    (brackets : s.Brackets l (l.Outside s.procedure)) (valid : s.Valid) (hb : b ∈ s.graph.order)
    (hc : check ∈ s.procedure.instrsAt b) :
    l.Bracketed s.procedure s.graph s.arena term lower upper := by
  obtain ⟨r, lowerId, upperId, ranged, hasLower, hasUpper, lowerBound, upperBound⟩ := h.bounds
  rcases brackets term r lowerId ranged (.inl hasLower) with out |
    ⟨lowerId', upperId', below, above, hasLower', hasUpper', foundLower, foundUpper, bracketed⟩
  · obtain ⟨home, stands, inside⟩ := h.term_mem valid hb hc
    exact absurd inside (out home stands)
  · obtain rfl := Option.some.inj (hasLower.symm.trans hasLower')
    obtain rfl := Option.some.inj (hasUpper.symm.trans hasUpper')
    obtain rfl := Except.ok.inj (lowerBound.symm.trans foundLower)
    obtain rfl := Except.ok.inj (upperBound.symm.trans foundUpper)
    exact bracketed

/-- The value is a movable check at a guarded place. -/
def IsGuarded (f : Procedure) (g : FlowGraph) (check : ValueId) : Prop :=
  ∃ b before after index length minimum maximum, b ∈ g.order ∧
    f.instrsAt b = before ++ check :: after ∧
    f.opcode? check = some (.boundsCheck index length minimum maximum true) ∧
    Guard f g b before index length minimum maximum

/-- Guards stay guards. -/
theorem IsGuarded.extends (h : IsGuarded f g check) (consistent : f.Consistent g)
    (grown : f.Extends f' g b) : IsGuarded f' g check := by
  obtain ⟨c, before, after, index, length, minimum, maximum, hc, split, code, guard⟩ := h
  obtain ⟨added, extended, -⟩ := grown.instrsAt c
  refine ⟨c, before, after ++ added, index, length, minimum, maximum, hc, ?_, ?_,
    guard.extends consistent grown⟩
  · rw [extended, split, List.append_assoc, List.cons_append]
  · exact (grown.opcode? check (lt_size_of_opcode? code)).trans code

/-- The check passes. -/
theorem IsGuarded.not_endsAt (h : IsGuarded f g check) (on : f.OnInt32 g) (args : List Number)
    (halt : Halt) : ¬EndsAt f args (some check) halt := by
  obtain ⟨b, before, after, index, length, minimum, maximum, -, split, code, guard⟩ := h
  exact guard.not_endsAt on split code

/-- An instruction other than the index reads the index instead of a check that is dropped. -/
theorem Drops.boundsCheck {other x y : ValueId} {low high : Int} {movable : Bool}
    (drops : Drops f f' g check index) (listed : other ∈ f.instrsAt b) (ne : other ≠ index)
    (code : f.opcode? other = some (.boundsCheck x y low high movable)) :
    f'.opcode? other = some (.boundsCheck (substitute check index x) (substitute check index y) low
      high movable) := by
  have moves : movedUses f check index other = substitute check index :=
    if_pos ⟨mem_listed.mpr ⟨b, List.mem_append_right _ listed⟩, ne⟩
  rw [drops.opcode?, code, moves]
  rfl

/-- Dropping a guarded check leaves the others guarded. -/
theorem IsGuarded.drop {other : ValueId} (h : IsGuarded f g other) (on : f.OnInt32 g)
    (guarded : IsGuarded f g check) (drops : Drops f f' g check index)
    (code : f.opcode? check = some (.boundsCheck index length minimum maximum true))
    (noCheck : ∀ i n a b m, f.opcode? index ≠ some (.boundsCheck i n a b m)) (ne : other ≠ check) :
    IsGuarded f' g other := by
  obtain ⟨b, before, after, x, y, low, high, hb, split, code', guard⟩ := h
  have index_ne : index ≠ check := by
    rintro rfl
    exact noCheck _ _ _ _ _ code
  have other_ne : other ≠ index := by
    rintro rfl
    exact noCheck _ _ _ _ _ code'
  refine ⟨b, before.filter (· != check), after.filter (· != check), _, _, low, high, hb, ?_,
    drops.boundsCheck (b := b) (by simp [split]) other_ne code',
    guard.drop on drops index_ne code hb (guarded.not_endsAt on)⟩
  rw [drops.instrsAt, split, List.filter_append, List.filter_cons_of_pos (by simpa using ne)]

/-- Behind the checks of a plan, the check that they replace is guarded. -/
theorem Plans.guarded (h : Plans s l check index length term minimum maximum offset lower upper plan)
    (ready : s.HoistReady l) (brackets : s.Brackets l (l.Outside s.procedure))
    (on : s.procedure.OnInt32 s.graph) (movable : IsMovable s.procedure check)
    (hb : b ∈ l.loop.body) (hc : check ∈ s.procedure.instrsAt b)
    (placed : placeChecks s.procedure s.graph l.preheader plan = .ok f') :
    f'.OnInt32 s.graph ∧ IsGuarded f' s.graph check := by
  obtain ⟨before, after, split⟩ := List.append_of_mem hc
  have reachable := ready.simple.natural.reachable b hb
  have home := (ready.valid.wellFormed.structured.instrs b check hc).2
  obtain ⟨termsBelow, termsAbove, ofLength, -⟩ := h.spec ready hc hb movable
  obtain ⟨flag, code⟩ := h.code
  obtain ⟨_, _, _, _, moves⟩ := movable
  obtain ⟨rfl, rfl, rfl, rfl, rfl⟩ := Opcode.boundsCheck.inj (Option.some.inj (code.symm.trans moves))
  have bracketed := h.bracketed brackets ready.valid reachable hc
  have wholeLength := on.integral.operands check _ code length (by simp [Opcode.wholeOperands])
  have grounded : plan.Grounded s.procedure s.graph l.preheader := by
    have fits := h.fits
    rw [h.plan] at termsBelow termsAbove ofLength fits ⊢
    exact ⟨fun t ht => ⟨termsBelow t ht, (bracketed.fromBelow.terms t ht).2⟩,
      fun t ht => ⟨termsAbove t ht, (bracketed.fromAbove.terms t ht).2⟩, bracketed.fromBelow.normal,
      bracketed.fromAbove.normal, ⟨ofLength, wholeLength⟩, fits⟩
  have preheader := ready.simple.preheader_spec.1
  have grown := placeChecks_extends ready.valid preheader termsBelow termsAbove ofLength placed
  obtain ⟨on', within⟩ := placeChecks_withinLimits ready.valid on preheader grounded placed
  have wf' := grown.valid.wellFormed
  have d' := grown.valid.describes
  have code' : f'.opcode? check = some (.boundsCheck index length minimum maximum true) :=
    (grown.opcode? check (lt_size_of_home? home)).trans code
  obtain ⟨added, extended, -⟩ := grown.instrsAt b
  have split' : f'.instrsAt b = before ++ check :: (after ++ added) := by
    rw [extended, split, List.append_assoc, List.cons_append]
  have reads : ∀ x ∈ [index, length], f'.Readable s.graph b (f'.phisAt b ++ before) x := fun x hx =>
    (wf'.uses b reachable).reads before check _ split' _ code' x hx
  refine ⟨on', b, before, _, index, length, minimum, maximum, reachable, split', code', ⟨_, split'⟩,
    reads index (by simp), reads length (by simp), fun args σ reached here passed at_σ => ?_⟩
  subst here
  have available : ∀ x ∈ [index, length], Available f' s.graph σ x := fun x hx =>
    available_of_readable (reads x hx) at_σ
  have whole := on'.integral.operands check _ code'
  obtain ⟨slotI, -⟩ := reached.slot_eq on' (available index (by simp))
    (whole index (by simp [Opcode.wholeOperands]))
  obtain ⟨slotN, -⟩ := reached.slot_eq on' (available length (by simp))
    (whole length (by simp [Opcode.wholeOperands]))
  have index_eq := reached.offset_eval on' (available index (by simp))
    (whole index (by simp [Opcode.wholeOperands])) (h.reads.extends grown)
  -- The index lies between the bounds here, and the checks were passed on the way into the loop.
  have bracketed' := bracketed.extends on.consistent grown
  have low := bracketed'.low args σ reached hb
    (boundHoldsAt_spec h.lowerHolds ready.valid.describes reachable home)
  have high := bracketed'.high args σ reached hb
    (boundHoldsAt_spec h.upperHolds ready.valid.describes reachable home)
  have simple' := ready.simple.of_describes ready.valid.describes d'
  obtain ⟨origin, k, approaches, stay⟩ :=
    reached.activation on' simple' (List.ne_nil_of_mem bracketed'.header) hb
  obtain ⟨passedLow, passedHigh⟩ :=
    within args origin approaches.reached approaches.block approaches.last
  -- What they were passed for has not changed since.
  have sameLow := stay.eval_eq approaches wf' d' simple'.natural
    fun t ht => (bracketed'.fromBelow.terms t ht).1
  have sameHigh := stay.eval_eq approaches wf' d' simple'.natural
    fun t ht => (bracketed'.fromAbove.terms t ht).1
  have sameLength : f'.valueIn σ.memory length = f'.valueIn origin.memory length :=
    valueIn_congr (stay.slots approaches wf' d' simple'.natural
      (h.fixed.extends grown (SimpleLoop.lt_size_of_isWhole wholeLength)))
  rw [h.plan] at passedLow passedHigh
  simp only [LinearSum.eval] at low high sameLow sameHigh passedLow passedHigh
  simp only [Offset.eval, Option.map_some, Option.getD_some] at index_eq
  exact ⟨_, _, slotI, slotN, by omega, by omega⟩

/-- Placing checks in front of a loop keeps the procedure on int32 numbers, and the checks that they
replace are guarded. -/
theorem hoistChecks_guarded {checks hoisted : List ValueId} (ready : s.HoistReady l)
    (brackets : s.Brackets l (l.Outside s.procedure)) (on : s.procedure.OnInt32 s.graph)
    (inside : MovableIn l s.procedure checks) (run : hoistChecks l checks s = .ok (t, hoisted)) :
    t.procedure.OnInt32 s.graph ∧ ∀ c ∈ hoisted, IsGuarded t.procedure s.graph c := by
  induction checks generalizing s hoisted with
  | nil =>
    obtain ⟨rfl, rfl⟩ := Prod.mk.inj (Except.ok.inj run)
    exact ⟨on, by simp⟩
  | cons check rest ih =>
    have others : MovableIn l s.procedure rest := fun c hc => inside c (List.mem_cons_of_mem _ hc)
    rcases hoistChecks_cons ready inside run with run | ⟨_, _, _, _, _, _, _, _, _, f, _, rfl, plans,
      placed, grown, -, run⟩
    · exact ih ready brackets on others run
    · obtain ⟨movable, b, hb, hc⟩ := inside check List.mem_cons_self
      obtain ⟨on', guarded⟩ := plans.guarded ready brackets on movable hb hc placed
      have ready' := ready.extends grown
      obtain ⟨grown', -⟩ := hoistChecks_spec ready' (others.extends grown) run
      obtain ⟨on'', rest⟩ := ih ready' (brackets.extends on.consistent grown) on'
        (others.extends grown) run
      refine ⟨on'', ?_⟩
      rw [List.forall_mem_cons]
      exact ⟨guarded.extends on'.consistent grown', rest⟩

end Session

end Rangefinder
