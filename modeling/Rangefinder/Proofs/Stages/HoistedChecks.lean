import Rangefinder.Proofs.Stages.Guarding
import Rangefinder.Proofs.Stages.Pipeline

/-!
# Hoisted checks are sound

The analysis takes bounds checks out of loops. `Tracked` compares the procedure that it has made so far
with the one that it began with: every movable check is still there, with operands that stand for those
that it had, or its place is guarded. Each edit of the analysis keeps this, so in every run of the
procedure that it ends with, the place of a check that is gone is reached with an index and a length for
which the check would pass.
-/

namespace Rangefinder

open Procedure Machine

/-- Only the flags of arithmetic become sharper, and whether it wraps stays as it was. -/
theorem ArithFlags.sharpen_spec {flags sharp : ArithFlags} {op : BinaryOp} {range l r : Range}
    (h : flags.sharpen op range l r = some sharp) :
    op.isBitwise = false ∧ sharp.wrapping = flags.wrapping := by
  cases op with
  | add | sub | mul | div | mod => exact Option.some.inj h ▸ ⟨rfl, rfl⟩
  | _ => cases h

/-- In the second procedure a value of the first one stands for itself. If it is a check that was taken
out, what stands for its index stands for it. -/
inductive StandsFor (p f : Procedure) : ValueId → ValueId → Prop
  | placed {v : ValueId} {b : BlockId} : f.home? v = some b → StandsFor p f v v
  | check {v w index length : ValueId} {minimum maximum : Int} {movable : Bool} :
    f.home? v = none → p.opcode? v = some (.boundsCheck index length minimum maximum movable) →
    StandsFor p f index w → StandsFor p f v w

namespace StandsFor

variable {p f f' : Procedure} {v w check index : ValueId}

/-- Only places matter. -/
theorem congr (h : StandsFor p f v w) (count : p.values.size ≤ f.values.size)
    (same : ∀ x < f.values.size, f'.home? x = f.home? x) : StandsFor p f' v w := by
  induction h with
  | placed stands => exact .placed ((same _ (lt_size_of_home? stands)).trans stands)
  | check gone code _ ih =>
    exact .check ((same _ (Nat.lt_of_lt_of_le (lt_size_of_opcode? code) count)).trans gone) code ih

/-- What stands for a value still does when another one is taken out. -/
theorem of_ne (h : StandsFor p f v w) (ne : w ≠ check)
    (homes : ∀ x, f'.home? x = if x = check then none else f.home? x) : StandsFor p f' v w := by
  induction h with
  | placed stands => exact .placed (by rw [homes, if_neg ne, stands])
  | check gone code _ ih =>
    refine .check ?_ code (ih ne)
    rw [homes, gone, ite_self]

/-- The index of a check that is taken out takes its place. -/
theorem drop (h : StandsFor p f v w) (homes : ∀ x, f'.home? x = if x = check then none else f.home? x)
    (own : StandsFor p f' check index) : StandsFor p f' v (substitute check index w) := by
  induction h with
  | @placed v _ stands =>
    rw [substitute]
    split
    · next same => exact same ▸ own
    · next other => exact .placed (by rw [homes, if_neg other, stands])
  | check gone code _ ih =>
    refine .check ?_ code ih
    rw [homes, gone, ite_self]

end StandsFor

namespace Procedure

/-- The value stands in some block. -/
def isPlaced (f : Procedure) (v : ValueId) : Bool := (f.home? v).isSome

/-- The second procedure has the instructions of the first one that are placed, and perhaps more behind
them. Every movable check of the first one is one of them, with operands that stand for those of the
check, or its place is guarded. -/
structure Tracked (p f : Procedure) (g : FlowGraph) : Prop where
  base : p.Structured
  valid : f.Valid g
  on : f.OnInt32 g
  count : p.values.size ≤ f.values.size
  instrs : ∀ b, ∃ extra, f.instrsAt b = (p.instrsAt b).filter f.isPlaced ++ extra ∧
    ∀ v ∈ extra, p.values.size ≤ v
  movable : ∀ v x y minimum maximum, f.opcode? v = some (.boundsCheck x y minimum maximum true) →
    ∃ index length, p.opcode? v = some (.boundsCheck index length minimum maximum true)
  checks : ∀ b ∈ g.order, ∀ before check after index length minimum maximum,
    p.instrsAt b = before ++ check :: after →
    p.opcode? check = some (.boundsCheck index length minimum maximum true) →
    ∃ x y, StandsFor p f index x ∧ StandsFor p f length y ∧
      (f.isPlaced check = true →
        f.opcode? check = some (.boundsCheck x y minimum maximum true)) ∧
      (f.isPlaced check = false →
        Guard f g b (before.filter f.isPlaced) x y minimum maximum)

namespace Tracked

variable {p f f' : Procedure} {g : FlowGraph} {b : BlockId} {check index length : ValueId}
  {minimum maximum : Int}

/-- At first all checks are there. -/
theorem refl (valid : f.Valid g) (on : f.OnInt32 g) : f.Tracked f g where
  base := valid.wellFormed.structured
  valid := valid
  on := on
  count := Nat.le_refl _
  instrs b := by
    have all : ∀ v ∈ f.instrsAt b, f.isPlaced v = true := fun v hv => by
      rw [isPlaced, (valid.wellFormed.structured.instrs b v hv).2, Option.isSome_some]
    exact ⟨[], by rw [List.filter_eq_self.mpr all, List.append_nil], by simp⟩
  movable v x y minimum maximum code := ⟨x, y, code⟩
  checks b hb before check after index length minimum maximum split code := by
    have reads : ∀ x ∈ [index, length], StandsFor f f x x := fun x hx => by
      obtain ⟨home, stands, -⟩ :=
        (valid.wellFormed.uses b hb).reads before check after split _ code x hx
      exact .placed stands
    refine ⟨index, length, reads index (by simp), reads length (by simp), fun _ => code, fun gone => ?_⟩
    rw [isPlaced, (valid.wellFormed.structured.instrs b check (by simp [split])).2] at gone
    cases gone

/-- An instruction is placed where it is listed. -/
theorem isPlaced_iff {v : ValueId} (h : p.Tracked f g) (hv : v ∈ p.instrsAt b) :
    f.isPlaced v = true ↔ v ∈ f.instrsAt b := by
  constructor
  · intro placed
    obtain ⟨extra, split, -⟩ := h.instrs b
    rw [split]
    exact List.mem_append_left _ (List.mem_filter.mpr ⟨hv, placed⟩)
  · intro mem
    rw [isPlaced, (h.valid.wellFormed.structured.instrs b v mem).2, Option.isSome_some]

/-- Notes, and flags of arithmetic that make the procedure do less, change nothing. -/
theorem covered (h : p.Tracked f g) (valid : f'.Valid g) (on : f'.OnInt32 g) (layout : SameLayout f f')
    (covers : ∀ args, Covers f f' args)
    (codes : ∀ v x y minimum maximum, f'.opcode? v = some (.boundsCheck x y minimum maximum true) ↔
      f.opcode? v = some (.boundsCheck x y minimum maximum true)) : p.Tracked f' g := by
  have placed : f'.isPlaced = f.isPlaced := funext fun v => by rw [isPlaced, isPlaced, layout.home?]
  refine ⟨h.base, valid, on, layout.valueCount ▸ h.count, fun b => ?_,
    fun v x y minimum maximum code => h.movable v x y minimum maximum ((codes ..).mp code),
    fun b hb before check after index length minimum maximum split code => ?_⟩
  · rw [layout.instrsAt, placed]
    exact h.instrs b
  · obtain ⟨x, y, forIndex, forLength, here, gone⟩ :=
      h.checks b hb before check after index length minimum maximum split code
    rw [placed]
    exact ⟨x, y, forIndex.congr h.count fun v _ => layout.home? v,
      forLength.congr h.count fun v _ => layout.home? v, fun kept => (codes ..).mpr (here kept),
      fun dropped => (gone dropped).covered layout covers⟩

/-- Notes keep the checks tracked. -/
theorem of_sameCode (h : p.Tracked f g) (same : SameCode f f') : p.Tracked f' g :=
  h.covered (h.valid.of_sameCode same) (h.on.of_sameCode same) same.layout
    (fun _ => covers_of_sameCode same) fun v _ _ _ _ => by rw [same.opcode?]

/-- Instructions at the end of a block are more of the same. -/
theorem extend {c : BlockId} (h : p.Tracked f g) (on : f'.OnInt32 g) (grown : f.Extends f' g c) :
    p.Tracked f' g := by
  have placed : ∀ b, ∀ v ∈ p.instrsAt b, f'.isPlaced v = f.isPlaced v := by
    intro b v hv
    have old := Nat.lt_of_lt_of_le (lt_size_of_home? (h.base.instrs b v hv).2) h.count
    rw [isPlaced, isPlaced, grown.home? v old]
  refine ⟨h.base, grown.valid, on, h.count.trans grown.count, fun b => ?_,
    fun v x y minimum maximum code => ?_,
    fun b hb before check after index length minimum maximum split code => ?_⟩
  · obtain ⟨extra, listed, new⟩ := h.instrs b
    obtain ⟨added, extended, later⟩ := grown.instrsAt b
    refine ⟨extra ++ added, ?_, fun v hv => ?_⟩
    · rw [extended, listed, List.append_assoc, List.filter_congr (placed b)]
    · rcases List.mem_append.mp hv with hv | hv
      · exact new v hv
      · exact h.count.trans (later v hv)
  · by_cases old : v < f.values.size
    · exact h.movable v x y minimum maximum (grown.opcode? v old ▸ code)
    · cases grown.emitted v _ (Nat.not_lt.mp old) code
  · obtain ⟨x, y, forIndex, forLength, here, gone⟩ :=
      h.checks b hb before check after index length minimum maximum split code
    have own := placed b check (by simp [split])
    have front : before.filter f'.isPlaced = before.filter f.isPlaced :=
      List.filter_congr fun v hv => placed b v (by simp [split, hv])
    refine ⟨x, y, forIndex.congr h.count grown.home?, forLength.congr h.count grown.home?,
      fun kept => ?_, fun dropped => ?_⟩
    · have code' := here (own ▸ kept)
      exact (grown.opcode? check (lt_size_of_opcode? code')).trans code'
    · rw [front]
      exact (gone (own ▸ dropped)).extends h.on.consistent grown

/-- A movable check is one of the first procedure, in the same block. -/
theorem mem_of_movable (h : p.Tracked f g) (listed : check ∈ f.instrsAt b)
    (code : f.opcode? check = some (.boundsCheck index length minimum maximum true)) :
    check ∈ p.instrsAt b := by
  obtain ⟨_, _, code'⟩ := h.movable check _ _ _ _ code
  obtain ⟨extra, split, new⟩ := h.instrs b
  rw [split, List.mem_append] at listed
  rcases listed with kept | added
  · exact (List.mem_filter.mp kept).1
  · exact absurd (lt_size_of_opcode? code') (Nat.not_lt.mpr (new check added))

/-- What stands in front of a check that is still there are the instructions in front of it that are. -/
theorem front_eq {before after front back : List ValueId} (h : p.Tracked f g)
    (split : p.instrsAt b = before ++ check :: after) (here : f.instrsAt b = front ++ check :: back) :
    front = before.filter f.isPlaced := by
  obtain ⟨extra, listed, -⟩ := h.instrs b
  have hc : check ∈ p.instrsAt b := by simp [split]
  have placed : f.isPlaced check = true := (h.isPlaced_iff hc).mpr (by simp [here])
  have listed' : f.instrsAt b =
      before.filter f.isPlaced ++ check :: (after.filter f.isPlaced ++ extra) := by
    rw [listed, split, List.filter_append, List.filter_cons_of_pos placed, List.append_assoc,
      List.cons_append]
  exact (h.valid.wellFormed.structured.split_unique here listed').2.1

/-- A guarded check may be dropped. -/
theorem drop (h : p.Tracked f g) (guarded : Session.IsGuarded f g check)
    (drops : Session.Drops f f' g check index)
    (code : f.opcode? check = some (.boundsCheck index length minimum maximum true))
    (noCheck : ∀ i n a b m, f.opcode? index ≠ some (.boundsCheck i n a b m)) : p.Tracked f' g := by
  obtain ⟨c, front, back, x₀, y₀, _, _, hc, here, code₀, guard⟩ := id guarded
  obtain ⟨rfl, rfl, rfl, rfl, -⟩ := Opcode.boundsCheck.inj (Option.some.inj (code.symm.trans code₀))
  have index_ne : index ≠ check := by
    rintro rfl
    exact noCheck _ _ _ _ _ code
  have listed : check ∈ f.instrsAt c := by simp [here]
  have placed : f'.isPlaced = fun v => v != check && f.isPlaced v := by
    funext v
    rw [isPlaced, drops.home?]
    split
    · next same => simp [same]
    · next other => simp [isPlaced, other]
  -- The check stands for its index from now on.
  obtain ⟨i, n, codeP⟩ := h.movable check _ _ _ _ code
  have listedP := h.mem_of_movable listed code
  have isPlaced := (h.isPlaced_iff listedP).mpr listed
  have own : StandsFor p f' check index := by
    obtain ⟨before, after, split⟩ := List.append_of_mem listedP
    obtain ⟨x, y, forIndex, -, same, -⟩ := h.checks c hc before check after i n _ _ split codeP
    have code' := same isPlaced
    obtain ⟨rfl, -⟩ := Opcode.boundsCheck.inj (Option.some.inj (code.symm.trans code'))
    exact .check (by rw [drops.home?, if_pos rfl]) codeP (forIndex.of_ne index_ne drops.home?)
  refine ⟨h.base, drops.valid, drops.onInt32 h.on code, drops.count ▸ h.count, fun b => ?_,
    fun v x y low high code' => ?_,
    fun b hb before other after index' length' low high split codeO => ?_⟩
  · obtain ⟨extra, listed, new⟩ := h.instrs b
    refine ⟨extra.filter (· != check), ?_, fun v hv => new v (List.mem_filter.mp hv).1⟩
    rw [drops.instrsAt, listed, List.filter_append, List.filter_filter, placed]
  · rw [drops.opcode?, Option.map_eq_some_iff] at code'
    obtain ⟨o, codeF, renamed⟩ := code'
    cases o <;> simp [Opcode.rename, Opcode.mapOperands] at renamed
    obtain ⟨-, -, rfl, rfl, rfl⟩ := renamed
    exact h.movable v _ _ _ _ codeF
  · obtain ⟨x, y, forIndex, forLength, kept, gone⟩ :=
      h.checks b hb before other after index' length' low high split codeO
    have listedO : other ∈ p.instrsAt b := by simp [split]
    refine ⟨_, _, forIndex.drop drops.home? own, forLength.drop drops.home? own, fun stays => ?_,
      fun leaves => ?_⟩
    · rw [placed, Bool.and_eq_true, bne_iff_ne] at stays
      have codeF := kept stays.2
      refine drops.boundsCheck ((h.isPlaced_iff listedO).mp stays.2) ?_ codeF
      rintro rfl
      exact noCheck _ _ _ _ _ codeF
    · -- The place of the other check was guarded already, or it is the check that is dropped.
      have guardO : Guard f g b (before.filter f.isPlaced) x y low high := by
        by_cases same : other = check
        · subst same
          obtain ⟨rfl, rfl, rfl, rfl, -⟩ :=
            Opcode.boundsCheck.inj (Option.some.inj (code.symm.trans (kept isPlaced)))
          obtain rfl : c = b := Option.some.inj
            ((h.base.instrs c other listedP).2.symm.trans (h.base.instrs b other listedO).2)
          exact h.front_eq split here ▸ guard
        · refine gone ?_
          simpa [placed, same] using leaves
      have dropped := guardO.drop h.on drops index_ne code hb (guarded.not_endsAt h.on)
      rwa [List.filter_filter, ← placed] at dropped

end Tracked

end Procedure

namespace Session

variable {s t : Session} {p : Procedure} {l : SimpleLoop} {e : Option AnalysisError}

/-- Dropping guarded checks keeps track of them. -/
theorem dropChecks_tracked {checks : List ValueId} (h : p.Tracked s.procedure s.graph)
    (nodup : checks.Nodup) (droppable : ∀ c ∈ checks, Droppable l s.procedure c)
    (guarded : ∀ c ∈ checks, IsGuarded s.procedure s.graph c) (run : dropChecks checks s = .ok t) :
    p.Tracked t.procedure s.graph := by
  induction checks generalizing s with
  | nil =>
    obtain rfl := Except.ok.inj run
    exact h
  | cons check rest ih =>
    rw [List.nodup_cons] at nodup
    rw [List.forall_mem_cons] at droppable guarded
    obtain ⟨index, length, minimum, maximum, f, stats, code, drops, run⟩ :=
      dropChecks_cons h.valid droppable.1 run
    obtain ⟨b, _, _, _, _, hc, hb, code', noCheck, -⟩ := droppable.1
    obtain ⟨rfl, -⟩ := Opcode.boundsCheck.inj (Option.some.inj (code.symm.trans code'))
    have other : ∀ c ∈ rest, c ≠ check := fun c hmem same => nodup.1 (same ▸ hmem)
    exact @ih { s with procedure := f, stats := stats } (h.drop guarded.1 drops code noCheck) nodup.2
      (fun c hmem => (droppable.2 c hmem).drop h.valid.wellFormed.structured drops (other c hmem) hc hb
        code)
      (fun c hmem => (guarded.2 c hmem).drop h.on guarded.1 drops code noCheck (other c hmem)) run

/-- Moving the checks of a loop before it keeps track of them. -/
theorem hoist_tracked (h : p.Tracked s.procedure s.graph) (ready : s.HoistReady l)
    (brackets : s.Brackets l (l.Outside s.procedure)) (run : s.hoist l = .ok t) :
    p.Tracked t.procedure s.graph := by
  obtain ⟨checks, hoisted, u, nodup, inside, hoisting, dropping⟩ := hoist_eq_ok ready.valid run
  obtain ⟨grown, same, sub, droppable⟩ := hoistChecks_spec ready inside hoisting
  obtain ⟨on, guarded⟩ := hoistChecks_guarded ready brackets h.on inside hoisting
  have graph : u.graph = s.graph := by rw [same]
  rw [← graph] at guarded ⊢
  exact dropChecks_tracked (graph ▸ h.extend on grown) (nodup.sublist sub) droppable guarded dropping

/-- The treatment of a loop keeps track of the checks. -/
theorem boundLoop_tracked {loop : Loop} {rest : List Loop} (h : p.Tracked s.procedure s.graph)
    (natural : loop.IsNatural s.graph s.procedure) (outside : s.SymbolicOutside (loop :: rest))
    (later : ∀ l ∈ rest, loop.header ∉ l.body) (run : s.boundLoop loop = .ok (t, e)) :
    p.Tracked t.procedure s.graph := by
  rcases boundLoop_natural h.valid.describes natural run with rfl | ⟨l, test, sum, b, arena, id, stats,
    block, u, gaveUp, -, rfl, simple, ⟨hb, ne, -⟩, exit, added, header, phis, ends⟩
  · exact h
  have start : ({ s with arena := arena, stats := stats } : Session).Brackets l
      (l.Outside s.procedure) := fun v r id ranged mentions =>
    .inl fun b home => outside v r id ranged mentions b home l.loop List.mem_cons_self
  obtain ⟨brackets, notes⟩ := forEach_boundPhi_brackets start h.on simple
    (fun phi hphi => mem_phisAt.mpr ⟨block, header, hphi⟩) (exit.limitsRounds h.on simple hb ne)
    (exit.fromOutside h.on.integral) (Arena.addLoopBound?_spec added).1 phis
  have tracked : p.Tracked u.procedure u.graph := notes.graph ▸ h.of_sameCode notes.code
  rcases ends with rfl | hoisting
  · exact notes.graph ▸ tracked
  · obtain ⟨-, ready, -⟩ :=
      @forEach_boundPhi_ready { s with arena := arena, stats := stats } u l _ _ _ rest _ h.valid simple
        outside later header (exit.terms h.valid simple hb ne) phis
    have brackets' : u.Brackets l (l.Outside u.procedure) := fun v r id ranged mentions =>
      (brackets v r id ranged mentions).imp_left fun out => out.of_sameCode notes.code
    exact notes.graph ▸ hoist_tracked tracked ready brackets' hoisting

/-- The treatment of several loops keeps track of the checks. Afterwards no value in a loop that is still
to come has symbolic bounds. -/
theorem forEach_boundLoop_tracked {loops rest : List Loop} (h : p.Tracked s.procedure s.graph)
    (natural : ∀ l ∈ loops, l.IsNatural s.graph s.procedure)
    (ordered : (loops ++ rest).Pairwise fun l l' => l.header ∉ l'.body)
    (outside : s.SymbolicOutside (loops ++ rest)) (run : forEach boundLoop loops s = .ok (t, e)) :
    p.Tracked t.procedure t.graph ∧ s.Keeps t ∧ (e = none → t.SymbolicOutside rest) := by
  refine forEach_boundLoop_invariant (fun u => p.Tracked u.procedure u.graph)
    (fun u v l later e tracked valid natural outside others run => ?_) h h.valid natural ordered outside
    run
  rw [(boundLoop_spec valid natural outside others run).1.graph]
  exact boundLoop_tracked tracked natural outside others run

/-- Sharper flags keep track of the checks. -/
theorem sharpenFlags_tracked {v : ValueId} (h : p.Tracked s.procedure s.graph)
    (run : s.sharpenFlags v = .ok t) : p.Tracked t.procedure s.graph := by
  have keeps := sharpenFlags_keeps h.valid run
  have valid : t.procedure.Valid s.graph := keeps.graph ▸ keeps.valid
  rcases sharpenFlags_cases h.valid run with rfl | ⟨b, op, lhs, rhs, flags, range, l, r, sharp, -, code,
    typed, checked, sharpened, recoded, types, -⟩
  · exact h
  · obtain ⟨arithmetic, wrapping⟩ := ArithFlags.sharpen_spec sharpened
    have on : t.procedure.OnInt32 s.graph :=
      ⟨valid.consistent, by rw [recoded.layout.phisAt, recoded.layout.entry, h.on.noPhis],
        h.on.integral.recode recoded.opcode? types
          (fun type => h.on.integral.form v (.binary op lhs rhs flags) type code)
          (h.on.integral.operands v (.binary op lhs rhs flags) code) (by simp [Opcode.limits])⟩
    refine h.covered valid on recoded.layout (fun args => covers_of_reflag recoded types code typed
      arithmetic checked (wrapping.trans checked)) fun w x y minimum maximum => ?_
    rw [recoded.opcode?]
    split
    · next own => simp [own, code]
    · rfl

/-- The analysis keeps track of the checks. -/
theorem analyze_tracked (h : p.Tracked s.procedure s.graph) (loops : s.LoopsNatural)
    (run : s.analyze = .ok (t, e)) : p.Tracked t.procedure s.graph := by
  obtain ⟨⟨u, gaveUp⟩, fixed, run⟩ := bind_eq_ok.mp run
  obtain ⟨same, -⟩ := fixedPoint_sameWork fixed
  have tracked : p.Tracked u.procedure u.graph := same.graph ▸ h.of_sameCode same.code
  rw [← same.graph]
  cases gaveUp with
  | some r =>
    obtain ⟨rfl, rfl⟩ := Prod.mk.inj (pure_eq_ok.mp run)
    exact tracked
  | none =>
    obtain ⟨⟨w, gaveUp⟩, bounded, run⟩ := bind_eq_ok.mp run
    obtain ⟨natural, ordered⟩ := loops.keeps h.valid (same.keeps h.valid)
    rw [← List.append_nil u.loops] at ordered
    obtain ⟨tracked', kept, -⟩ := forEach_boundLoop_tracked tracked natural ordered
      (fixedPoint_symbolicOutside fixed) bounded
    rw [kept.graph] at tracked'
    cases gaveUp with
    | some r =>
      obtain ⟨rfl, rfl⟩ := Prod.mk.inj (pure_eq_ok.mp run)
      exact tracked'
    | none =>
      obtain ⟨⟨x, changed⟩, passed, run⟩ := bind_eq_ok.mp run
      obtain ⟨y, sharpened, run⟩ := bind_eq_ok.mp run
      obtain ⟨rfl, rfl⟩ := Prod.mk.inj (pure_eq_ok.mp run)
      have noted := pass_sameWork passed
      refine (foldlM_invariant (fun z => p.Tracked z.procedure u.graph ∧ z.graph = u.graph)
        (fun v _ z z' holds step => ?_) ⟨tracked'.of_sameCode noted.code, noted.graph.trans kept.graph⟩
        sharpened).1
      obtain ⟨holds, graph⟩ := holds
      rw [← graph] at holds ⊢
      exact ⟨sharpenFlags_tracked holds step, (sharpenFlags_keeps holds.valid step).graph⟩

/-- A beta is whole if numbers are. -/
theorem PlacesBeta.onInt32 {b : BlockId} {input : ValueId} {range : Range}
    (h : s.PlacesBeta t b input range) (on : s.procedure.OnInt32 s.graph)
    (none : s.procedure.NoDoubles) :
    t.procedure.OnInt32 t.graph ∧ t.procedure.NoDoubles := by
  obtain ⟨number, ofInput, isNumber⟩ := h.number
  obtain ⟨f, type, typed, placed, redirects⟩ := h.edit
  have whole := none.isWhole ofInput isNumber
  have integral : f.Integral := by
    refine on.integral.place placed (fun _ => rfl) (fun x hx => ?_) nofun
    obtain rfl := List.mem_singleton.mp hx
    exact whole
  refine ⟨⟨h.consistent on.consistent, ?_, integral.redirect redirects (type?_beta typed placed)⟩,
    fun v double => ?_⟩
  · rw [redirects.layout.phisAt, placed.phisAt, redirects.layout.entry, placed.entry, on.noPhis]
  · obtain ⟨ρ, π, τ, renamed, -⟩ := redirects
    rw [renamed.type?, placed.type?] at double
    split at double
    · exact none input (typed.trans double)
    · exact none v double

/-- Betas leave a procedure on int32 numbers. -/
theorem addBetas_onInt32 (on : s.procedure.OnInt32 s.graph) (none : s.procedure.NoDoubles)
    (run : s.addBetas = .ok (t, e)) : t.procedure.OnInt32 t.graph :=
  (addBetas_invariant (fun u => u.procedure.OnInt32 u.graph ∧ u.procedure.NoDoubles)
    (fun _ kept => kept.1.consistent)
    (fun _ _ _ _ _ kept places => places.onInt32 kept.1 kept.2) ⟨on, none⟩ run).1.1

/-- Hoisting is sound. When the analysis has taken a movable check out of its block, every run of the
procedure that it leaves reaches the place where the check stood with values of its index and its length
for which the check passes. -/
theorem hoisted_checks_pass {config : Config} {f : Procedure} {u : Session} {e : Option AnalysisError}
    {b : BlockId} {before after : List ValueId} {check index length : ValueId}
    {minimum maximum : Int} {args : List Number} {state : State}
    (accepted : f.verify = .ok (.ok ())) (noPhis : f.phisAt f.entry = []) (listed : f.AllListed)
    (ints : f.Int32Only) (started : start f config = .ok s)
    (betas : t = s ∨ s.addBetas = .ok (t, none)) (analyzed : t.analyze = .ok (u, e))
    (stood : t.procedure.instrsAt b = before ++ check :: after)
    (code : t.procedure.opcode? check = some (.boundsCheck index length minimum maximum true))
    (gone : check ∉ u.procedure.instrsAt b) (reached : Reached u.procedure args state)
    (block : state.block = b) (place : u.procedure.instrsAt b =
      before.filter (fun v => v ∈ u.procedure.instrsAt b) ++ state.pending) :
    ∃ x y, StandsFor t.procedure u.procedure index x ∧ StandsFor t.procedure u.procedure length y ∧
      state.memory.Passes x y minimum maximum := by
  obtain ⟨branches, -⟩ := Procedure.verify_eq_ok.mp accepted
  obtain ⟨valid, loops⟩ :=
    Pipeline.start_valid accepted listed (ints.testable branches).handedOn started
  have procedure : s.procedure = f := by
    obtain ⟨g, -, same⟩ := bind_eq_ok.mp started
    rw [← pure_eq_ok.mp same]
  have on : s.procedure.OnInt32 s.graph :=
    ⟨valid.consistent, procedure ▸ noPhis, procedure ▸ ints.integral⟩
  have begins : t.procedure.Tracked t.procedure t.graph ∧ t.LoopsNatural := by
    rcases betas with rfl | added
    · exact ⟨.refl valid on, loops⟩
    · obtain ⟨kept, -⟩ := addBetas_valid valid added
      exact ⟨.refl kept.valid (addBetas_onInt32 on (procedure ▸ ints.noDoubles) added),
        loops.keeps valid kept⟩
  have tracked := analyze_tracked begins.1 begins.2 analyzed
  have reachable : b ∈ t.graph.order :=
    block ▸ (reached.stands tracked.valid.wellFormed tracked.valid.describes).reachable
  obtain ⟨x, y, forIndex, forLength, -, guarded⟩ :=
    tracked.checks b reachable before check after index length minimum maximum stood code
  have placed : ∀ v ∈ t.procedure.instrsAt b,
      (u.procedure.isPlaced v = true ↔ v ∈ u.procedure.instrsAt b) := fun _ => tracked.isPlaced_iff
  have isGone : u.procedure.isPlaced check = false := by
    rw [← Bool.not_eq_true, placed check (by simp [stood])]
    exact gone
  have front : before.filter u.procedure.isPlaced =
      before.filter (fun v => v ∈ u.procedure.instrsAt b) := by
    refine List.filter_congr fun v hv => ?_
    rw [Bool.eq_iff_iff, placed v (by simp [stood, hv]), decide_eq_true_eq]
  refine ⟨x, y, forIndex, forLength, (guarded isGone).holds args state reached block [] ?_⟩
  rw [front, List.append_nil]
  exact place

/-- Writes into every second element of an array, as often as the second argument says. -/
def pairMarks : Procedure where
  name := "pairs"
  entry := 0
  blocks := #[⟨0, [], [0, 1, 2, 3, 4, 5], .goto 1, false⟩, ⟨1, [6, 7], [8], .branch 8 2 3, false⟩,
    ⟨2, [], [9, 10, 11, 12], .goto 1, false⟩, ⟨3, [], [], .exit (some 7), false⟩]
  values := #[⟨0, .param 0, .object, some 0, none⟩, ⟨1, .arrayLength 0, .int32, some 0, none⟩,
    ⟨2, .const (.int 0), .int32, some 0, none⟩, ⟨3, .const (.int 1), .int32, some 0, none⟩,
    ⟨4, .const (.int 2), .int32, some 0, none⟩, ⟨5, .param 1, .int32, some 0, none⟩,
    ⟨6, .phi [(2, 0), (11, 2)], .int32, some 1, none⟩,
    ⟨7, .phi [(2, 0), (12, 2)], .int32, some 1, none⟩,
    ⟨8, .compare .lt 6 5, .boolean, some 1, none⟩,
    ⟨9, .boundsCheck 7 1 0 1 true, .int32, some 2, none⟩,
    ⟨10, .storeElement 0 9 6, .effect, some 2, none⟩,
    ⟨11, .binary .add 6 3 .checked, .int32, some 2, none⟩,
    ⟨12, .binary .add 7 4 .checked, .int32, some 2, none⟩]
  unsupported := false
  reasons := []

/-- The check of `pairMarks` leaves the loop, and a run with three rounds on ten elements stands in the
second round where the check stood. -/
theorem pairMarks_checks_pass : ∃ s t u e, start pairMarks .standard = .ok s ∧
    s.addBetas = .ok (t, none) ∧ t.analyze = .ok (u, e) ∧
    (pairMarks.verify = .ok (.ok ()) ∧ pairMarks.phisAt pairMarks.entry = [] ∧
      pairMarks.AllListed ∧ pairMarks.Int32Only) ∧
    t.procedure.instrsAt 2 = [14, 13] ++ 9 :: [10, 11, 12] ∧
    t.procedure.opcode? 9 = some (.boundsCheck 7 1 0 1 true) ∧ 9 ∉ u.procedure.instrsAt 2 ∧
    ∃ state, Reached u.procedure [.ofInt 10, .ofInt 3] state ∧ state.block = 2 ∧
      state.pending = [10, 11, 12] ∧
      ∃ x y, StandsFor t.procedure u.procedure 7 x ∧ StandsFor t.procedure u.procedure 1 y ∧
        state.memory.Passes x y 0 1 := by
  have betas : (fun r : StageResult =>
      (r.2.isNone, r.1.procedure.instrsAt 2, r.1.procedure.opcode? 9)) <$>
      (start pairMarks .standard >>= addBetas) =
        .ok (true, [14, 13, 9, 10, 11, 12], some (.boundsCheck 7 1 0 1 true)) := by decide +kernel
  have hoisted : (fun r : StageResult => (r.1.procedure.instrsAt 2,
      (fun state => (state.block, state.pending)) <$>
        stateAfter r.1.procedure [.ofInt 10, .ofInt 3] 24)) <$>
      (start pairMarks .standard >>= addBetas >>= fun r => r.1.analyze) =
        .ok ([14, 13, 10, 11, 12], .ok (2, [10, 11, 12])) := by decide +kernel
  obtain ⟨⟨t, given⟩, added, shape⟩ := map_eq_ok.mp betas
  obtain ⟨given', shape⟩ := Prod.mk.inj shape
  obtain ⟨stood, code⟩ := Prod.mk.inj shape
  obtain rfl := Option.isNone_iff_eq_none.mp given'
  obtain ⟨⟨u, e⟩, analyzed, shape⟩ := map_eq_ok.mp hoisted
  obtain ⟨left, standing⟩ := Prod.mk.inj shape
  rw [added] at analyzed
  obtain ⟨s, started, added⟩ := bind_eq_ok.mp added
  obtain ⟨state, after, position⟩ := map_eq_ok.mp standing
  obtain ⟨block, pending⟩ := Prod.mk.inj position
  have reached : Reached u.procedure [.ofInt 10, .ofInt 3] state :=
    reached_iff_stateAfter.mpr ⟨24, after⟩
  have accepted : pairMarks.verify = .ok (.ok ()) := by decide +kernel
  have listed : pairMarks.AllListed := by decide +kernel
  have ints : pairMarks.Int32Only := by decide +kernel
  have gone : 9 ∉ u.procedure.instrsAt 2 := by
    rw [left]
    decide
  have place : u.procedure.instrsAt 2 =
      [14, 13].filter (fun v => v ∈ u.procedure.instrsAt 2) ++ state.pending := by
    rw [left, pending]
    decide
  exact ⟨s, t, u, e, started, added, analyzed, ⟨accepted, rfl, listed, ints⟩, stood, code, gone, state,
    reached, block, pending, hoisted_checks_pass accepted rfl listed ints started (.inr added) analyzed
      stood code gone reached block place⟩

end Session

end Rangefinder
