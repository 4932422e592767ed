import Rangefinder.Analysis.LoopBounds
import Rangefinder.Settle

/-!
# Computations that succeed

Every definition that may meet a fault is a computation in `Except`. The lemmas here take apart the
statement that such a computation succeeds: a sequence succeeds when its parts do, an action on
each element of a list when it succeeds on each of them, and what every step of an iteration keeps
is kept by the iteration as a whole. `Yields` says that a computation does succeed, and with what.
-/

namespace Rangefinder

variable {ε α β σ : Type} {e : Option AnalysisError} {s t : Session}

/-- A sequence succeeds when both parts do. -/
@[simp] theorem bind_eq_ok {x : Except ε α} {next : α → Except ε β} {b : β} :
    (x >>= next) = .ok b ↔ ∃ a, x = .ok a ∧ next a = .ok b := by
  cases x <;> simp [bind, Except.bind]

/-- A check followed by something else succeeds when both do. -/
@[simp high] theorem check_bind_eq_ok {x : Except ε PUnit} {next : PUnit → Except ε β} {b : β} :
    (x >>= next) = .ok b ↔ x = .ok () ∧ next () = .ok b := by
  cases x <;> simp [bind, Except.bind]

/-- What follows a success goes on with its result. -/
theorem ok_bind {a : α} {next : α → Except ε β} : (Except.ok a >>= next) = next a := rfl

/-- A sequence fails when its first part does, or the second one after it. -/
theorem bind_eq_error {x : Except ε α} {next : α → Except ε β} {e : ε} :
    (x >>= next) = .error e ↔ x = .error e ∨ ∃ a, x = .ok a ∧ next a = .error e := by
  cases x <;> simp [bind, Except.bind]

/-- A result that is only returned is a success. -/
@[simp] theorem pure_eq_ok {a b : α} : (pure a : Except ε α) = .ok b ↔ a = b := by
  simp [pure, Except.pure]

/-- A mapped computation succeeds when the computation does. -/
@[simp] theorem map_eq_ok {x : Except ε α} {g : α → β} {b : β} :
    g <$> x = .ok b ↔ ∃ a, x = .ok a ∧ g a = b := by
  cases x <;> simp [Functor.map, Except.map]

/-- The computation succeeds, and its result has the property. -/
def Yields (x : Except ε α) (holds : α → Prop) : Prop := ∃ a, x = .ok a ∧ holds a

namespace Yields

variable {x : Except ε α} {next : α → Except ε β} {holds stronger : α → Prop} {after : β → Prop}

/-- A success yields. -/
theorem ok {a : α} (h : holds a) : Yields (.ok a : Except ε α) holds := ⟨a, rfl, h⟩

/-- Steps in sequence yield. -/
theorem bind (first : Yields x holds) (rest : ∀ a, holds a → Yields (next a) after) :
    Yields (x >>= next) after := by
  obtain ⟨a, rfl, h⟩ := first
  exact rest a h

/-- Mapped successes yield. -/
theorem map {g : α → β} (first : Yields x fun a => after (g a)) : Yields (g <$> x) after := by
  obtain ⟨a, rfl, h⟩ := first
  exact ⟨g a, rfl, h⟩

/-- Less may be claimed. -/
theorem mono (first : Yields x stronger) (weaker : ∀ a, stronger a → holds a) : Yields x holds := by
  obtain ⟨a, run, h⟩ := first
  exact ⟨a, run, weaker a h⟩

/-- A computation that succeeds yields what holds of every result it may have. -/
theorem of_run (first : Yields x stronger) (each : ∀ a, x = .ok a → stronger a → holds a) :
    Yields x holds := by
  obtain ⟨a, run, h⟩ := first
  exact ⟨a, run, each a run h⟩

/-- What a computation yields holds of the result it is known to have. -/
theorem of_eq {a : α} (first : Yields x holds) (run : x = .ok a) : holds a := by
  obtain ⟨b, run', h⟩ := first
  rw [run] at run'
  exact Except.ok.inj run' ▸ h

end Yields

/-- An action on each element of a list succeeds when it succeeds on every element. -/
theorem forM_eq_ok {act : α → Except ε PUnit} {l : List α} :
    forM l act = .ok () ↔ ∀ a ∈ l, act a = .ok () := by
  induction l with
  | nil => simp
  | cons a rest ih => rw [List.forM_cons, check_bind_eq_ok, List.forall_mem_cons, ih]

/-- A list of computations succeeds when each of them does. -/
theorem mapM_yields {act : α → Except ε β} {l : List α}
    (each : ∀ a ∈ l, Yields (act a) fun _ => True) : Yields (l.mapM act) fun _ => True := by
  induction l with
  | nil => exact .ok trivial
  | cons a rest ih =>
    rw [List.mapM_cons]
    refine (each a List.mem_cons_self).bind fun _ _ => ?_
    exact (ih fun b hb => each b (List.mem_cons_of_mem _ hb)).bind fun _ _ => .ok trivial

/-- What every step of a fold keeps, the fold keeps. -/
theorem foldlM_invariant {step : σ → α → Except ε σ} (holds : σ → Prop) {l : List α} {s t : σ}
    (keep : ∀ a ∈ l, ∀ s t, holds s → step s a = .ok t → holds t) (start : holds s)
    (run : l.foldlM step s = .ok t) : holds t := by
  induction l generalizing s with
  | nil =>
    have : s = t := by simpa using run
    exact this ▸ start
  | cons a rest ih =>
    rw [List.foldlM_cons, bind_eq_ok] at run
    obtain ⟨u, first, run⟩ := run
    exact ih (fun b hb => keep b (List.mem_cons_of_mem _ hb))
      (keep a List.mem_cons_self s u start first) run

/-- A fold succeeds with what every one of its steps succeeds with. -/
theorem foldlM_yields {step : σ → α → Except ε σ} (holds : σ → Prop) {l : List α} {s : σ}
    (next : ∀ a ∈ l, ∀ s, holds s → Yields (step s a) holds) (start : holds s) :
    Yields (l.foldlM step s) holds := by
  induction l generalizing s with
  | nil => exact .ok start
  | cons a rest ih =>
    rw [List.foldlM_cons]
    exact (next a List.mem_cons_self s start).bind fun t kept =>
      ih (fun b hb => next b (List.mem_cons_of_mem _ hb)) kept

/-- What every step of an iteration keeps holds before the step that changes nothing. -/
theorem settle_invariant {step : σ → Except Fault (σ × Bool)} (holds : σ → Prop) {limit : Nat}
    {s t : σ} (keep : ∀ s t changed, holds s → step s = .ok (t, changed) → holds t)
    (start : holds s) (run : settle step limit s = .ok t) :
    ∃ last, holds last ∧ step last = .ok (t, false) := by
  induction limit generalizing s with
  | zero => simp [settle] at run
  | succ limit ih =>
    rw [settle, bind_eq_ok] at run
    obtain ⟨⟨u, changed⟩, first, run⟩ := run
    cases changed with
    | true => exact ih (keep s u true start first) (by simpa using run)
    | false =>
      have : u = t := by simpa using run
      exact ⟨s, start, this ▸ first⟩

/-- An iteration comes to rest when what holds after `k` steps rules out a change from the `n`-th
step on, and more than `n` steps are allowed. -/
theorem settle_succeeds {step : σ → Except Fault (σ × Bool)} (holds : Nat → σ → Prop) (n : Nat)
    (next : ∀ k s, holds k s →
      ∃ t changed, step s = .ok (t, changed) ∧ holds (k + 1) t ∧ (changed = true → k < n))
    {k limit : Nat} {s : σ} (start : holds k s) (early : k ≤ n) (enough : n < k + limit) :
    ∃ t k', settle step limit s = .ok t ∧ holds (k' + 1) t := by
  induction limit generalizing k s with
  | zero => omega
  | succ limit ih =>
    obtain ⟨t, changed, first, held, more⟩ := next k s start
    rw [settle, first]
    cases changed with
    | true => exact ih held (more rfl) (by omega)
    | false => exact ⟨t, k, rfl, held⟩

/-- An iteration comes to rest when every step that changes something leaves less of a quantity; what it
ends with does not depend on the limit, if that is above the quantity. -/
theorem settle_of_measure {step : σ → Except Fault (σ × Bool)} (holds : σ → Prop) (left : σ → Nat)
    (next : ∀ s, holds s → Yields (step s) fun r => holds r.1 ∧ (r.2 = true → left r.1 < left s))
    {s : σ} (start : holds s) :
    ∃ t, holds t ∧ ∀ limit, left s < limit → settle step limit s = .ok t := by
  induction amount : left s using Nat.strongRecOn generalizing s with
  | _ amount ih =>
    obtain ⟨⟨t, changed⟩, first, held, less⟩ := next s start
    cases changed with
    | false =>
      refine ⟨t, held, fun limit enough => ?_⟩
      obtain ⟨limit, rfl⟩ := Nat.exists_eq_add_one.mpr (Nat.zero_lt_of_lt enough)
      rw [settle, first]
      rfl
    | true =>
      obtain ⟨u, rests, ends⟩ := ih (left t) (amount ▸ less rfl) held rfl
      refine ⟨u, rests, fun limit enough => ?_⟩
      obtain ⟨limit, rfl⟩ := Nat.exists_eq_add_one.mpr (Nat.zero_lt_of_lt enough)
      have fewer := less rfl
      rw [settle, first]
      exact ends limit (by dsimp only at fewer; omega)

/-- What every action keeps is kept by doing it for each element, and the reason to give up is that
of one of the actions. -/
theorem forEach_invariant {act : Session → α → Except Fault StageResult} (holds : Session → Prop)
    (reason : AnalysisError → Prop) {l : List α}
    (keep : ∀ a ∈ l, ∀ s t e, holds s → act s a = .ok (t, e) → holds t ∧ ∀ r ∈ e, reason r)
    (start : holds s) (run : Session.forEach act l s = .ok (t, e)) :
    holds t ∧ ∀ r ∈ e, reason r := by
  induction l generalizing s with
  | nil =>
    obtain ⟨rfl, rfl⟩ : s = t ∧ none = e := by simpa [Session.forEach] using run
    exact ⟨start, by simp⟩
  | cons a rest ih =>
    rw [Session.forEach, bind_eq_ok] at run
    obtain ⟨⟨u, result⟩, first, run⟩ := run
    have kept := keep a List.mem_cons_self s u result start first
    cases result with
    | none => exact ih (fun b hb => keep b (List.mem_cons_of_mem _ hb)) kept.1 run
    | some r =>
      obtain ⟨rfl, rfl⟩ : u = t ∧ some r = e := by simpa using run
      exact kept

/-- What every action keeps is kept by doing it for each element. -/
theorem forEach_keeps {act : Session → α → Except Fault StageResult} (holds : Session → Prop)
    {l : List α} (keep : ∀ a ∈ l, ∀ s t e, holds s → act s a = .ok (t, e) → holds t) (start : holds s)
    (run : Session.forEach act l s = .ok (t, e)) : holds t :=
  (forEach_invariant holds (fun _ => True)
    (fun a ha s t e kept step => ⟨keep a ha s t e kept step, fun _ _ => trivial⟩) start run).1

/-- Doing something for each element gives up for a reason for which one of the actions does. -/
theorem forEach_reason {act : Session → α → Except Fault StageResult} {reason : AnalysisError → Prop}
    {l : List α} (each : ∀ a ∈ l, ∀ s t e, act s a = .ok (t, e) → ∀ r ∈ e, reason r)
    (run : Session.forEach act l s = .ok (t, e)) : ∀ r ∈ e, reason r :=
  (forEach_invariant (fun _ => True) reason
    (fun a ha s t e _ step => ⟨trivial, each a ha s t e step⟩) trivial run).2

/-- Doing something for each element succeeds when each action does, with what the actions done so far
lead to. -/
theorem forEach_yields {act : Session → α → Except Fault StageResult} (holds : List α → Session → Prop)
    (step : ∀ a rest s, holds (a :: rest) s → Yields (act s a) fun r => holds rest r.1) {l : List α}
    (start : holds l s) :
    Yields (Session.forEach act l s) fun r => ∃ rest, holds rest r.1 := by
  induction l generalizing s with
  | nil => exact .ok ⟨[], start⟩
  | cons a rest ih =>
    refine (step a rest s start).bind fun (t, e) kept => ?_
    cases e with
    | none => exact ih kept
    | some reason => exact .ok ⟨rest, kept⟩

/-- Doing something for one element is doing it. -/
theorem forEach_singleton {act : Session → α → Except Fault StageResult} {a : α} {r : StageResult}
    (run : Session.forEach act [a] s = .ok r) : act s a = .ok r := by
  rw [Session.forEach, bind_eq_ok] at run
  obtain ⟨⟨u, result⟩, first, run⟩ := run
  cases result with
  | none => exact first.trans run
  | some reason => exact first.trans run

/-- An attempt that goes on has something to say when both parts have. -/
@[simp] theorem attempt_bind {x : Attempt α} {next : α → Attempt β} {b : β} :
    (x >>= next).run = .ok (some b) ↔ ∃ a, x.run = .ok (some a) ∧ (next a).run = .ok (some b) := by
  rw [OptionT.run_bind, Option.elimM, bind_eq_ok]
  constructor
  · rintro ⟨none | a, first, second⟩
    · simp at second
    · exact ⟨a, first, second⟩
  · rintro ⟨a, first, second⟩
    exact ⟨some a, first, second⟩

/-- An attempt that only returns has its result to say. -/
@[simp] theorem attempt_pure {a b : α} : (pure a : Attempt α).run = .ok (some b) ↔ a = b := by
  simp

/-- An attempt whose result is mapped has something to say when it has. -/
@[simp] theorem attempt_map {x : Attempt α} {g : α → β} {b : β} :
    (g <$> x).run = .ok (some b) ↔ ∃ a, x.run = .ok (some a) ∧ g a = b := by
  rw [map_eq_pure_bind, attempt_bind]
  simp only [attempt_pure]

/-- A plain computation inside an attempt has its result to say. -/
@[simp] theorem attempt_lift {x : Except Fault α} {b : α} :
    (liftM x : Attempt α).run = .ok (some b) ↔ x = .ok b := by
  cases x <;> simp [liftM, monadLift, MonadLift.monadLift, OptionT.lift, OptionT.run, OptionT.mk,
    bind, Except.bind, pure, Except.pure]

/-- A requirement lets the attempt go on when it holds. -/
@[simp] theorem attempt_require {condition : Bool} {u : Unit} :
    (Attempt.require condition).run = .ok (some u) ↔ condition = true := by
  cases condition with
  | true => exact iff_of_true rfl rfl
  | false =>
    have stops : (Attempt.require false).run = .ok none := rfl
    simp [stops]

/-- An optional value lets the attempt go on when it is there. -/
@[simp] theorem attempt_some? {a : Option α} {b : α} :
    (Attempt.some? a).run = .ok (some b) ↔ a = some b := by
  simp [Attempt.some?, OptionT.run, OptionT.mk]

/-- A failed attempt has nothing to say. -/
@[simp] theorem attempt_failure {b : α} : (failure : Attempt α).run ≠ .ok (some b) := by
  simp [pure, Except.pure]

end Rangefinder
