import Rangefinder.Fault

/-!
# Iteration until nothing changes

Some computations repeat a step until it changes nothing. `settle` does so with a limit on the
number of steps; reaching the limit is the fault `unsettled`, so a statement that an iteration
ends is the statement that this fault does not arise.
-/

namespace Rangefinder

/-- Repeats a step until it reports that nothing changed, at most `limit` times. -/
def settle {σ : Type} (step : σ → Except Fault (σ × Bool)) : Nat → σ → Except Fault σ
  | 0, _ => .error .unsettled
  | limit + 1, s => do
    let (s, changed) ← step s
    if changed then settle step limit s else return s

end Rangefinder
