import Rangefinder.Proofs.Range.ArithmeticSoundness

/-!
# Integers in ranges

A range admits an integer that lies within its bounds; an open side sets no bound. For a normal range
and an int32 this is the same as containment. Sums and products of ranges admit the sums and products of
what their operands admit, also beyond int32: there the bounds of the result are open.
-/

namespace Rangefinder.Range

variable {r s t : Range} {a b n : Int}

/-- The integer lies within the bounds of the range. -/
structure Admits (r : Range) (n : Int) : Prop where
  lower : ∀ l ∈ r.lower, l ≤ n
  upper : ∀ h ∈ r.upper, n ≤ h

/-- Admitted int32 are above the lower end. -/
theorem Admits.lo_le (h : r.Admits n) (fits : IsInt32 n) : r.lo ≤ n := by
  rw [lo]
  cases bound : r.lower with
  | none => exact fits.1
  | some l => exact h.lower l bound

/-- They are below the upper end. -/
theorem Admits.le_hi (h : r.Admits n) (fits : IsInt32 n) : n ≤ r.hi := by
  rw [hi]
  cases bound : r.upper with
  | none => exact fits.2
  | some u => exact h.upper u bound

/-- Admitted is enclosed. -/
theorem admits_iff : r.Admits n ↔ r.Encloses n := by
  constructor
  · intro h
    exact ⟨fun l bound => Int.cast_le.mpr (h.lower l bound),
      fun u bound => Int.cast_le.mpr (h.upper u bound)⟩
  · intro h
    exact ⟨fun l bound => Int.cast_le.mp (h.lower l bound),
      fun u bound => Int.cast_le.mp (h.upper u bound)⟩

/-- Members are admitted. -/
theorem admits_of_contains (h : r.contains (.ofInt n) = true) : r.Admits n :=
  admits_iff.mpr (contains_ofInt.mp h).toEncloses

/-- A normal range contains the int32 values that it admits. -/
theorem Normal.contains (normal : r.Normal) (h : r.Admits n) (fits : IsInt32 n) :
    r.contains (.ofInt n) = true :=
  contains_ofInt.mpr (normal.holds_intCast (h.lo_le fits) (h.le_hi fits))

/-! ### Building ranges -/

/-- Normalizing keeps them. -/
theorem normalize_contains (run : r.normalize = .ok s) (h : r.Admits n) (fits : IsInt32 n) :
    s.contains (.ofInt n) = true :=
  (normalize_normal run).contains (admits_iff.mpr (normalize_encloses run (admits_iff.mp h))) fits

/-- A single integer. -/
theorem int32_admits (run : int32 n n = .ok s) : s.Admits n :=
  admits_iff.mpr (between_encloses run (.inr le_rfl) (.inr le_rfl))

/-! ### Refining -/

/-- A lower limit keeps what is above. -/
theorem atLeast_contains {x : Int} (run : r.atLeast x = .ok s) (h : r.contains (.ofInt n) = true)
    (fits : IsInt32 n) (le : x ≤ n) : s.contains (.ofInt n) = true := by
  have admits := admits_of_contains h
  have low := admits.lo_le fits
  rw [atLeast] at run
  split at run
  · refine normalize_contains run ⟨fun l bound => ?_, admits.upper⟩ fits
    obtain rfl := Option.some.inj bound
    omega
  · cases run

/-- An upper limit keeps what is below. -/
theorem atMost_contains {x : Int} (run : r.atMost x = .ok s) (h : r.contains (.ofInt n) = true)
    (fits : IsInt32 n) (le : n ≤ x) : s.contains (.ofInt n) = true := by
  have admits := admits_of_contains h
  have high := admits.le_hi fits
  rw [atMost] at run
  split at run
  · refine normalize_contains run ⟨admits.lower, fun u bound => ?_⟩ fits
    obtain rfl := Option.some.inj bound
    omega
  · cases run

/-! ### Sums and products -/

/-- Sums are admitted. -/
theorem add_admits (run : r.add s = .ok t) (hr : r.Admits a) (hs : s.Admits b) : t.Admits (a + b) := by
  rw [admits_iff, Int.cast_add]
  exact add_encloses run (admits_iff.mp hr) (admits_iff.mp hs)

/-- Products are admitted. -/
theorem mul_admits (run : r.mul s = .ok t) (hr : r.Admits a) (hs : s.Admits b) : t.Admits (a * b) := by
  rw [admits_iff, Int.cast_mul]
  exact mul_encloses run (admits_iff.mp hr) (admits_iff.mp hs)

end Rangefinder.Range
