/-!
# Faults

A fault is the detection of a broken internal promise: a range that breaks its representation
rules, an identifier that names nothing, an intermediate result that leaves its word. Operations
that rely on such a promise check it and return the fault as their result, so that every
definition is total and a proof can say exactly when no fault arises.
-/

namespace Rangefinder

/-- A broken internal promise. -/
inductive Fault where
  /-- A range breaks the rules of its representation. -/
  | invalidRange
  /-- A refinement would move an endpoint past the opposite one. -/
  | crossedRefinement
  /-- A range that must be open above has an upper bound. -/
  | boundedAbove
  /-- The exponent of a range was asked for that may hold an infinity or NaN. -/
  | infiniteExponent
  /-- A value identifier names no value. -/
  | missingValue (value : Nat)
  /-- A block identifier names no block. -/
  | missingBlock (block : Nat)
  /-- An instruction position lies past the end of its block. -/
  | missingPosition (position : Nat)
  /-- A bound identifier names no entry of the arena. -/
  | missingBound (bound : Nat)
  /-- A place holds no array. -/
  | missingArray (place : Nat)
  /-- An array has no element at a position. -/
  | missingElement (position : Nat)
  /-- An intermediate result leaves the signed 64-bit integers. -/
  | wideOverflow
  /-- An intermediate result leaves the shorter word that holds it. -/
  | overflow
  /-- A word is shifted by its width or more. -/
  | wideShift
  /-- An iteration that must come to rest did not. -/
  | unsettled
deriving DecidableEq

end Rangefinder
