import Rangefinder.Linear.Sum
import Rangefinder.Range.Text

/-!
# Symbolic bounds

The arena owns the bounds that one analysis has found: bounds on how often a loop repeats, and
linear sums that bound values. Ranges refer to its entries by position. Its capacity limits the
number of entries of both kinds together.
-/

namespace Rangefinder

/-- A bound on the number of times that a loop jumps back; it counts from the entry of the loop,
and code that the test dominates runs at most that often. -/
structure LoopBound where
  header : BlockId
  test : BlockId
  sum : LinearSum
deriving DecidableEq

/-- A sum that bounds a value. When it is tied to a loop bound, it holds only in the blocks that
the test of the loop bound dominates. -/
structure SymbolicBound where
  loopBound : Option Nat
  sum : LinearSum
deriving DecidableEq

/-- The bounds found by one analysis. -/
structure Arena where
  loopBounds : Array LoopBound
  symbolicBounds : Array SymbolicBound
  capacity : Nat
deriving DecidableEq

namespace Arena

/-- An arena without entries. -/
def empty (capacity : Nat) : Arena := ⟨#[], #[], capacity⟩

/-- The number of entries. -/
def size (a : Arena) : Nat := a.loopBounds.size + a.symbolicBounds.size

/-- Adds a loop bound, unless the arena is full. -/
def addLoopBound? (a : Arena) (b : LoopBound) : Option (Arena × Nat) :=
  if a.size < a.capacity then
    some ({ a with loopBounds := a.loopBounds.push b }, a.loopBounds.size)
  else none

/-- Adds a symbolic bound, unless the arena is full. -/
def addSymbolic? (a : Arena) (b : SymbolicBound) : Option (Arena × Nat) :=
  if a.size < a.capacity then
    some ({ a with symbolicBounds := a.symbolicBounds.push b }, a.symbolicBounds.size)
  else none

/-- The loop bound at a position. -/
def loopBound (a : Arena) (id : Nat) : Except Fault LoopBound :=
  match a.loopBounds[id]? with
  | some b => .ok b
  | none => .error (.missingBound id)

/-- The symbolic bound at a position. -/
def symbolic (a : Arena) (id : Nat) : Except Fault SymbolicBound :=
  match a.symbolicBounds[id]? with
  | some b => .ok b
  | none => .error (.missingBound id)

/-- Text of a symbolic bound, with the loop that it is tied to. -/
def symbolicText (a : Arena) (id : Nat) : Except Fault String := do
  let b ← a.symbolic id
  match b.loopBound with
  | none => return b.sum.toText
  | some id =>
    let header := (← a.loopBound id).header
    return b.sum.toText ++ s!" [loop {header}]"

/-- Text of a range with its symbolic bounds. -/
def rangeText (a : Arena) (r : Range) : Except Fault String := do
  let lower ← r.symbolicLower.mapM a.symbolicText
  let upper ← r.symbolicUpper.mapM a.symbolicText
  return r.annotated lower upper

end Arena

end Rangefinder
