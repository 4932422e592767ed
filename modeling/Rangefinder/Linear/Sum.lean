import Rangefinder.Procedure.Basic

/-!
# Linear sums of values

A linear sum is an integer combination of values plus a constant, with all coefficients in int32.
Every operation checks for overflow and gives nothing when a coefficient would leave int32.
-/

namespace Rangefinder

/-- A value with its coefficient. -/
structure LinearTerm where
  term : ValueId
  scale : Int
deriving DecidableEq

/-- The sum of scaled values and a constant. -/
structure LinearSum where
  terms : List LinearTerm
  constant : Int
deriving DecidableEq

namespace LinearSum

/-- The sum that is a constant. -/
def ofConstant (c : Int) : LinearSum := ⟨[], c⟩

/-- The empty sum. -/
def zero : LinearSum := ofConstant 0

/-- Adds a multiple of a value to a list of terms; a term that cancels is dropped. -/
def mergeTerm (term : ValueId) (scale : Int) : List LinearTerm → Option (List LinearTerm)
  | [] => some [⟨term, scale⟩]
  | t :: rest =>
    if t.term = term then
      (checkInt32 (t.scale + scale)).map fun s => if s = 0 then rest else ⟨term, s⟩ :: rest
    else (mergeTerm term scale rest).map (t :: ·)

/-- Adds a multiple of a value that is not a constant. -/
def addScaled (sum : LinearSum) (term : ValueId) (scale : Int) : Option LinearSum :=
  if scale = 0 then some sum
  else (mergeTerm term scale sum.terms).map fun terms => { sum with terms := terms }

/-- Adds a constant. -/
def addConstant (sum : LinearSum) (c : Int) : Option LinearSum :=
  (checkInt32 (sum.constant + c)).map fun constant => { sum with constant := constant }

/-- Adds a multiple of a value of a procedure; integer constants go into the constant. -/
def addTerm (sum : LinearSum) (f : Procedure) (term : ValueId) (scale : Int) :
    Except Fault (Option LinearSum) :=
  if scale = 0 then .ok (some sum)
  else do
    match ← f.constInt? term with
    | some c => return (checkInt32 (c * scale)).bind sum.addConstant
    | none => return sum.addScaled term scale

/-- Adds a multiple of each of the given terms. -/
def addTerms (scale : Int) : List LinearTerm → LinearSum → Option LinearSum
  | [], sum => some sum
  | t :: rest, sum => do
    let s ← checkInt32 (scale * t.scale)
    addTerms scale rest (← sum.addScaled t.term s)

/-- Adds a multiple of another sum. -/
def addSum (sum : LinearSum) (scale : Int) (other : LinearSum) : Option LinearSum := do
  let sum ← addTerms scale other.terms sum
  sum.addConstant (← checkInt32 (scale * other.constant))

/-- Multiplies a sum by an integer. -/
def multiply (sum : LinearSum) (scale : Int) : Option LinearSum := do
  let terms ← sum.terms.mapM fun t =>
    (checkInt32 (t.scale * scale)).map fun s => { t with scale := s }
  let constant ← checkInt32 (sum.constant * scale)
  return ⟨if scale = 0 then [] else terms, constant⟩

/-- Text of a term without its sign. -/
def termText (t : LinearTerm) : String :=
  if t.scale.natAbs = 1 then s!"#{t.term}" else s!"{t.scale.natAbs}*#{t.term}"

/-- Text of the terms after the first. -/
def laterTermText (t : LinearTerm) : String :=
  (if t.scale < 0 then " - " else " + ") ++ termText t

/-- Text of a sum. -/
def toText (sum : LinearSum) : String :=
  match sum.terms with
  | [] => toString sum.constant
  | first :: rest =>
    let constant :=
      if 0 < sum.constant then s!" + {sum.constant}"
      else if sum.constant < 0 then s!" - {sum.constant.natAbs}"
      else ""
    (if first.scale < 0 then "-" else "") ++ termText first ++
      String.join (rest.map laterTermText) ++ constant

end LinearSum

end Rangefinder
