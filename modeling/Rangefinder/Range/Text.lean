import Rangefinder.Range.Basic

/-!
# Text of a range

A range is written as its two endpoints, a question mark on an open side, followed by what the
endpoints do not say. A note, such as a symbolic bound, may follow each endpoint in braces.
-/

namespace Rangefinder.Range

/-- An endpoint with an optional note. -/
def endpointText (bound : Option Int) (note : Option String) : String :=
  let base := match bound with
    | some n => toString n
    | none => "?"
  match note with
  | some text => base ++ " \x7b" ++ text ++ "\x7d"
  | none => base

/-- What the exponent says beyond the endpoints. -/
def exponentText (r : Range) : String :=
  if r.exponent = nanExponent then " (U inf U NaN)"
  else if r.exponent = infinityExponent then " (U inf)"
  else if !r.isClosed || r.fractional then s!" (< pow(2, {r.exponent}+1))"
  else ""

/-- Text of a range with notes at its endpoints. -/
def annotated (r : Range) (lowerNote upperNote : Option String) : String :=
  "[" ++ endpointText r.lower lowerNote ++ ", " ++ endpointText r.upper upperNote ++ "]" ++
    (if r.fractional then " (fractional)" else "") ++ r.exponentText

/-- Text of a range. -/
def toText (r : Range) : String := r.annotated none none

end Rangefinder.Range
