import Rangefinder.Text.Blank

/-!
# Settings and statistics of the analysis

The settings choose which parts of the work are done and how long the fixed point may take. They
have defaults and can be read from named variables. The statistics count what the work has done.
-/

namespace Rangefinder

/-- The settings of the analysis. -/
structure Config where
  /-- Insert range assertions. -/
  checkRanges : Bool
  /-- Move bounds checks out of loops. -/
  hoistChecks : Bool
  /-- Narrow arithmetic to int32. -/
  truncate : Bool
  /-- Verify the procedure after every stage. -/
  verifyEachStage : Bool
  /-- The number of passes after which loop phis are widened. -/
  widenAfter : Nat
  /-- The greatest number of passes. -/
  maxIterations : Nat
  /-- The greatest number of symbolic bounds. -/
  arenaCapacity : Nat
deriving DecidableEq

namespace Config

/-- The settings for production. -/
def standard : Config := ⟨false, true, true, false, 8, 64, 4096⟩

/-- The ASCII letter in lower case; other characters as they are. -/
def lowerLetter (c : Char) : Char :=
  if 'A' ≤ c ∧ c ≤ 'Z' then Char.ofNat (c.toNat + 32) else c

/-- A switch is on for the words `1`, `true`, `yes` and `on`, blanks around them and the case of
letters left aside, and off for every other text. -/
def readSwitch (text : String) : Bool :=
  ["1", "true", "yes", "on"].contains
    (String.ofList ((Text.stripBlanks text.toList).map lowerLetter))

/-- The number that a list of decimal digits denotes. -/
def readDigits (digits : List Char) : Option Nat :=
  if digits.isEmpty || !digits.all Char.isDigit then none
  else
    let n := digits.foldl (fun n c => n * 10 + (c.toNat - 48)) 0
    if n < 18446744073709551616 then some n else none

/-- A count is a decimal number below 2^64, with an optional plus sign and blanks around it. -/
def readCount (text : String) : Option Nat :=
  match Text.stripBlanks text.toList with
  | '+' :: digits => readDigits digits
  | digits => readDigits digits

/-- The settings that named variables ask for; a variable that is not set, or is no count where
a count is asked for, leaves the default. -/
def ofVariables (named : List (String × String)) : Config :=
  let switch (name : String) (absent : Bool) : Bool :=
    ((named.lookup name).map readSwitch).getD absent
  let count (name : String) (absent : Nat) : Nat :=
    ((named.lookup name).bind readCount).getD absent
  { checkRanges := switch "IONRANGE_CHECK_RANGES" standard.checkRanges
    hoistChecks := switch "IONRANGE_HOIST_BOUNDS_CHECKS" standard.hoistChecks
    truncate := switch "IONRANGE_TRUNCATE" standard.truncate
    verifyEachStage := switch "IONRANGE_VERIFY_EACH_STAGE" standard.verifyEachStage
    widenAfter := count "IONRANGE_WIDEN_AFTER" standard.widenAfter
    maxIterations := count "IONRANGE_MAX_ITERATIONS" standard.maxIterations
    arenaCapacity := count "IONRANGE_ARENA_CAPACITY" standard.arenaCapacity }

end Config

/-- What the analysis has done. -/
structure Stats where
  betasInserted : Nat
  betasRemoved : Nat
  fixpointPasses : Nat
  widenedPhis : Nat
  unreachableBlocks : Nat
  loopBounds : Nat
  refinedPhis : Nat
  hoistedChecks : Nat
  overflowChecksRemoved : Nat
  assertions : Nat
  narrowed : Nat
  truncated : Nat
  foldedBitops : Nat
deriving DecidableEq

namespace Stats

/-- Nothing has been done. -/
def none : Stats := ⟨0, 0, 0, 0, 0, 0, 0, 0, 0, 0, 0, 0, 0⟩

/-- The counts of two pieces of work together. -/
def add (s t : Stats) : Stats :=
  { betasInserted := s.betasInserted + t.betasInserted
    betasRemoved := s.betasRemoved + t.betasRemoved
    fixpointPasses := s.fixpointPasses + t.fixpointPasses
    widenedPhis := s.widenedPhis + t.widenedPhis
    unreachableBlocks := s.unreachableBlocks + t.unreachableBlocks
    loopBounds := s.loopBounds + t.loopBounds
    refinedPhis := s.refinedPhis + t.refinedPhis
    hoistedChecks := s.hoistedChecks + t.hoistedChecks
    overflowChecksRemoved := s.overflowChecksRemoved + t.overflowChecksRemoved
    assertions := s.assertions + t.assertions
    narrowed := s.narrowed + t.narrowed
    truncated := s.truncated + t.truncated
    foldedBitops := s.foldedBitops + t.foldedBitops }

end Stats

end Rangefinder
