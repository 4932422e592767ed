/-!
# Diagnostics

A diagnostic reports why a procedure was rejected or a run went wrong: its kind, the stage it
arose in, the value it concerns, the passes it went through and notes on what to do about it.
-/

namespace Rangefinder

/-- The kind of an error. -/
inductive ErrorCode where
  /-- The procedure is malformed. -/
  | malformed
  /-- A range assertion failed. -/
  | assertion
  /-- The arena of symbolic bounds is full. -/
  | arenaFull
  /-- The fixed point was not reached. -/
  | notConverged
  /-- An internal promise was broken. -/
  | internal
deriving DecidableEq

/-- The short name of a kind of error. -/
def ErrorCode.name : ErrorCode → String
  | malformed => "E1001"
  | assertion => "E3001"
  | arenaFull => "E4001"
  | notConverged => "E4002"
  | internal => "ICE9001"

/-- A stage of the work on a procedure. -/
inductive Stage where
  | verify
  | beta
  | analyze
  | assert
  | truncate
  | eval
deriving DecidableEq

/-- The name of a stage. -/
def Stage.name : Stage → String
  | verify => "Verify"
  | beta => "Beta"
  | analyze => "Analyze"
  | assert => "Assert"
  | truncate => "Truncate"
  | eval => "Eval"

/-- A report of an error. -/
structure Diagnostic where
  /-- The class of errors that the error belongs to. -/
  origin : String
  code : ErrorCode
  stage : Stage
  message : String
  /-- The value that the error concerns. -/
  value : Option Nat
  /-- The passes that the error went through, the innermost first. -/
  trace : List (String × Option Nat)
  notes : List String
deriving DecidableEq

namespace Diagnostic

/-- A report without further details. -/
def new (origin : String) (code : ErrorCode) (stage : Stage) (message : String) : Diagnostic :=
  ⟨origin, code, stage, message, none, [], []⟩

/-- The report with the value that it concerns. -/
def atValue (d : Diagnostic) (v : Nat) : Diagnostic := { d with value := some v }

/-- The report after it went through one more pass. -/
def through (d : Diagnostic) (pass : String) (v : Option Nat) : Diagnostic :=
  { d with trace := d.trace ++ [(pass, v)] }

/-- The report with one more note. -/
def note (d : Diagnostic) (text : String) : Diagnostic := { d with notes := d.notes ++ [text] }

/-- The report on one line. -/
def summary (d : Diagnostic) : String :=
  "error[" ++ d.code.name ++ "]: " ++ d.message ++ " (" ++ d.stage.name ++ ")"

/-- Terminal styles of the parts of a report. -/
structure Palette where
  header : String
  code : String
  location : String
  hint : String

/-- The word occurs in the text. -/
def mentions (word text : List Char) : Bool :=
  match text with
  | [] => word.isEmpty
  | _ :: rest => word.isPrefixOf text || mentions word rest

/-- The styles for a class of errors. -/
def palette (origin : String) : Palette :=
  let names (word : String) : Bool := mentions word.toList origin.toList
  if names "VerifyError" then ⟨"1;93", "1;33", "1;96", "1;92"⟩
  else if names "AssertionError" then ⟨"1;91", "1;31", "1;96", "1;92"⟩
  else if names "InternalError" || names "ICE" then ⟨"1;97;41", "1;97;41", "1;96", "1;92"⟩
  else ⟨"1;96", "1;36", "1;96", "1;92"⟩

/-- The style of the line that shows the kind of error; kinds without one of their own take that
of the palette. -/
def codeStyle (code : ErrorCode) (fallback : String) : String :=
  match code with
  | .internal => "1;97;41"
  | .malformed => "1;33"
  | .assertion => "1;31"
  | .arenaFull | .notConverged => fallback

/-- A text in a terminal style, or the plain text. -/
def styled (color : Bool) (style text : String) : String :=
  if color then "\x1b[" ++ style ++ "m" ++ text ++ "\x1b[0m" else text

/-- The line of one pass of the trace. -/
def traceLine (pass : String × Option Nat) : String :=
  match pass.2 with
  | some v => "      (pass) " ++ pass.1 ++ s!" at v{v}"
  | none => "      (pass) " ++ pass.1

/-- The report on several lines, the trace from the outermost pass inwards. -/
def render (d : Diagnostic) (procedure : Option String) (color : Bool) : String :=
  let name := procedure.getD "<fn>"
  let colors := palette d.origin
  let location := match d.value with
    | some v => name ++ s!" v{v}"
    | none => name
  let trace :=
    if d.trace.isEmpty then []
    else
      styled color "1;95" "    stacktrace:" ::
        d.trace.reverse.map fun pass => styled color "2" (traceLine pass)
  let lines :=
    [styled color colors.header ("** (" ++ d.origin ++ ") " ++ d.message),
     styled color (codeStyle d.code colors.code)
       ("    error[" ++ d.code.name ++ "]: " ++ d.message),
     styled color colors.location ("    at " ++ location ++ " (" ++ d.stage.name ++ ")")] ++
    trace ++ d.notes.map fun text => styled color colors.hint ("hint: " ++ text)
  String.join (lines.map fun line => line ++ "\n")

end Diagnostic

end Rangefinder
