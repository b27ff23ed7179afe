import ModelicaFold.Syntax.Span

/-!
# Diagnostics

A diagnostic is what a reported failure becomes: a code, a severity, a message, labelled spans,
notes and suggestions. Its text has one line per part.
-/

namespace ModelicaFold

/-- A diagnostic code. The first digit of the number is the phase: 6 for evaluation, 9 for errors
of the evaluator itself. -/
structure ErrorCode where
  number : Nat
deriving DecidableEq

namespace ErrorCode

def text (c : ErrorCode) : String := "E" ++ toString c.number

/-- Whether the code belongs to the evaluation phase. -/
def isEvaluation (c : ErrorCode) : Bool := c.number / 1000 == 6

/-- Whether the code marks an error of the evaluator itself. -/
def isInternal (c : ErrorCode) : Bool := c.number / 1000 == 9

end ErrorCode

inductive Severity where
  | error
  | warning
  | note
deriving DecidableEq

def Severity.text : Severity → String
  | .error => "error"
  | .warning => "warning"
  | .note => "note"

/-- A span with a message; the primary label is at the place of the failure. -/
structure Label where
  span : Span
  message : String
  primary : Bool
deriving DecidableEq

def Label.text (l : Label) : String :=
  (if l.primary then "--> " else "    ") ++ l.span.text ++ ": " ++ l.message

structure Diagnostic where
  code : ErrorCode
  severity : Severity
  message : String
  labels : List Label
  notes : List String
  suggestions : List String
deriving DecidableEq

namespace Diagnostic

/-- An error with a message and nothing else. -/
def error (code : ErrorCode) (message : String) : Diagnostic :=
  ⟨code, .error, message, [], [], []⟩

def isError (d : Diagnostic) : Bool := d.severity == .error

/-- The span of the first primary label. -/
def primarySpan? (d : Diagnostic) : Option Span :=
  (d.labels.find? (·.primary)).map (·.span)

/-- The headline, then a line for each label, note and suggestion. -/
def text (d : Diagnostic) : String :=
  let headline := d.severity.text ++ " [" ++ d.code.text ++ "]: " ++ d.message
  "\n".intercalate
    (headline :: d.labels.map ("  " ++ ·.text) ++ d.notes.map ("  = note: " ++ ·)
      ++ d.suggestions.map ("  = help: " ++ ·))

/-- Two diagnostics say the same when code, primary span and message agree. -/
def repeats (d e : Diagnostic) : Bool :=
  d.code == e.code && d.primarySpan? == e.primarySpan? && d.message == e.message

/-- Where a diagnostic stands when sorted by position; without a primary label, at the start. -/
def position (d : Diagnostic) : Nat :=
  (d.primarySpan?.map (·.start)).getD 0

end Diagnostic

end ModelicaFold
