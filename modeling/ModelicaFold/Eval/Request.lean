import ModelicaFold.Config
import ModelicaFold.Diagnostic.Queue
import ModelicaFold.Scope.Context
import ModelicaFold.Scope.Env

/-!
# Requests and the evaluation log

A request says where an expression is evaluated, what may be read and whether failures are
reported. The log is what an evaluation leaves behind whether it succeeds or not: counters, printed
text and reported diagnostics, and whether it has crashed.
-/

namespace ModelicaFold

/-- What may be read. -/
inductive Mode where
  /-- Variables of every variability; an unbound one is silently not constant. -/
  | implicit
  /-- Constants and parameters only; an unbound one is an error. -/
  | explicit
deriving DecidableEq

namespace Mode

def readsVariables (m : Mode) : Bool := m == .implicit

def reportsUnbound (m : Mode) : Bool := m == .explicit

end Mode

/-- Whether failures become diagnostics, and where. -/
inductive Reporting where
  | silent
  | located (span : Span)
deriving DecidableEq

namespace Reporting

def span? : Reporting → Option Span
  | .silent => none
  | .located span => some span

/-- Whether a failure for a cause becomes a diagnostic. -/
def wants (r : Reporting) (c : Cause) : Bool :=
  (r.span?.isSome && c.isReportable) || c.alwaysReported

end Reporting

/-- Where and how an expression is evaluated. -/
structure Request where
  env : Env
  mode : Mode
  reporting : Reporting

/-- The same request in another environment. -/
def Request.within (req : Request) (env : Env) : Request := { req with env := env }

/-- How many steps of each kind have been taken. -/
structure Counters where
  expressions : Nat
  references : Nat
  builtinCalls : Nat
  functionCalls : Nat
  /-- Steps that the recursion limit refused. -/
  refused : Nat
deriving DecidableEq

namespace Counters

def zero : Counters := ⟨0, 0, 0, 0, 0⟩

/-- A summary with one line per counter. -/
def report (c : Counters) : String :=
  "\n".intercalate
    ["Evaluation profile:",
      "  Expressions evaluated: " ++ toString c.expressions,
      "  Component references:  " ++ toString c.references,
      "  Builtin calls:         " ++ toString c.builtinCalls,
      "  Function calls:        " ++ toString c.functionCalls]

end Counters

/-- What evaluations leave behind. -/
structure Log where
  counters : Counters
  printed : String
  diagnostics : DiagnosticQueue
  /-- Whether a size has been read where there is none. The program ends there: what is evaluated
  afterwards stands for nothing. -/
  crashed : Bool

namespace Log

/-- Nothing done yet; diagnostics will be collected under a policy. -/
def start (policy : QueuePolicy) : Log := ⟨.zero, "", .empty policy, false⟩

def print (l : Log) (text : String) : Log := { l with printed := l.printed ++ text }

/-- Hands a failure over as a diagnostic, once and only if it is wanted. -/
def report (l : Log) (r : Reporting) (f : Failure) : Failure × Log :=
  if f.reported || !r.wants f.cause then (f, l)
  else
    let placed := { f with span := r.span?.or f.span }
    ({ placed with reported := true },
      { l with diagnostics := (l.diagnostics.add placed.diagnostic).2 })

end Log

end ModelicaFold
