import ModelicaFold.Decimal.Written
import ModelicaFold.Diagnostic.Basic

/-!
# Failures of evaluation

A cause says why an expression has no value. That an expression is not constant is no error of the
model: it only means that the expression stays symbolic, and it lets the next way to evaluate an
expression be tried. Causes are ranked, so that of several failures the most telling one is kept.
-/

namespace ModelicaFold

/-- Why an evaluation failed. -/
inductive Cause where
  /-- The expression depends on what is not known yet, or no rule applies to it. -/
  | notConstant
  | unbound (name : String)
  | dimensionNotKnown (expr : String)
  | divisionByZero (numerator denominator : String)
  | moduloByZero (numerator denominator : String)
  | recursionLimit (limit : Nat)
  | negativeSqrt (value : String)
  | guardNotBoolean (guard : String)
  /-- A cast or an array shape that does not fit. -/
  | invalidShape (message : String)
  | integerOverflow (operation : String)
  | indexOutOfBounds (index : Int) (size : Nat)
  | iterationLimit (limit : Nat)
  | invalidArgument (function message : String)
  /-- Something that type checking should have ruled out. -/
  | internal (message : String)
deriving DecidableEq

namespace Cause

/-- The message of a cause. -/
def text : Cause → String
  | .notConstant => "expression is not constant"
  | .unbound name => "variable `" ++ name ++ "` has no value and no default"
  | .dimensionNotKnown expr => "dimension of `" ++ expr ++ "` is not known"
  | .divisionByZero numerator denominator =>
    "division by zero in `" ++ numerator ++ " / " ++ denominator ++ "`"
  | .moduloByZero numerator denominator =>
    "modulo by zero in `mod(" ++ numerator ++ ", " ++ denominator ++ ")`"
  | .recursionLimit limit => "evaluation recursion limit of " ++ toString limit ++ " exceeded"
  | .negativeSqrt value => "square root of negative number " ++ value
  | .guardNotBoolean guard => "reduction guard `" ++ guard ++ "` did not evaluate to a Boolean"
  | .invalidShape message => message
  | .integerOverflow operation => "integer overflow in " ++ operation
  | .indexOutOfBounds index size =>
    "index " ++ toString index ++ " out of bounds for dimension of size " ++ toString size
  | .iterationLimit limit => "reduction exceeds " ++ toString limit ++ " iterations"
  | .invalidArgument function message => "invalid argument to `" ++ function ++ "`: " ++ message
  | .internal message => "internal evaluator error: " ++ message

/-- A fatal cause ends the whole evaluation; no other way is tried. -/
def isFatal : Cause → Bool
  | .recursionLimit _ => true
  | _ => false

/-- Whether a reporting request turns the failure into a diagnostic. -/
def isReportable : Cause → Bool
  | .notConstant => false
  | .indexOutOfBounds _ _ => false
  | _ => true

/-- Whether the failure becomes a diagnostic even in a silent request. -/
def alwaysReported : Cause → Bool
  | .internal _ => true
  | _ => false

/-- How telling a cause is; of several failures the most telling one is kept. -/
def precedence : Cause → Nat
  | .notConstant => 0
  | .indexOutOfBounds _ _ => 1
  | .unbound _ => 2
  | .dimensionNotKnown _ => 2
  | .divisionByZero _ _ => 3
  | .moduloByZero _ _ => 3
  | .negativeSqrt _ => 3
  | .guardNotBoolean _ => 3
  | .invalidShape _ => 3
  | .integerOverflow _ => 3
  | .iterationLimit _ => 3
  | .invalidArgument _ _ => 3
  | .internal _ => 4
  | .recursionLimit _ => 5

/-- The diagnostic code of a cause. -/
def code : Cause → ErrorCode
  | .unbound _ => ⟨6001⟩
  | .dimensionNotKnown _ => ⟨6002⟩
  | .divisionByZero _ _ => ⟨6003⟩
  | .moduloByZero _ _ => ⟨6004⟩
  | .recursionLimit _ => ⟨6005⟩
  | .negativeSqrt _ => ⟨6006⟩
  | .guardNotBoolean _ => ⟨6007⟩
  | .invalidShape _ => ⟨6008⟩
  | .integerOverflow _ => ⟨6009⟩
  | .iterationLimit _ => ⟨6010⟩
  | .invalidArgument _ _ => ⟨6011⟩
  | .indexOutOfBounds _ _ => ⟨6012⟩
  | .notConstant => ⟨6013⟩
  | .internal _ => ⟨9001⟩

/-- The words at the primary label. -/
def label : Cause → String
  | .notConstant => "not a constant expression"
  | .unbound _ => "no value for this variable"
  | .dimensionNotKnown _ => "dimension not known"
  | .divisionByZero _ _ => "division by zero here"
  | .moduloByZero _ _ => "modulo by zero here"
  | .recursionLimit _ => "recursion limit exceeded here"
  | .negativeSqrt _ => "negative argument"
  | .guardNotBoolean _ => "guard is not a Boolean"
  | .invalidShape _ => "invalid cast or shape"
  | .integerOverflow _ => "overflow occurred here"
  | .indexOutOfBounds _ _ => "index out of bounds"
  | .iterationLimit _ => "too many iterations"
  | .invalidArgument _ _ => "invalid argument"
  | .internal _ => "internal error"

/-- What to do about a cause, where there is something to say. -/
def suggestion? : Cause → Option String
  | .unbound name => some ("give `" ++ name ++ "` a binding or a default value")
  | .recursionLimit _ =>
    some "check for a binding that depends on itself, or raise MOC_EVAL_RECURSION_LIMIT"
  | .divisionByZero _ _ => some "guard the divisor against zero"
  | .moduloByZero _ _ => some "guard the divisor against zero"
  | _ => none

end Cause

/-- A failed evaluation: its cause, the place it was reported at, notes, and whether it has been
reported already. -/
structure Failure where
  cause : Cause
  span : Option Span
  notes : List String
  reported : Bool
deriving DecidableEq

namespace Failure

/-- A failure that nobody has been told of. -/
def of (cause : Cause) : Failure := ⟨cause, none, [], false⟩

/-- The message of a failure. -/
def text (f : Failure) : String := f.cause.text

/-- The diagnostic of a failure: labelled if a place is known, with its notes and a suggestion. -/
def diagnostic (f : Failure) : Diagnostic :=
  { code := f.cause.code
    severity := .error
    message := f.text
    labels := f.span.toList.map fun span => ⟨span, f.cause.label, true⟩
    notes := f.notes
    suggestions := f.cause.suggestion?.toList }

end Failure

/-- The result of a step that needs nothing but its operands. -/
abbrev Outcome (α : Type) := Except Failure α

/-- The outcome of failing for a cause. -/
def Cause.fail {α : Type} (cause : Cause) : Outcome α := .error (Failure.of cause)

/-- The cause of taking the square root of a negative real. -/
def Cause.negativeRoot (x : Float) : Cause := .negativeSqrt (Decimal.literal x)

end ModelicaFold
