import ModelicaFold.Builtin.Argument

/-!
# Conversion to strings

`String(x, …)` writes a scalar and pads it with blanks. A Real takes the number of significant
digits before the arguments on padding.
-/

namespace ModelicaFold.Builtin

/-- The significant digits of a Real when none are asked for. -/
def defaultSignificantDigits : Nat := 6

/-- A text padded with blanks up to a length, on its right or on its left. -/
def pad (text : String) (length : Nat) (left : Bool) : String :=
  let fill := String.ofList (List.replicate (length - text.length) ' ')
  if left then text ++ fill else fill ++ text

/-- The significant digits asked for; a format text is left to run time. -/
def significantDigits (args : List Value) : Outcome Nat :=
  match args[1]?.map Value.unboxed with
  | none => .ok defaultSignificantDigits
  | some (.integer d) =>
    if d < 0 then
      (Cause.invalidArgument "String" ("significantDigits " ++ toString d ++ " is negative")).fail
    else .ok d.toNat
  | some (.string _) => Cause.notConstant.fail
  | some other => Value.refuse "String" "Integer" other

/-- The text of a scalar, and the offset of the arguments on padding. -/
def scalarText (v : Value) (args : List Value) : Outcome (String × Nat) :=
  match v with
  | .real x => do return (Decimal.significant x (← significantDigits args), 2)
  | .integer n => .ok (toString n, 1)
  | .bool b => .ok (boolText b, 1)
  | .string s => .ok (s, 1)
  | .enumeration path _ => .ok (path.last, 1)
  | other => Value.refuse "String" "scalar" other

/-- `String(x, …)`. -/
def toText : Function := fun args => do
  takesBetween "String" 1 4 args
  let (text, i) ← scalarText (← arg "String" args 0) args
  let length ← optionalArg integerArg 0 "String" args i
  let left ← optionalArg boolArg true "String" args (i + 1)
  return .string (pad text length.toNat left)

/-- The position of an enumeration literal. -/
def literalIndex : Function := fun args => do
  takes "Integer" 1 args
  match ← arg "Integer" args 0 with
  | .enumeration _ i => return .integer i
  | .integer n => return .integer n
  | other => Value.refuse "Integer" "enumeration literal" other

/-- The value that marks a failed computation. -/
def failed : Function := fun args => do
  takes "fail" 0 args
  return .fail

end ModelicaFold.Builtin
