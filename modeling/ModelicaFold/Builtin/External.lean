import ModelicaFold.Builtin.Math
import ModelicaFold.Decimal.Read
import ModelicaFold.Scope.Env
import ModelicaFold.Text.Blank
import ModelicaFold.Text.Casing

/-!
# External functions with a known meaning

A function declared `external` has no body. If its external name is one of the mathematical or
string functions of this module, its calls are evaluated all the same. Strings are sequences of
characters, and positions in them count from one.
-/

namespace ModelicaFold.Builtin.External

/-! ## Positions -/

/-- A number of characters as a value. -/
def ofCount (n : Nat) : Value := .integer n

/-- The offset, counted from zero, of a position that may be just after the end. -/
def offset (i : Int) (length : Nat) : Outcome Nat :=
  if 1 ≤ i ∧ (i - 1).toNat ≤ length then .ok (i - 1).toNat
  else (Cause.indexOutOfBounds i length).fail

/-- The characters from a position to another, both included; none if the second is before the
first. -/
def substring : Function := fun args => do
  takes "ModelicaStrings_substring" 3 args
  let s ← stringArg "ModelicaStrings_substring" args 0
  let start ← integerArg "ModelicaStrings_substring" args 1
  let stop ← integerArg "ModelicaStrings_substring" args 2
  if stop < start then return .string ""
  else
    let cs := s.toList
    let i ← offset start cs.length
    if 0 ≤ stop ∧ stop.toNat ≤ cs.length then
      return .string (String.ofList ((cs.take stop.toNat).drop i))
    else (Cause.indexOutOfBounds stop cs.length).fail

def length : Function := fun args => do
  takes "ModelicaStrings_length" 1 args
  return ofCount (← stringArg "ModelicaStrings_length" args 0).length

/-! ## Comparison and hashing -/

/-- The enumeration whose literals name the orders. -/
def orderPath : Path := ⟨"Modelica", ["Utilities", "Types", "Compare"]⟩

/-- An order as a literal of that enumeration. -/
def orderLiteral : Ordering → Value
  | .lt => .enumeration (orderPath.join "Less") 1
  | .eq => .enumeration (orderPath.join "Equal") 2
  | .gt => .enumeration (orderPath.join "Greater") 3

/-- Compares two strings; the case of letters counts unless the third argument says otherwise. -/
def compareStrings : Function := fun args => do
  takesBetween "ModelicaStrings_compare" 2 3 args
  let a ← stringArg "ModelicaStrings_compare" args 0
  let b ← stringArg "ModelicaStrings_compare" args 1
  let exact ← optionalArg boolArg true "ModelicaStrings_compare" args 2
  return orderLiteral (if exact then compare a b else compare (Text.lower a) (Text.lower b))

/-- One byte mixed into a hash. -/
def mix (h : UInt32) (b : UInt8) : UInt32 :=
  let h := h + b.toUInt32
  let h := h + (h <<< 10)
  h ^^^ (h >>> 6)

/-- The one-at-a-time hash of some bytes. -/
def hash (bytes : List UInt8) : UInt32 :=
  let h := bytes.foldl mix 0
  let h := h + (h <<< 3)
  let h := h ^^^ (h >>> 11)
  h + (h <<< 15)

/-- The hash of the UTF-8 bytes of a string, as a signed number of 32 bits. -/
def hashString : Function := fun args => do
  takes "ModelicaStrings_hashString" 1 args
  let s ← stringArg "ModelicaStrings_hashString" args 0
  return .integer (hash s.toUTF8.toList).toInt32.toInt

/-! ## Scanning -/

/-- The position of the first character that is no blank, from a position on. -/
def skipWhiteSpace : Function := fun args => do
  takesBetween "ModelicaStrings_skipWhiteSpace" 1 2 args
  let cs := (← stringArg "ModelicaStrings_skipWhiteSpace" args 0).toList
  let i ← offset (← optionalArg integerArg 1 "ModelicaStrings_skipWhiteSpace" args 1) cs.length
  return ofCount (i + ((cs.drop i).takeWhile Text.isBlank).length + 1)

/-- What is scanned: the characters from the start on, the offset of the start, and whether a sign
is refused. -/
structure Scan where
  rest : List Char
  start : Nat
  unsigned : Bool

/-- The arguments of a scanner: the string, the position to start at and whether a sign is
refused. -/
def scanArgs (name : String) (args : List Value) : Outcome Scan := do
  takesBetween name 1 3 args
  let cs := (← stringArg name args 0).toList
  let position ← optionalArg integerArg 1 name args 1
  let unsigned ← optionalArg boolArg false name args 2
  let start ← offset position cs.length
  return ⟨cs.drop start, start, unsigned⟩

/-- The number of blanks at the start. -/
def Scan.blanks (s : Scan) : Nat := (s.rest.takeWhile Text.isBlank).length

/-- What is left after the blanks. -/
def Scan.body (s : Scan) : List Char := s.rest.dropWhile Text.isBlank

/-- The number of digits that a text starts with. -/
def digitRun (cs : List Char) : Nat := (cs.takeWhile Decimal.isDigit).length

/-- The length of a sign at the start of a text: one or zero. -/
def signRun : List Char → Nat
  | '+' :: _ => 1
  | '-' :: _ => 1
  | _ => 0

/-- The length of a sign, where one is allowed. -/
def Scan.sign (s : Scan) : Nat := if s.unsigned then 0 else signRun s.body

/-- A number that was found, with the position after it. -/
def Scan.found (s : Scan) (length : Nat) (v : Value) : Value :=
  .tuple [ofCount (s.start + s.blanks + length + 1), v]

/-- No number: the position of the start, and zero. -/
def Scan.missed (s : Scan) (zero : Value) : Value :=
  .tuple [ofCount (s.start + 1), zero]

/-- The Integer at the start of what is scanned, blanks before it apart. -/
def Scan.integer (s : Scan) : Value :=
  let n := digitRun (s.body.drop s.sign)
  match Decimal.integer? (s.body.take (s.sign + n)) with
  | some value =>
    if 0 < n ∧ minInteger ≤ value ∧ value ≤ maxInteger then s.found (s.sign + n) (.integer value)
    else s.missed (.integer 0)
  | none => s.missed (.integer 0)

/-- The length of an exponent at the start of a text; zero if it has no digits. -/
def exponentRun : List Char → Nat
  | [] => 0
  | c :: cs =>
    let sign := signRun cs
    let n := digitRun (cs.drop sign)
    if (c = 'e' || c = 'E') && 0 < n then 1 + sign + n else 0

/-- The lengths of the digits before a point and of those after it, and of all that together. -/
def decimalRun (cs : List Char) : Nat × Nat × Nat :=
  let whole := digitRun cs
  match cs.drop whole with
  | '.' :: more => (whole, digitRun more, whole + 1 + digitRun more)
  | _ => (whole, 0, whole)

/-- The Real at the start of what is scanned, blanks before it apart. -/
def Scan.real (s : Scan) : Value :=
  let unsigned := s.body.drop s.sign
  let (whole, fraction, length) := decimalRun unsigned
  if whole + fraction = 0 then s.missed (.real 0.0)
  else
    let length := s.sign + length + exponentRun (unsigned.drop length)
    match Decimal.real? (s.body.take length) with
    | some value => s.found length (.real value)
    | none => s.missed (.real 0.0)

/-- Scans an Integer. -/
def scanInteger : Function := fun args => do
  return (← scanArgs "ModelicaStrings_scanInteger" args).integer

/-- Scans a Real. -/
def scanReal : Function := fun args => do
  return (← scanArgs "ModelicaStrings_scanReal" args).real

/-! ## The table -/

/-- The external names with a known meaning. -/
def table : List (String × Function) := [
  ("acos", mapReal "acos" (onUnit "acos" Float.acos)),
  ("asin", mapReal "asin" (onUnit "asin" Float.asin)),
  ("atan", mapReal "atan" (total Float.atan)),
  ("atan2", arcTangent2),
  ("cos", mapReal "cos" (total Float.cos)),
  ("cosh", mapReal "cosh" (total Float.cosh)),
  ("exp", mapReal "exp" (total Float.exp)),
  ("log", mapReal "log" (onPositive "log" Float.log)),
  ("log10", mapReal "log10" (onPositive "log10" Float.log10)),
  ("sin", mapReal "sin" (total Float.sin)),
  ("sinh", mapReal "sinh" (total Float.sinh)),
  ("tan", mapReal "tan" (total Float.tan)),
  ("tanh", mapReal "tanh" (total Float.tanh)),
  ("fabs", mapReal "fabs" (total Float.abs)),
  ("floor", mapReal "floor" (total Float.floor)),
  ("ceil", mapReal "ceil" (total Float.ceil)),
  ("sqrt", mapReal "sqrt" squareRoot),
  ("ModelicaStrings_substring", substring),
  ("ModelicaStrings_length", length),
  ("ModelicaStrings_compare", compareStrings),
  ("ModelicaStrings_skipWhiteSpace", skipWhiteSpace),
  ("ModelicaStrings_scanInteger", scanInteger),
  ("ModelicaStrings_scanReal", scanReal),
  ("ModelicaStrings_hashString", hashString)]

/-- Whether an external name has a known meaning. -/
def isKnown (name : String) : Bool := (table.lookup name).isSome

/-- The meaning of the function at a path, if it is external with a known name. -/
def function? (env : Env) (path : Path) : Option Function :=
  match env.lookupClass path with
  | some (.function f) => f.external?.bind fun external => table.lookup external.name
  | _ => none

end ModelicaFold.Builtin.External
