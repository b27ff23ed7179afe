import ModelicaFold.Builtin.Math
import ModelicaFold.Decimal.Read
import ModelicaFold.Text.Blank
import ModelicaFold.Text.Quoted
import ModelicaFold.Value.Print

/-!
# Functions on characters, lists and options

The functions that are built in only where the meta-programming extension of the language is
enabled. Positions count from one.
-/

namespace ModelicaFold.Builtin

/-! ## Numbers -/

/-- A function of the only argument, read by `read`. -/
def onArg {α : Type} (read : String → List Value → Nat → Outcome α) (name : String)
    (f : α → Outcome Value) : Function := fun args => do
  takes name 1 args
  f (← read name args 0)

/-- A function of two arguments, both read by `read`. -/
def onArgs {α : Type} (read : String → List Value → Nat → Outcome α) (name : String)
    (f : α → α → Outcome Value) : Function := fun args => do
  takes name 2 args
  let a ← read name args 0
  let b ← read name args 1
  f a b

def intString : Function :=
  onArg integerArg "intString" fun n => .ok (.string (toString n))

def realString : Function :=
  onArg realArg "realString" fun x => .ok (.string (Decimal.literal x))

def intReal : Function :=
  onArg integerArg "intReal" fun n => .ok (.real (Float.ofInt n))

/-- The Integer that a Real truncates to. -/
def realInt : Function :=
  onArg realArg "realInt" fun x => wholeReal "realInt" (Decimal.truncate x)

def intAbs : Function :=
  onArg integerArg "intAbs" fun n => magnitude "intAbs" n

def intMax : Function :=
  onArgs integerArg "intMax" fun a b => .ok (.integer (max a b))

def intMin : Function :=
  onArgs integerArg "intMin" fun a b => .ok (.integer (min a b))

def boolString : Function :=
  onArg boolArg "boolString" fun b => .ok (.string (boolText b))

/-! ## Strings -/

/-- The length of a string in UTF-8 bytes. -/
def stringLength : Function :=
  onArg stringArg "stringLength" fun s => .ok (.integer s.utf8ByteSize)

def stringAppend : Function :=
  onArgs stringArg "stringAppend" fun a b => .ok (.string (a ++ b))

/-- A part of a string that is put together from a list. -/
def stringPart (v : Value) : Outcome String :=
  match v.unboxed with
  | .string s => .ok s
  | other => Value.refuse "stringAppendList" "String" other

def stringAppendList : Function :=
  onArg elementsArg "stringAppendList" fun parts => do
    return .string (String.join (← parts.toList.mapM stringPart))

def stringEq : Function :=
  onArgs stringArg "stringEq" fun a b => .ok (.bool (a == b))

/-- An order as -1, 0 or 1. -/
def orderNumber : Ordering → Int
  | .lt => -1
  | .eq => 0
  | .gt => 1

def stringCompare : Function :=
  onArgs stringArg "stringCompare" fun a b => .ok (.integer (orderNumber (compare a b)))

/-- The Integer that a string denotes, blanks around it apart. -/
def stringInt : Function :=
  onArg stringArg "stringInt" fun s =>
    let refusal := Cause.invalidArgument "stringInt" (Text.quoted s ++ " is not an Integer")
    match Decimal.integer? (Text.trim s.toList) with
    | some n => if minInteger ≤ n ∧ n ≤ maxInteger then .ok (.integer n) else refusal.fail
    | none => refusal.fail

/-- The Real that a string denotes, blanks around it apart. -/
def stringReal : Function :=
  onArg stringArg "stringReal" fun s =>
    match Decimal.real? (Text.trim s.toList) with
    | some x => .ok (.real x)
    | none => (Cause.invalidArgument "stringReal" (Text.quoted s ++ " is not a Real")).fail

/-- The code point of the only character of a string. -/
def stringCharInt : Function :=
  onArg stringArg "stringCharInt" fun s =>
    match s.toList with
    | [c] => .ok (.integer c.toNat)
    | _ =>
      (Cause.invalidArgument "stringCharInt"
        (Text.quoted s ++ " is not a single character")).fail

/-- The character with a code point. -/
def intStringChar : Function :=
  onArg integerArg "intStringChar" fun n =>
    if 0 ≤ n ∧ n.toNat.isValidChar then .ok (.string (Char.ofNat n.toNat).toString)
    else (Cause.invalidArgument "intStringChar" (toString n ++ " is not a character code")).fail

/-- The characters of a string. -/
def stringListStringChar : Function :=
  onArg stringArg "stringListStringChar" fun s =>
    .ok (.list (s.toList.map fun c => .string c.toString).toArray)

/-- The character of a string at a position. -/
def stringGetStringChar : Function := fun args => do
  takes "stringGetStringChar" 2 args
  let s ← stringArg "stringGetStringChar" args 0
  let i ← integerArg "stringGetStringChar" args 1
  match nth? s.toList i with
  | some c => return .string c.toString
  | none => (Cause.indexOutOfBounds i s.length).fail

/-! ## Lists -/

def listAppend : Function :=
  onArgs elementsArg "listAppend" fun a b => .ok (.list (a ++ b))

def listReverse : Function :=
  onArg elementsArg "listReverse" fun v => .ok (.list v.reverse)

/-- Whether a value equals an element of a list, boxes around either apart. -/
def listMember : Function := fun args => do
  takes "listMember" 2 args
  let v ← arg "listMember" args 0
  let elements ← elementsArg "listMember" args 1
  return .bool (elements.any fun element => element.unboxed == v)

/-- The number of elements. -/
def lengthOf (name : String) : Function :=
  onArg elementsArg name fun v => .ok (.integer v.size)

def listHead : Function :=
  onArg elementsArg "listHead" fun v =>
    match v[0]? with
    | none => (Cause.invalidArgument "listHead" "list is empty").fail
    | some head => .ok head

def listRest : Function :=
  onArg elementsArg "listRest" fun v =>
    if v.isEmpty then (Cause.invalidArgument "listRest" "list is empty").fail
    else .ok (.list (v.drop 1))

/-- The element at a position. -/
def elementAt (name : String) : Function := fun args => do
  takes name 2 args
  let elements ← elementsArg name args 0
  nth elements (← integerArg name args 1)

def listEmpty : Function :=
  onArg elementsArg "listEmpty" fun v => .ok (.bool v.isEmpty)

/-! ## Arrays and options -/

/-- The one-dimensional array of the elements of a list. -/
def listArray : Function :=
  onArg elementsArg "listArray" fun v => .ok (.vector v.toList)

/-- The list of the elements of an array. -/
def arrayList : Function :=
  onArg elementsArg "arrayList" fun v => .ok (.list v)

/-- Whether an option holds a value, or whether it does not. -/
def optionHolds (name : String) (wanted : Bool) : Function := fun args => do
  takes name 1 args
  match ← arg name args 0 with
  | .present _ => return .bool wanted
  | .absent => return .bool !wanted
  | other => Value.refuse name "Option" other

end ModelicaFold.Builtin
