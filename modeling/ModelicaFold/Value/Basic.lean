import ModelicaFold.Failure
import ModelicaFold.Syntax.Equality

/-!
# Values

What a constant expression evaluates to. An array is nested one level per dimension and also
carries its sizes, the outermost first, since an empty array has a shape that its elements do not
show. The elements of arrays and lists are kept in tables, from which any of them is read at once.
-/

namespace ModelicaFold

/-- The value of a constant expression. -/
inductive Value where
  | integer (n : Int)
  | real (x : Float)
  | bool (b : Bool)
  | string (s : String)
  /-- An enumeration literal with its position, counted from one. -/
  | enumeration (path : Path) (index : Int)
  | array (elements : Array Value) (dims : List Nat)
  | list (elements : Array Value)
  | tuple (elements : List Value)
  /-- A record with its field values and names; the position in its union type, or -1. -/
  | record (path : Path) (fields : List Value) (names : List String) (index : Int)
  /-- The option that holds a value. -/
  | present (content : Value)
  /-- The empty option. -/
  | absent
  | boxed (content : Value)
  /-- The result of `fail()`. -/
  | fail
  /-- The result of a call that returns nothing. -/
  | noReturn
  | code (fragment : Fragment)
  /-- The place of a variable that has a type but no value yet, with the scope it was found in. -/
  | empty (scope name : String) (ty : Ty)

namespace Value

/-! ## Parts of values -/

/-- The sizes of an array; anything else has none. -/
def dims : Value → List Nat
  | .array _ dims => dims
  | _ => []

/-- The number of dimensions. -/
def rank (v : Value) : Nat := v.dims.length

def isArray : Value → Bool
  | .array _ _ => true
  | _ => false

/-- The elements of an array or list. -/
def elements? : Value → Option (Array Value)
  | .array elements _ => some elements
  | .list elements => some elements
  | _ => none

/-- The elements of an array or list; anything else has none. -/
def elementList (v : Value) : List Value :=
  match v.elements? with
  | some elements => elements.toList
  | none => []

def integer? : Value → Option Int
  | .integer n => some n
  | _ => none

def real? : Value → Option Float
  | .real x => some x
  | _ => none

/-- The number that an Integer or a Real denotes. -/
def number? : Value → Option Float
  | .integer n => some (Float.ofInt n)
  | .real x => some x
  | _ => none

def bool? : Value → Option Bool
  | .bool b => some b
  | _ => none

def string? : Value → Option String
  | .string s => some s
  | _ => none

/-- Whether a value is an exact zero, of either sign. -/
def isZero : Value → Bool
  | .integer n => n == 0
  | .real x => x == 0.0
  | _ => false

/-- The value inside any number of boxes. -/
def unboxed : Value → Value
  | .boxed content => content.unboxed
  | other => other

/-- The name of a value's kind in messages. -/
def kind : Value → String
  | .integer _ => "Integer"
  | .real _ => "Real"
  | .bool _ => "Boolean"
  | .string _ => "String"
  | .enumeration _ _ => "enumeration"
  | .array _ _ => "array"
  | .list _ => "list"
  | .tuple _ => "tuple"
  | .record _ _ _ _ => "record"
  | .present _ => "Option"
  | .absent => "Option"
  | .boxed _ => "boxed"
  | .fail => "fail"
  | .noReturn => "no return"
  | .code _ => "Code"
  | .empty _ _ _ => "empty"

/-- The value of the field called `name`. -/
def field? (name : String) : Value → Option Value
  | .record _ fields names _ =>
    (names.findIdx? (· == name)).bind fun i => fields[i]?
  | _ => none

/-! ## Arrays -/

/-- An array with the sizes its elements show: their number, then the sizes of the first. -/
def arrayOf (elements : List Value) : Value :=
  .array elements.toArray (elements.length :: ((elements.head?.map dims).getD []))

/-- A one-dimensional array. -/
def vector (elements : List Value) : Value :=
  .array elements.toArray [elements.length]

/-- A two-dimensional array of rows of one length. -/
def matrix (rows : List (List Value)) (columns : Nat) : Value :=
  .array (rows.map fun row => .array row.toArray [columns]).toArray [rows.length, columns]

/-- The list of some elements. -/
def listOf (elements : List Value) : Value := .list elements.toArray

/-! ## Failures about values -/

/-- The failure of an operand that should have been something else. A value that is not there yet
makes the expression not constant; anything else should have been ruled out before. -/
def mismatch (what want : String) : Value → Cause
  | .empty _ _ _ => .notConstant
  | got => .internal (what ++ ": expected " ++ want ++ ", got " ++ got.kind)

/-- A mismatch as an outcome. -/
def refuse {α : Type} (what want : String) (got : Value) : Outcome α :=
  (mismatch what want got).fail

/-- The lookup of a field depends on the position of the first field of that name. -/
theorem field?_record (name : String) (path : Path) (fields : List Value) (names : List String)
    (index : Int) : field? name (.record path fields names index)
      = (names.findIdx? (· == name)).bind fun i => fields[i]? := rfl

end Value

end ModelicaFold
