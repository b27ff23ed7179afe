import ModelicaFold.Value.Arithmetic
import ModelicaFold.Value.Index

/-!
# Conversions of values

Numbers between Integer and Real, Integers to enumeration literals, and values back to the literal
expressions and to the quoted code that denote them.
-/

namespace ModelicaFold

/-- A whole Real as an Integer, or an overflow of the named operation. -/
def wholeReal (operation : String) (x : Float) : Outcome Value :=
  if x.isFinite && -9223372036854775808.0 ≤ x && x < 9223372036854775808.0 then
    .ok (.integer x.toInt64.toInt)
  else (Cause.integerOverflow operation).fail

namespace Value

/-! ## Casts -/

/-- A leaf cast to Real. -/
def castRealLeaf : Value → Outcome Value
  | .integer n => .ok (.real (Float.ofInt n))
  | .real x => .ok (.real x)
  | _ => Cause.notConstant.fail

/-- A leaf cast to Integer; a Real is truncated toward zero. -/
def castIntegerLeaf : Value → Outcome Value
  | .integer n => .ok (.integer n)
  | .real x => wholeReal "Real to Integer conversion" (Decimal.truncate x)
  | _ => Cause.notConstant.fail

/-- A leaf cast to an enumeration. -/
def castEnumerationLeaf (path : Path) (literals : List String) : Value → Outcome Value
  | .integer n => literal path literals n
  | .enumeration p i => .ok (.enumeration p i)
  | _ => Cause.notConstant.fail

/-- What a cast to a type of numbers does to a leaf. -/
def castNumberLeaf? (ty : Ty) : Option (Value → Outcome Value) :=
  match ty.elementType with
  | .real => some castRealLeaf
  | .integer => some castIntegerLeaf
  | _ => none

/-- What a cast to an enumeration does to a leaf. -/
def castLiteralLeaf? (ty : Ty) : Option (Value → Outcome Value) :=
  match ty.elementType with
  | .enumeration path literals => some (castEnumerationLeaf path literals)
  | _ => none

/-- What a cast to a type does to a leaf; nothing if such a cast leaves every value as it is. -/
def castLeaf? (ty : Ty) : Option (Value → Outcome Value) :=
  match ty.elementType with
  | .real => some castRealLeaf
  | .integer => some castIntegerLeaf
  | .enumeration path literals => some (castEnumerationLeaf path literals)
  | _ => none

/-! ## Literal expressions -/

/-- The first leaf of an array, or nothing if the first element at some level is missing. -/
def firstLeaf? : Value → Option Value
  | .array ⟨[]⟩ _ => none
  | .array ⟨v :: _⟩ _ => v.firstLeaf?
  | other => some other

/-- The scalar type of the first leaf, as far as it shows. -/
def leafType (v : Value) : Ty :=
  match v.firstLeaf? with
  | some (.integer _) => .integer
  | some (.real _) => .real
  | some (.bool _) => .boolean
  | some (.string _) => .string
  | some (.record path _ _ _) => .record path
  | _ => .unknown

mutual

/-- The literal expression with this value. There is none for the result of `fail()`, for no result
and for a value that is not there yet. -/
def toExpr? : Value → Option Expr
  | .integer n => some (.integer n)
  | .real x => some (.real x)
  | .bool b => some (.bool b)
  | .string s => some (.string s)
  | .enumeration path i => some (.enumeration path i)
  | .array ⟨elements⟩ dims =>
    (allToExpr? elements).map fun es =>
      .array (.array (leafType (.array ⟨elements⟩ dims)) (dims.map .known)) (dims.length == 1) es
  | .list ⟨elements⟩ => (allToExpr? elements).map .list
  | .tuple elements => (allToExpr? elements).map .tuple
  | .record path fields names index =>
    (allToExpr? fields).map fun es =>
      if 0 ≤ index then .unionRecord path index es names else .record path es names
  | .present content => content.toExpr?.map .present
  | .absent => some .absent
  | .boxed content => content.toExpr?.map .boxed
  | .code fragment => some (.code fragment)
  | .fail => none
  | .noReturn => none
  | .empty _ _ _ => none

def allToExpr? : List Value → Option (List Expr)
  | [] => some []
  | v :: vs =>
    match v.toExpr?, allToExpr? vs with
    | some e, some es => some (e :: es)
    | _, _ => none

end

/-! ## Quoted code -/

/-- The code of a fragment: an expression is its own, a name becomes a reference. -/
def fragmentCode : Fragment → Code
  | .expression c => c
  | .typeName path => .reference path []
  | .componentName path => .reference path []

mutual

/-- The quoted code that denotes a value, where there is one. -/
def toCode? : Value → Option Code
  | .integer n => some (.integer n)
  | .real x => some (.real x)
  | .bool b => some (.bool b)
  | .string s => some (.string s)
  | .enumeration path _ => some (.reference path [])
  | .array ⟨elements⟩ _ => (allToCode? elements).map .array
  | .list ⟨elements⟩ => (allToCode? elements).map .list
  | .tuple elements => (allToCode? elements).map .tuple
  | .record path fields _ _ => (allToCode? fields).map fun args => .call path args []
  | .present content => content.toCode?.map fun c => .call (.ident "SOME") [c] []
  | .absent => some (.call (.ident "NONE") [] [])
  | .boxed content => content.toCode?
  | .code fragment => some (fragmentCode fragment)
  | .fail => none
  | .noReturn => none
  | .empty _ _ _ => none

def allToCode? : List Value → Option (List Code)
  | [] => some []
  | v :: vs =>
    match v.toCode?, allToCode? vs with
    | some c, some cs => some (c :: cs)
    | _, _ => none

end

end Value

end ModelicaFold
