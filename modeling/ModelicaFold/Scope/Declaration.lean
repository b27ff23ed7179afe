import ModelicaFold.Value.Basic

/-!
# Declarations

What a scope declares: variables with their types, variabilities and bindings, and classes, which
are records or functions. Names, inheritance and redeclarations are resolved before.
-/

namespace ModelicaFold

/-- When the value of a variable is fixed. -/
inductive Variability where
  | constant
  | parameter
  | varying
deriving DecidableEq

/-- Constants and parameters have a value before a simulation starts. -/
def Variability.isEvaluable : Variability → Bool
  | .constant => true
  | .parameter => true
  | .varying => false

/-- How a variable gets its value. -/
inductive Binding where
  | unbound
  | value (v : Value)
  /-- An expression with its variability, and its value if that is known from before. -/
  | expression (e : Expr) (variability : Variability) (cached : Option Value)

/-- A declared variable. -/
structure Variable where
  ty : Ty
  variability : Variability
  binding : Binding

/-- A constant whose value is known. -/
def Variable.ofValue (ty : Ty) (v : Value) : Variable :=
  ⟨ty, .constant, .value v⟩

/-- A field of a record class. -/
structure FieldDecl where
  name : String
  ty : Ty
  default : Option Expr

structure RecordClass where
  path : Path
  fields : List FieldDecl

/-- The implementation of a function outside the language. -/
structure ExternalDecl where
  name : String
  language : String

structure FunctionClass where
  path : Path
  inputs : List String
  output : Ty
  impure : Bool
  external? : Option ExternalDecl

inductive ClassDef where
  | record (r : RecordClass)
  | function (f : FunctionClass)

def ClassDef.path : ClassDef → Path
  | .record r => r.path
  | .function f => f.path

end ModelicaFold
