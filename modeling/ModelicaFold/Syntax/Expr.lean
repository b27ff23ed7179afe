import ModelicaFold.Syntax.Code
import ModelicaFold.Syntax.Span

/-!
# Typed expressions

Expressions as the type checker hands them over, with the declared types and dimensions they are
annotated with. Types and expressions refer to each other: a dimension may be an expression that
still needs evaluation.
-/

namespace ModelicaFold

/-- How the sequences of several iterators are put together. -/
inductive IteratorKind where
  /-- Every combination of their elements. -/
  | combine
  /-- Position by position; all sequences have one length. -/
  | thread
deriving DecidableEq

mutual

/-- One dimension of a declared array type. -/
inductive Dimension where
  | known (size : Nat)
  /-- Indexed by an enumeration; the size is the number of its literals. -/
  | enumeration (path : Path) (size : Nat)
  /-- Indexed by Boolean, so of size two. -/
  | boolean
  /-- A size that still needs evaluation. -/
  | computed (size : Expr)
  | unknown

/-- A declared type. -/
inductive Ty where
  | integer
  | real
  | boolean
  | string
  /-- An enumeration with its literals in declaration order. -/
  | enumeration (path : Path) (literals : List String)
  /-- An array with all its dimensions, the outermost first. -/
  | array (element : Ty) (dims : List Dimension)
  | record (path : Path)
  | tuple (types : List Ty)
  | list (element : Ty)
  | option (element : Ty)
  | boxed (element : Ty)
  | code
  | noReturn
  | unknown

/-- One subscript. Indices count from one. -/
inductive Subscript where
  /-- Every element of the dimension. -/
  | whole
  /-- The elements at an array of indices. -/
  | slice (indices : Expr)
  | index (index : Expr)

/-- One identifier of a reference with the subscripts that follow it. -/
inductive RefPart where
  | mk (ident : String) (subscripts : List Subscript)

/-- The clause `name in source guard condition` of a reduction. -/
inductive Iterator where
  | mk (name : String) (source : Expr) (guard : Option Expr) (ty : Ty)

/-- How the values of a reduction's body are combined: the name of the reduction, the kind of its
iterators, the type of the result, the value for nothing to iterate over, and a fold expression
with the names it uses for the new value and for the result so far. -/
inductive ReductionInfo where
  | mk (path : Path) (kind : IteratorKind) (ty : Ty) (default : Option Expr)
      (valueName resultName : String) (fold : Option Expr)

/-- A typed expression. -/
inductive Expr where
  | integer (n : Int)
  | real (x : Float)
  | bool (b : Bool)
  | string (s : String)
  /-- An enumeration literal with its position, counted from one. -/
  | enumeration (path : Path) (index : Int)
  /-- An array constructor with its array type, and whether its elements are scalars. -/
  | array (ty : Ty) (scalar : Bool) (elements : List Expr)
  | matrix (ty : Ty) (rows : List (List Expr))
  | range (ty : Ty) (start : Expr) (step : Option Expr) (stop : Expr)
  | tuple (elements : List Expr)
  | cast (ty : Ty) (operand : Expr)
  | reference (parts : List RefPart) (ty : Ty)
  | binary (lhs : Expr) (op : BinaryOp) (rhs : Expr)
  | unary (op : UnaryOp) (operand : Expr)
  | logical (lhs : Expr) (op : LogicalOp) (rhs : Expr)
  | logicalNot (operand : Expr)
  | relation (lhs : Expr) (op : RelationOp) (rhs : Expr)
  | conditional (condition yes no : Expr)
  /-- A call with its result type, and whether the callee is built in and whether it is impure. -/
  | call (path : Path) (args : List Expr) (ty : Ty) (builtin impure : Bool)
  /-- A record constructor. -/
  | record (path : Path) (args : List Expr) (fields : List String)
  /-- The constructor of a record at a position of its union type. -/
  | unionRecord (path : Path) (index : Int) (args : List Expr) (fields : List String)
  | subscripted (operand : Expr) (subscripts : List Subscript)
  /-- A component of a tuple, counted from one. -/
  | component (operand : Expr) (index : Nat)
  | field (operand : Expr) (name : String)
  /-- The sizes of an array, or its size along one dimension. -/
  | size (operand : Expr) (dim : Option Expr)
  | list (elements : List Expr)
  | cons (head tail : Expr)
  /-- The option that holds a value. -/
  | present (content : Expr)
  /-- The empty option. -/
  | absent
  | boxed (content : Expr)
  | unbox (operand : Expr) (ty : Ty)
  | reduction (info : ReductionInfo) (body : Expr) (iterators : List Iterator)
  /-- Quoted code. -/
  | code (fragment : Fragment)

end

/-! ## Parts of clauses -/

def RefPart.ident : RefPart → String
  | .mk ident _ => ident

def RefPart.subscripts : RefPart → List Subscript
  | .mk _ subscripts => subscripts

namespace Iterator

def name : Iterator → String
  | .mk name _ _ _ => name

def source : Iterator → Expr
  | .mk _ source _ _ => source

def guard : Iterator → Option Expr
  | .mk _ _ guard _ => guard

def ty : Iterator → Ty
  | .mk _ _ _ ty => ty

end Iterator

namespace ReductionInfo

def path : ReductionInfo → Path
  | .mk path _ _ _ _ _ _ => path

def kind : ReductionInfo → IteratorKind
  | .mk _ kind _ _ _ _ _ => kind

def ty : ReductionInfo → Ty
  | .mk _ _ ty _ _ _ _ => ty

def default : ReductionInfo → Option Expr
  | .mk _ _ _ default _ _ _ => default

def valueName : ReductionInfo → String
  | .mk _ _ _ _ valueName _ _ => valueName

def resultName : ReductionInfo → String
  | .mk _ _ _ _ _ resultName _ => resultName

def fold : ReductionInfo → Option Expr
  | .mk _ _ _ _ _ _ fold => fold

end ReductionInfo

/-! ## References -/

/-- A reference to a component: its identifiers, outermost first, each with its subscripts. -/
abbrev Reference := List RefPart

namespace Reference

/-- The reference that a dotted name denotes, without subscripts; empty pieces are identifiers. -/
def ofName (dotted : String) : Reference :=
  (Text.pieces '.' dotted).map fun piece => .mk piece []

/-- The dotted name without subscripts. Variables are looked up by it. -/
def name (r : Reference) : String :=
  ".".intercalate (r.map RefPart.ident)

/-- All subscripts, those of the outermost identifier first. -/
def subscripts (r : Reference) : List Subscript :=
  r.flatMap RefPart.subscripts

/-- Whether any identifier has subscripts. -/
def isSubscripted (r : Reference) : Bool :=
  r.any fun part => !part.subscripts.isEmpty

/-- The reference with other subscripts at its last identifier. -/
def withSubscripts (r : Reference) (subs : List Subscript) : Reference :=
  match r with
  | [] => []
  | [part] => [.mk part.ident subs]
  | part :: more => part :: withSubscripts more subs

/-- A dotted name is the name of the reference it denotes. -/
theorem name_ofName (dotted : String) : (ofName dotted).name = dotted := by
  have h : (ofName dotted).map RefPart.ident = Text.pieces '.' dotted := by
    simp [ofName, RefPart.ident, Function.comp_def]
  rw [name, h]
  exact Text.intercalate_pieces '.' dotted

end Reference

/-! ## Constructors with the usual annotations -/

namespace Expr

/-- Whether an expression is written as an array. -/
def isArrayLiteral : Expr → Bool
  | .array .. => true
  | .matrix .. => true
  | _ => false

/-- An array constructor of one unknown dimension and unknown element type. -/
def arrayOf (elements : List Expr) : Expr :=
  .array (.array .unknown [.unknown]) (!elements.any isArrayLiteral) elements

/-- A call of a built-in function by its simple name. -/
def builtinCall (name : String) (args : List Expr) : Expr :=
  .call (.ident name) args .unknown true false

/-- A range whose type is not known. -/
def rangeOf (start : Expr) (step : Option Expr) (stop : Expr) : Expr :=
  .range .unknown start step stop

/-- Whether an expression is a literal. -/
def isLiteral : Expr → Bool
  | .integer _ => true
  | .real _ => true
  | .bool _ => true
  | .string _ => true
  | .enumeration _ _ => true
  | _ => false

end Expr

/-! ## Types -/

/-- The size of a dimension, if no evaluation is needed. -/
def Dimension.staticSize : Dimension → Option Nat
  | .known n => some n
  | .enumeration _ n => some n
  | .boolean => some 2
  | .computed _ => none
  | .unknown => none

namespace Ty

def isArray : Ty → Bool
  | .array _ _ => true
  | _ => false

def isRecord : Ty → Bool
  | .record _ => true
  | _ => false

/-- The unknown type; other types are never equal to it. -/
def isUnknown : Ty → Bool
  | .unknown => true
  | _ => false

/-- The dimensions of an array type; other types have none. -/
def dims : Ty → List Dimension
  | .array _ dims => dims
  | _ => []

/-- The sizes of all dimensions, if no evaluation is needed. -/
def staticDims (ty : Ty) : Option (List Nat) :=
  ty.dims.mapM Dimension.staticSize

/-- The type without its array dimensions. -/
def elementType : Ty → Ty
  | .array element _ => element.elementType
  | other => other

end Ty

end ModelicaFold
