import ModelicaFold.Eval.Evaluator
import ModelicaFold.Syntax.Print
import ModelicaFold.Value.Arithmetic
import ModelicaFold.Value.Compare
import ModelicaFold.Value.Convert
import ModelicaFold.Value.Logic
import ModelicaFold.Value.Range

/-!
# Constructors and operators

Rules that evaluate the parts of an expression and put the values together: arrays, matrices,
ranges, operators, relations, casts and lists.
-/

namespace ModelicaFold.Steps

/-! ## Arrays -/

/-- The array of evaluated elements. Without elements its sizes are those of its type, if they are
known and the first is zero. -/
def arrayOfType (ty : Ty) (values : List Value) : Value :=
  match values, ty.staticDims with
  | [], some (0 :: rest) => .array #[] (0 :: rest)
  | values, _ => Value.arrayOf values

/-- An array constructor. -/
def array (s : Steps) (req : Request) (ty : Ty) (elements : List Expr) : EvalM Value := do
  return arrayOfType ty (← s.evalAll req elements)

/-- The row of a matrix constructor as a matrix: scalars side by side, or blocks joined. -/
def rowBlock (values : List Value) : Outcome Value :=
  if values.all fun v => !v.isArray then .ok (Value.arrayOf [Value.arrayOf values])
  else Value.concat 2 (values.map Value.block)

/-- A matrix constructor. The blocks of the rows are joined one below the other. -/
def matrix (s : Steps) (req : Request) (rows : List (List Expr)) : EvalM Value := do
  let blocks ← rows.mapM fun row => do
    let values ← s.evalAll req row
    EvalM.ofOutcome (rowBlock values)
  if blocks.isEmpty then return .array #[] [0, 0] else EvalM.ofOutcome (Value.concat 1 blocks)

/-- A range. -/
def range (s : Steps) (req : Request) (ty : Ty) (start : Expr) (step : Option Expr)
    (stop : Expr) : EvalM Value := do
  let a ← s.eval req start
  let d ← step.mapM (s.eval req)
  let b ← s.eval req stop
  let elements ← (Value.rangeElements a d b ty.elementType : Outcome (Array Value))
  return .array elements [elements.size]

/-! ## Operators -/

/-- A binary operator. A zero divisor is reported with the operands as they are written. -/
def binary (s : Steps) (req : Request) (lhs : Expr) (op : BinaryOp) (rhs : Expr) :
    EvalM Value := do
  let a ← s.eval req lhs
  let b ← s.eval req rhs
  if op.isDivision && b.hasZero then EvalM.fail (.divisionByZero lhs.text rhs.text)
  else EvalM.ofOutcome (Value.binary op a b)

/-- A logical operator; the right operand is evaluated only if the left one does not decide. -/
def logical (s : Steps) (req : Request) (lhs : Expr) (op : LogicalOp) (rhs : Expr) :
    EvalM Value := do
  let a ← s.eval req lhs
  EvalM.firstMatch [
    (Value.decided? op a).map pure,
    some do
      let b ← s.eval req rhs
      EvalM.ofOutcome (Value.logical op a b)]

/-- A relation between scalars. -/
def relation (s : Steps) (req : Request) (lhs : Expr) (op : RelationOp) (rhs : Expr) :
    EvalM Value := do
  let a ← s.eval req lhs
  let b ← s.eval req rhs
  match Value.relate? a op b with
  | some holds => return .bool holds
  | none => EvalM.fail .notConstant

/-- A conditional expression evaluates only the branch that is taken. -/
def conditional (s : Steps) (req : Request) (condition yes no : Expr) : EvalM Value := do
  match ← s.eval req condition with
  | .bool true => s.eval req yes
  | .bool false => s.eval req no
  | other => EvalM.fail (other.mismatch "if-condition" "Boolean")

/-- The operand of a cast with all its leaves converted. -/
def castLeaves (s : Steps) (req : Request) (operand : Expr) (convert : Value → Outcome Value) :
    EvalM Value := do
  let v ← s.eval req operand
  EvalM.ofOutcome (v.mapLeaves convert)

/-- The ways to evaluate a cast. Records pass through, numbers and enumerations are converted leaf by
leaf, and a cast to any other type leaves the value as it is. -/
def castAlternatives (s : Steps) (req : Request) (ty : Ty) (operand : Expr) :
    List (Option (EvalM Value)) :=
  [ if ty.elementType.isRecord then some (s.eval req operand) else none,
    (Value.castNumberLeaf? ty).map (s.castLeaves req operand),
    (Value.castLiteralLeaf? ty).map (s.castLeaves req operand),
    if ty.elementType.isRecord || (Value.castLeaf? ty).isSome then none
    else some (s.eval req operand)]

/-- A cast. -/
def cast (s : Steps) (req : Request) (ty : Ty) (operand : Expr) : EvalM Value :=
  EvalM.firstMatch (s.castAlternatives req ty operand)

/-! ## Tuples, lists and boxes -/

/-- A component of a tuple. -/
def component (s : Steps) (req : Request) (operand : Expr) (index : Nat) : EvalM Value := do
  match ← s.eval req operand with
  | .tuple elements =>
    match nth? elements index with
    | some v => return v
    | none => EvalM.fail (.internal ("tuple has no element " ++ toString index))
  | other => EvalM.fail (other.mismatch "tuple projection" "tuple")

/-- A list with one more element at its head. -/
def cons (s : Steps) (req : Request) (head tail : Expr) : EvalM Value := do
  let v ← s.eval req head
  match ← s.eval req tail with
  | .list vs => return .list (#[v] ++ vs)
  | other => EvalM.fail (other.mismatch "cons" "list")

/-- The content of one box. -/
def unbox (s : Steps) (req : Request) (operand : Expr) : EvalM Value := do
  match ← s.eval req operand with
  | .boxed v => return v
  | other => EvalM.fail (other.mismatch "unbox" "boxed value")

end ModelicaFold.Steps
