import ModelicaFold.Value.Shape
import ModelicaFold.Word

/-!
# Arithmetic

Two Integers are combined exactly and fail if the result leaves the 64-bit range; two Reals follow
IEEE 754. A mixed pair means that a cast is missing and is an internal failure. Array operators
apply the scalar operation to leaves; which operands are arrays is part of the operator.
-/

namespace ModelicaFold

/-- An Integer in range, or an overflow of the named operation. -/
def inRange (operation : String) (n : Int) : Outcome Value :=
  if minInteger ≤ n ∧ n ≤ maxInteger then .ok (.integer n)
  else (Cause.integerOverflow operation).fail

/-- A result within the range of words is an Integer. -/
theorem inRange_of_isWord (operation : String) {n : Int} (h : IsWord n) :
    inRange operation n = .ok (.integer n) :=
  if_pos h

/-- A result outside the range of words is an overflow. -/
theorem inRange_of_not_isWord (operation : String) {n : Int} (h : ¬IsWord n) :
    inRange operation n = (Cause.integerOverflow operation).fail :=
  if_neg h

/-- The name of an operation in messages. -/
def Arith.name : Arith → String
  | .add => "addition"
  | .sub => "subtraction"
  | .mul => "multiplication"
  | .div => "division"
  | .pow => "exponentiation"

namespace Value

/-! ## Scalars -/

/-- A power whose exponent is at least this, 2^32, is refused, whatever the base. -/
def exponentLimit : Int := 4294967296

/-- A non-negative power of an Integer. Unless the base is at most one in magnitude, a power of
more than 63 is out of range, and is not computed. -/
def integerPower (a b : Int) : Outcome Value :=
  if b < 0 then (Cause.invalidArgument "^" "Integer exponent must be non-negative").fail
  else if exponentLimit ≤ b then (Cause.integerOverflow Arith.pow.name).fail
  else if a.natAbs ≤ 1 then
    .ok (.integer (if b = 0 then 1 else if b % 2 = 0 then a * a else a))
  else if 64 ≤ b then (Cause.integerOverflow Arith.pow.name).fail
  else inRange Arith.pow.name (a.pow b.toNat)

/-- Arithmetic on Integers; a quotient is truncated toward zero. -/
def integerArith (op : Arith) (a b : Int) : Outcome Value :=
  match op with
  | .add => inRange op.name (a + b)
  | .sub => inRange op.name (a - b)
  | .mul => inRange op.name (a * b)
  | .div =>
    if b = 0 then (Cause.divisionByZero (toString a) "0").fail else inRange op.name (a.tdiv b)
  | .pow => integerPower a b

/-- Arithmetic on Reals; a power that has no real value is refused. -/
def realArith (op : Arith) (a b : Float) : Outcome Value :=
  match op with
  | .add => .ok (.real (a + b))
  | .sub => .ok (.real (a - b))
  | .mul => .ok (.real (a * b))
  | .div => .ok (.real (a / b))
  | .pow =>
    let p := a.pow b
    if p.isNaN && !a.isNaN && !b.isNaN then
      (Cause.invalidArgument "^"
        (Decimal.plain a ++ " ^ " ++ Decimal.plain b ++ " is not a real number")).fail
    else .ok (.real p)

/-- The failure of arithmetic on kinds that it is not defined for. -/
def undefinedArith (op : Arith) (lhs rhs : Value) : Outcome Value :=
  (Cause.internal (op.name ++ " of " ++ lhs.kind ++ " and " ++ rhs.kind)).fail

/-- Arithmetic on two scalars of one kind; strings can be added. -/
def scalarArith (op : Arith) (lhs rhs : Value) : Outcome Value :=
  match lhs, rhs with
  | .integer a, .integer b => integerArith op a b
  | .real a, .real b => realArith op a b
  | .string a, .string b => if op = .add then .ok (.string (a ++ b)) else undefinedArith op lhs rhs
  | .empty _ _ _, _ => Cause.notConstant.fail
  | _, .empty _ _ _ => Cause.notConstant.fail
  | _, _ => undefinedArith op lhs rhs

/-- The zero of the numbers that `like` is one of. -/
def zeroLike : Value → Value
  | .real _ => .real 0.0
  | _ => .integer 0

/-- The negation of a number. -/
def negateLeaf : Value → Outcome Value
  | .integer n => inRange "negation" (-n)
  | .real x => .ok (.real (-x))
  | .empty _ _ _ => Cause.notConstant.fail
  | other => (Cause.internal ("negation of " ++ other.kind)).fail

/-- The negation of a number or of every element of an array. -/
def negate (v : Value) : Outcome Value :=
  v.mapLeaves negateLeaf

/-! ## Strings -/

/-- What a combination of leaves gives, or a failure for operands of different shapes. -/
def orShape (zipped : Option (Outcome Value)) (message : String) : Outcome Value :=
  zipped.getD (Cause.invalidShape message).fail

/-- Concatenation of two strings. -/
def concatLeaves : Value → Value → Outcome Value
  | .string a, .string b => .ok (.string (a ++ b))
  | a, b => (Cause.internal ("string concatenation of " ++ a.kind ++ " and " ++ b.kind)).fail

/-- Concatenation of strings, element by element for arrays. -/
def concatStrings (lhs rhs : Value) : Outcome Value :=
  if lhs.isArray && rhs.isArray then
    orShape (lhs.zipLeaves concatLeaves rhs) "string arrays have different sizes"
  else concatLeaves lhs rhs

/-! ## Products -/

/-- The sum of the products of the elements of two vectors. -/
def dotProduct (a b : List Value) : Outcome Value :=
  if a.length ≠ b.length then
    (Cause.invalidShape
      ("scalar product of vectors of sizes " ++ toString a.length ++ " and "
        ++ toString b.length)).fail
  else
    (a.zip b).foldlM
      (fun sum (x, y) => do scalarArith .add sum (← scalarArith .mul x y))
      ((a.head?.map zeroLike).getD (.integer 0))

/-- The elements of an operand that should be a vector. -/
def vectorElements (v : Value) : Outcome (List Value) :=
  match v.elements? with
  | some elements => .ok elements.toList
  | none => (Cause.internal ("expected a vector, got " ++ v.kind)).fail

/-- The scalar product of two vectors. -/
def scalarProduct (lhs rhs : Value) : Outcome Value := do
  dotProduct (← vectorElements lhs) (← vectorElements rhs)

/-- The rows of a matrix operand. -/
def matrixRows (m : Value) : Outcome (List (List Value)) :=
  match m.rows? with
  | some rows => .ok rows
  | none => (Cause.internal "matrix operand is not rectangular").fail

/-- The columns of a matrix operand. -/
def matrixColumns (m : Value) : Outcome (List (List Value)) :=
  match m.transpose? with
  | some t => .ok (t.elementList.map elementList)
  | none => (Cause.internal "matrix operand is not rectangular").fail

/-- The product of a matrix with a vector, a vector with a matrix, two matrices or two vectors. -/
def matrixProduct (lhs rhs : Value) : Outcome Value :=
  match lhs.isMatrix, rhs.isMatrix with
  | true, false => do
    let rows ← matrixRows lhs
    let v ← vectorElements rhs
    return vector (← rows.mapM fun row => dotProduct row v)
  | false, true => do
    let v ← vectorElements lhs
    let columns ← matrixColumns rhs
    return vector (← columns.mapM fun column => dotProduct v column)
  | true, true => do
    let rows ← matrixRows lhs
    let columns ← matrixColumns rhs
    return matrix (← rows.mapM fun row => columns.mapM fun column => dotProduct row column)
      columns.length
  | false, false => scalarProduct lhs rhs

/-- `acc` times `base` to the power `n`: the digits of `n` in base two decide which squares of
`base` are multiplied in. No square is computed that is not needed. -/
def powerFrom (acc base : Value) (n : Nat) : Outcome Value :=
  if n = 0 then .ok acc
  else do
    let acc ← if n % 2 = 1 then matrixProduct acc base else .ok acc
    if n / 2 = 0 then .ok acc
    else do powerFrom acc (← matrixProduct base base) (n / 2)
termination_by n

/-- A square matrix to a non-negative Integer power. -/
def matrixPower (lhs rhs : Value) : Outcome Value :=
  match rhs with
  | .integer n =>
    match lhs.dims with
    | [rows, columns] =>
      if rows ≠ columns then notSquare
      else if n < 0 then (Cause.invalidArgument "^" "matrix exponent must be non-negative").fail
      else powerFrom (identity rows ((lhs.flatten.head?).getD (.integer 0))) lhs n.toNat
    | _ => notSquare
  | other => (Cause.internal ("matrix power with a " ++ other.kind ++ " exponent")).fail
where
  notSquare : Outcome Value :=
    (Cause.invalidShape
      ("matrix power of a non-square matrix of size " ++ Text.bracketed lhs.dims)).fail

/-! ## Operators -/

/-- Arithmetic on operands of the announced shapes. -/
def elementwise (op : Arith) (operands : Operands) (lhs rhs : Value) : Outcome Value :=
  match operands with
  | .scalars =>
    if lhs.isArray || rhs.isArray then
      (Cause.internal
        ("scalar operator `" ++ (BinaryOp.arith op operands).symbol
          ++ "` applied to an array")).fail
    else scalarArith op lhs rhs
  | .arrays =>
    orShape (lhs.zipLeaves (scalarArith op) rhs)
      ("operands of `" ++ (BinaryOp.arith op operands).symbol ++ "` have sizes "
        ++ Text.bracketed lhs.dims ++ " and " ++ Text.bracketed rhs.dims)
  | .arrayScalar => lhs.mapLeaves fun a => scalarArith op a rhs
  | .scalarArray => rhs.mapLeaves fun b => scalarArith op lhs b

/-- A binary operator applied to values. -/
def binary (op : BinaryOp) (lhs rhs : Value) : Outcome Value :=
  match op with
  | .arith op operands => elementwise op operands lhs rhs
  | .concat => concatStrings lhs rhs
  | .scalarProduct => scalarProduct lhs rhs
  | .matrixProduct => matrixProduct lhs rhs
  | .matrixPower => matrixPower lhs rhs

end Value

end ModelicaFold
