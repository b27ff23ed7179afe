/-!
# Operators

Typed operators say which operands are arrays: the elementwise operators come as array with array,
array with scalar and scalar with array, since the order matters for `-`, `/` and `^`. Quoted code
has operators of its own, as they are before types are known.
-/

namespace ModelicaFold

/-- Scalar arithmetic. -/
inductive Arith where
  | add
  | sub
  | mul
  | div
  | pow
deriving DecidableEq

/-- Which operands of an elementwise operator are arrays. -/
inductive Operands where
  | scalars
  | arrays
  | arrayScalar
  | scalarArray
deriving DecidableEq

/-- Binary operators on numbers, strings and arrays. -/
inductive BinaryOp where
  /-- Arithmetic on scalars or element by element. -/
  | arith (op : Arith) (operands : Operands)
  /-- Concatenation of strings. -/
  | concat
  /-- The scalar product of two vectors. -/
  | scalarProduct
  /-- Products of a matrix with a vector or a matrix. -/
  | matrixProduct
  /-- A square matrix to a non-negative Integer power. -/
  | matrixPower
deriving DecidableEq

def Arith.symbol : Arith → String
  | .add => "+"
  | .sub => "-"
  | .mul => "*"
  | .div => "/"
  | .pow => "^"

/-- Whether an elementwise operator is written without a dot: between scalars, and the sum and
difference of two arrays. -/
def Operands.plain (op : Arith) : Operands → Bool
  | .scalars => true
  | .arrays => op = .add || op = .sub
  | _ => false

def BinaryOp.symbol : BinaryOp → String
  | .arith op operands => if operands.plain op then op.symbol else "." ++ op.symbol
  | .concat => "+"
  | .scalarProduct => "*"
  | .matrixProduct => "*"
  | .matrixPower => "^"

/-- Whether the right operand is a divisor, which must not contain a zero. -/
def BinaryOp.isDivision : BinaryOp → Bool
  | .arith .div _ => true
  | _ => false

/-- Negation of a number or of every element of an array. -/
inductive UnaryOp where
  | minus
  | minusArray
deriving DecidableEq

inductive LogicalOp where
  | and
  | or
deriving DecidableEq

def LogicalOp.symbol : LogicalOp → String
  | .and => "and"
  | .or => "or"

inductive RelationOp where
  | less
  | lessEq
  | greater
  | greaterEq
  | equal
  | notEqual
deriving DecidableEq

def RelationOp.symbol : RelationOp → String
  | .less => "<"
  | .lessEq => "<="
  | .greater => ">"
  | .greaterEq => ">="
  | .equal => "=="
  | .notEqual => "<>"

/-- Operators of quoted code. -/
inductive CodeOp where
  | arith (op : Arith) (elementwise : Bool)
  | minus
  | plus
  | logical (op : LogicalOp)
  | not
  | relation (op : RelationOp)
deriving DecidableEq

def CodeOp.symbol : CodeOp → String
  | .arith op elementwise => if elementwise then "." ++ op.symbol else op.symbol
  | .minus => "-"
  | .plus => "+"
  | .logical op => op.symbol
  | .not => "not"
  | .relation op => op.symbol

end ModelicaFold
