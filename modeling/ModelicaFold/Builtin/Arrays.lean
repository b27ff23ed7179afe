import ModelicaFold.Builtin.Argument
import ModelicaFold.Value.Arithmetic

/-!
# Array functions

Constructors, sums and products, and changes of shape.
-/

namespace ModelicaFold.Builtin

/-! ## Operands -/

/-- The rows of a square matrix. -/
def squareRows (name : String) (m : Value) : Outcome (List (List Value)) :=
  match m.rows? with
  | none => Value.refuse name "matrix" m
  | some rows =>
    if rows.any fun row => row.length ≠ rows.length then
      (Cause.invalidShape
        ("`" ++ name ++ "` needs a square matrix, got size " ++ Text.bracketed m.dims)).fail
    else .ok rows

/-- The three elements of a vector argument of size three. -/
def triple (name : String) (args : List Value) (i : Nat) : Outcome (Value × Value × Value) := do
  match (← elementsArg name args i).toList with
  | [a, b, c] => return (a, b, c)
  | v =>
    (Cause.invalidShape
      ("`" ++ name ++ "` needs vectors of size 3, got " ++ toString v.length)).fail

/-- The sizes given by the arguments from offset `i` on. -/
def sizesFrom (name : String) (args : List Value) (i : Nat) : Outcome (List Nat) :=
  (List.range (args.length - i)).mapM fun (k : Nat) => sizeArg name args (i + k)

/-! ## Constructors -/

/-- The square matrix with the elements of a vector on its diagonal. -/
def diagonal : Function := fun args => do
  takes "diagonal" 1 args
  let v := (← elementsArg "diagonal" args 0).toList
  let rows := v.mapIdx fun i x =>
    (List.range v.length).map fun j => if i = j then x else Value.zeroLike x
  return Value.matrix rows v.length

def identityMatrix : Function := fun args => do
  takes "identity" 1 args
  return Value.identity (← sizeArg "identity" args 0) (.integer 0)

/-- An array filled with a value; the sizes follow the value. -/
def fillArray : Function := fun args =>
  if args.length < 2 then
    (Cause.invalidArgument "fill" "needs a value and at least one size").fail
  else do
    let dims ← sizesFrom "fill" args 1
    return (← arg "fill" args 0).fill dims

/-- An array filled with a number. -/
def filledWith (name : String) (v : Value) : Function := fun args =>
  if args.isEmpty then (Cause.invalidArgument name "needs at least one size").fail
  else do return v.fill (← sizesFrom name args 0)

/-- Equally spaced reals from the first argument to the second. -/
def linspace : Function := fun args => do
  takes "linspace" 3 args
  let first ← realArg "linspace" args 0
  let last ← realArg "linspace" args 1
  let n ← sizeArg "linspace" args 2
  if n < 2 then
    (Cause.invalidArgument "linspace" ("needs at least 2 points, got " ++ toString n)).fail
  else
    let step := (last - first) / Float.ofNat (n - 1)
    return Value.vector ((List.range n).map fun (i : Nat) => .real (first + Float.ofNat i * step))

/-- Concatenation along the dimension that the first argument gives. -/
def cat : Function := fun args => do
  let k ← integerArg "cat" args 0
  if k < 0 then
    (Cause.invalidArgument "cat" ("dimension " ++ toString k ++ " must be positive")).fail
  else Value.concat k.toNat args.tail

/-! ## Sums and products -/

/-- The value that leaves a sum or product of numbers like `like` as it is. -/
def neutral (op : Arith) (like : Value) : Value :=
  match op, like with
  | .mul, .real _ => .real 1.0
  | .mul, _ => .integer 1
  | _, like => Value.zeroLike like

/-- The sum or product of all leaves, from the first on. -/
def foldLeaves (name : String) (op : Arith) : Function := fun args => do
  takes name 1 args
  let leaves := (← arg name args 0).flatten
  leaves.foldlM (Value.scalarArith op) (neutral op (leaves.headD (.integer 0)))

/-! ## Changes of shape -/

/-- Appends dimensions of size one until the rank is the second argument. -/
def promote : Function := fun args => do
  takes "promote" 2 args
  let v ← arg "promote" args 0
  let n ← sizeArg "promote" args 1
  if n < v.rank then
    (Cause.invalidArgument "promote"
      ("cannot promote a rank " ++ toString v.rank ++ " array to rank " ++ toString n)).fail
  else return v.appendUnitDims (n - v.rank)

/-- The only element of an array whose sizes are all one. -/
def scalar : Function := fun args => do
  takes "scalar" 1 args
  let v ← arg "scalar" args 0
  if v.dims.any (· ≠ 1) then
    (Cause.invalidShape
      ("`scalar` needs an array of size 1, got " ++ Text.bracketed v.dims)).fail
  else return v.flatten.headD v

/-- The leaves of an array with at most one size above one. -/
def vectorOf : Function := fun args => do
  takes "vector" 1 args
  let v ← arg "vector" args 0
  if 1 < (v.dims.filter (1 < ·)).length then
    (Cause.invalidShape
      ("`vector` needs at most one dimension larger than 1, got "
        ++ Text.bracketed v.dims)).fail
  else return Value.vector v.flatten

/-- The first two dimensions of an array whose other sizes are one. -/
def matrixOf : Function := fun args => do
  takes "matrix" 1 args
  let v ← arg "matrix" args 0
  match v.dims with
  | [] => return Value.matrix [[v]] 1
  | [n] => return Value.fromFlat v.flatten [n, 1]
  | [_, _] => return v
  | n :: m :: inner =>
    if inner.all (· = 1) then return Value.fromFlat v.flatten [n, m]
    else
      (Cause.invalidShape
        ("`matrix` needs trailing dimensions of size 1, got " ++ Text.bracketed v.dims)).fail

def transpose : Function := fun args => do
  takes "transpose" 1 args
  let v ← arg "transpose" args 0
  match v.transpose? with
  | some t => return t
  | none => Value.refuse "transpose" "matrix" v

/-- The symmetric matrix with the upper triangle of a matrix. -/
def symmetric : Function := fun args => do
  takes "symmetric" 1 args
  let rows ← squareRows "symmetric" (← arg "symmetric" args 0)
  let completed := rows.mapIdx fun i row =>
    ((rows.take i).filterMap fun (upper : List Value) => upper[i]?) ++ row.drop i
  return Value.matrix completed rows.length

/-! ## Products -/

/-- The product of two leaves. -/
def mul (a b : Value) : Outcome Value := Value.scalarArith .mul a b

/-- The difference of two leaves. -/
def sub (a b : Value) : Outcome Value := Value.scalarArith .sub a b

/-- The determinant of the matrix with rows `a`, `b` and `c`, `d`. -/
def minor (a b c d : Value) : Outcome Value := do
  let ad ← mul a d
  let bc ← mul b c
  sub ad bc

/-- The vector product. -/
def cross : Function := fun args => do
  takes "cross" 2 args
  let (x₁, x₂, x₃) ← triple "cross" args 0
  let (y₁, y₂, y₃) ← triple "cross" args 1
  return Value.vector [← minor x₂ x₃ y₂ y₃, ← minor x₃ x₁ y₃ y₁, ← minor x₁ x₂ y₁ y₂]

/-- The matrix whose product with a vector is the vector product. -/
def skew : Function := fun args => do
  takes "skew" 1 args
  let (x₁, x₂, x₃) ← triple "skew" args 0
  let zero := Value.zeroLike x₁
  let minus₃ ← sub zero x₃
  let minus₁ ← sub zero x₁
  let minus₂ ← sub zero x₂
  return Value.matrix [[zero, minus₃, x₂], [x₃, zero, minus₁], [minus₂, x₁, zero]] 3

/-- The products of every element of one vector with every element of another. -/
def outerProduct : Function := fun args => do
  takes "outerProduct" 2 args
  let x := (← elementsArg "outerProduct" args 0).toList
  let y := (← elementsArg "outerProduct" args 1).toList
  return Value.matrix (← x.mapM fun a => y.mapM (mul a)) y.length

end ModelicaFold.Builtin
