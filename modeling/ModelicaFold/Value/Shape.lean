import ModelicaFold.Value.Leaves
import ModelicaFold.Value.Print

/-!
# Building and rearranging arrays

Filling, nesting, concatenation, transposition and unit matrices. All of them keep the sizes an
array carries in step with its nesting.
-/

namespace ModelicaFold.Value

/-! ## Matrices -/

/-- Whether a value is an array whose first element is an array. -/
def isMatrix : Value → Bool
  | .array elements _ => elements[0]?.any isArray
  | _ => false

/-- The elements of one row. -/
def row? : Value → Option (List Value)
  | .array elements _ => some elements.toList
  | _ => none

/-- The rows of a value whose elements are all arrays. -/
def rows? (v : Value) : Option (List (List Value)) :=
  v.elements?.bind fun elements => elements.toList.mapM row?

/-- The first `count` columns of rows, if no row is shorter. -/
def columns? (rows : List (List Value)) : Nat → Option (List (List Value))
  | 0 => some []
  | count + 1 => do
    let column ← rows.mapM List.head?
    let columns ← columns? (rows.map List.tail) count
    return column :: columns

/-- The array with its first two dimensions swapped. -/
def transpose? (v : Value) : Option Value :=
  match v.rows?, v.dims with
  | some rows, n :: m :: inner =>
    (columns? rows m).map fun columns =>
      .array (columns.map fun column => .array column.toArray (n :: inner)).toArray
        (m :: n :: inner)
  | _, _ => none

/-- The matrix of `n` rows and columns with ones on the diagonal, in the numbers of `like`. -/
def identity (n : Nat) (like : Value) : Value :=
  let (zero, one) :=
    match like with
    | .real _ => (Value.real 0.0, Value.real 1.0)
    | _ => (Value.integer 0, Value.integer 1)
  matrix ((List.range n).map fun i => (List.range n).map fun j => if i = j then one else zero) n

/-! ## Filling and nesting -/

/-- The array of the given sizes with every element equal to `v`. -/
def fill (v : Value) : List Nat → Value
  | [] => v
  | 0 :: rest => .array #[] (0 :: rest ++ v.dims)
  | (n + 1) :: rest =>
    let row := fill v rest
    .array (Array.replicate (n + 1) row) ((n + 1) :: row.dims)

/-- Nests a sequence into the given sizes, the outermost first; `make` builds each level. -/
def nest (make : List Value → Value) (flat : List Value) : List Nat → Value
  | [] => make flat
  | [_] => make flat
  | n :: m :: inner =>
    let size := sizeProduct (m :: inner)
    if size = 0 ∨ n = 0 then
      if (make []).isArray then .array #[] (n :: m :: inner) else make []
    else make ((chunks size n flat).map fun piece => nest make piece (m :: inner))

/-! ## Concatenation -/

/-- Whether two lists of sizes agree except at position `k`, counted from one. -/
def agreeExcept : Nat → List Nat → List Nat → Bool
  | _, [], [] => true
  | 1, _ :: ds, _ :: es => ds == es
  | k, d :: ds, e :: es => d == e && agreeExcept (k - 1) ds es
  | _, _, _ => false

/-- The first of some arrays, if they can be concatenated along dimension `k`: there is one, it has
that dimension, and the others have the same sizes in all other dimensions. -/
def joinable (k : Nat) (parts : List Value) : Outcome Value :=
  match parts with
  | [] => (Cause.invalidShape "cat needs at least one array").fail
  | first :: _ =>
    if k = 0 ∨ first.rank < k then
      (Cause.invalidShape
        ("cannot concatenate along dimension " ++ toString k ++ " of a rank "
          ++ toString first.rank ++ " array")).fail
    else
      match parts.find? fun part => !agreeExcept k part.dims first.dims with
      | some part =>
        (Cause.invalidShape
          ("cannot concatenate arrays of sizes " ++ Text.bracketed first.dims ++ " and "
            ++ Text.bracketed part.dims ++ " along dimension " ++ toString k)).fail
      | none => .ok first

/-- The first element of a part; a part that has fewer elements than the first one has none. -/
def firstSlice (elements : List Value) : Outcome Value :=
  match elements with
  | element :: _ => .ok element
  | [] => (Cause.internal "ragged array in concatenation").fail

/-- Joins the first elements of all parts, their second elements and so on, `n` times. -/
def joinSlices (join : List Value → Outcome Value) :
    Nat → List (List Value) → Outcome (List Value)
  | 0, _ => .ok []
  | n + 1, parts => do
    let joined ← join (← parts.mapM firstSlice)
    let others ← joinSlices join n (parts.map List.tail)
    return joined :: others

/-- Concatenates arrays along dimension `k`, counted from one. -/
def concat : Nat → List Value → Outcome Value
  | 0, parts => joinable 0 parts
  | 1, parts => do
    let first ← joinable 1 parts
    let elements := parts.flatMap elementList
    return .array elements.toArray (elements.length :: first.dims.tail)
  | k + 2, parts => do
    let first ← joinable (k + 2) parts
    let joined ← joinSlices (concat (k + 1)) (first.dims.headD 0) (parts.map elementList)
    if joined.isEmpty then
      let total := sizeSum (parts.map fun part => part.dims.getD (k + 1) 0)
      return .array #[] (first.dims.set (k + 1) total)
    else return arrayOf joined

/-- An element of a matrix constructor as a block: a scalar is one by one, a vector a column. -/
def block (v : Value) : Value :=
  match v.dims with
  | [] => arrayOf [arrayOf [v]]
  | [_] => arrayOf (v.flatten.map fun leaf => arrayOf [leaf])
  | _ => v

mutual

/-- Appends `k` dimensions of size one at the end. -/
def appendUnitDims (k : Nat) : Value → Value
  | .array ⟨elements⟩ dims =>
    .array (appendAllUnitDims k elements).toArray (dims ++ List.replicate k 1)
  | leaf => Nat.repeat (fun v => arrayOf [v]) k leaf

def appendAllUnitDims (k : Nat) : List Value → List Value
  | [] => []
  | v :: vs => v.appendUnitDims k :: appendAllUnitDims k vs

end

end ModelicaFold.Value
