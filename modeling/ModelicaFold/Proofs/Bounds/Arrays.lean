import ModelicaFold.Proofs.Bounds.Access
import ModelicaFold.Proofs.Shape.Concat
import ModelicaFold.Value.Range

/-!
# Arrays read directly

Transposition, concatenation, powers of matrices and ranges with the sizes of their operands read at
offsets. What is tested before, a number of dimensions or the agreement of sizes, keeps all of these
reads in bounds, whatever arrays they are given: that the sizes are in step with the nesting is not
needed.
-/

namespace ModelicaFold.Direct

open Access (InBounds)
open Value (joinable joinSlices firstSlice agreeExcept elementList)

/-! ## Transposition -/

/-- The array with its first two dimensions swapped. -/
def transpose? (v : Value) : Access (Option Value) :=
  match v.rows? with
  | none => pure none
  | some rows =>
    if v.dims.length < 2 then pure none
    else do
      let n ← Access.item v.dims 0
      let m ← Access.item v.dims 1
      let inner ← Access.slice v.dims 2 v.dims.length
      return (Value.columns? rows m).map fun columns =>
        .array (columns.map fun column => .array column.toArray (n :: inner)).toArray
          (m :: n :: inner)

/-- Transposing reads sizes in bounds. -/
theorem transpose?_inBounds (v : Value) : InBounds (transpose? v) (pure v.transpose?) := by
  unfold transpose? Value.transpose?
  cases v.rows? with
  | none => rfl
  | some rows =>
    match v.dims with
    | [] => rfl
    | [_] => rfl
    | n :: m :: inner =>
      show InBounds (if inner.length + 1 + 1 < 2 then _ else _) _
      rw [if_neg (by omega)]
      refine .read (Access.inBounds_item rfl) (.read (Access.inBounds_item rfl) ?_)
      exact .read (Access.slice_length (by simp)) rfl

/-! ## Concatenation -/

/-- Joins the first elements of all parts, their second elements and so on, `n` times. -/
def joinSlices (join : List Value → Access Value) :
    Nat → List (List Value) → Access (List Value)
  | 0, _ => pure []
  | n + 1, parts => do
    let slices ← Access.of (parts.mapM firstSlice)
    let joined ← join slices
    let others ← joinSlices join n (parts.map List.tail)
    return joined :: others

/-- Concatenates arrays along dimension `k`, counted from one. -/
def concat : Nat → List Value → Access Value
  | 0, parts => Access.of (joinable 0 parts)
  | 1, parts => do
    let first ← Access.of (joinable 1 parts)
    let elements := parts.flatMap elementList
    let dims ← Access.set first.dims 0 elements.length
    return .array elements.toArray dims
  | k + 2, parts => do
    let first ← Access.of (joinable (k + 2) parts)
    let rows ← Access.item first.dims 0
    let joined ← joinSlices (concat (k + 1)) rows (parts.map elementList)
    if joined.isEmpty then do
      let sizes ← parts.mapM fun part => Access.item part.dims (k + 1)
      let dims ← Access.set first.dims (k + 1) (sizeSum sizes)
      return .array #[] dims
    else return Value.arrayOf joined

/-- Joining slices stays in bounds if joining the parts of each does. -/
theorem joinSlices_inBounds {join : List Value → Access Value} {join' : List Value → Outcome Value}
    (h : ∀ parts, InBounds (join parts) (join' parts)) (n : Nat) (parts : List (List Value)) :
    InBounds (joinSlices join n parts) (Value.joinSlices join' n parts) := by
  induction n generalizing parts with
  | zero => rfl
  | succ n ih =>
    refine .bind (Access.inBounds_of _) fun slices _ => .bind (h slices) fun joined _ => ?_
    exact .bind (ih _) fun others _ => rfl

/-- Sizes that agree except at one position are as many. -/
theorem length_of_agreeExcept {k : Nat} {ds es : List Nat} (h : agreeExcept k ds es = true) :
    ds.length = es.length := by
  induction ds generalizing k es with
  | nil =>
    cases es with
    | nil => rfl
    | cons e es => simp [agreeExcept] at h
  | cons d ds ih =>
    cases es with
    | nil => simp [agreeExcept] at h
    | cons e es =>
      rw [List.length_cons, List.length_cons]
      by_cases hk : k = 1
      · subst hk
        simp only [agreeExcept, beq_iff_eq] at h
        rw [h]
      · rw [agreeExcept.eq_3 k d ds e es hk, Bool.and_eq_true] at h
        rw [ih h.2]

/-- Where there are dimensions there is a first size. -/
theorem item_first {dims : List Nat} (h : 0 < dims.length) :
    Access.item dims 0 = pure (dims.headD 0) := by
  cases dims with
  | nil => cases h
  | cons n inner => rfl

/-- Concatenation reads sizes in bounds. -/
theorem concat_inBounds (k : Nat) (parts : List Value) :
    InBounds (concat k parts) (Value.concat k parts) := by
  match k with
  | 0 => rfl
  | 1 =>
    refine .bind (Access.inBounds_of _) fun first hfirst => ?_
    obtain ⟨-, -, hrank, -⟩ := Value.joinable_eq_ok hfirst
    cases hdims : first.dims with
    | nil =>
      rw [Value.rank, hdims] at hrank
      cases hrank
    | cons n inner => exact .read (Access.set_eq (Nat.zero_lt_succ _) _) rfl
  | k + 2 =>
    refine .bind (Access.inBounds_of _) fun first hfirst => ?_
    obtain ⟨-, -, hrank, hagree⟩ := Value.joinable_eq_ok hfirst
    have hlength : ∀ part ∈ parts, k + 1 < part.dims.length := fun part hpart => by
      rw [length_of_agreeExcept (hagree part hpart)]
      exact hrank
    refine .read (item_first (Nat.zero_lt_of_lt hrank)) ?_
    refine .bind (joinSlices_inBounds (concat_inBounds (k + 1)) _ _) fun joined _ => ?_
    refine .ite (fun _ => ?_) fun _ => rfl
    have hsizes : InBounds (parts.mapM fun part => Access.item part.dims (k + 1))
        (pure (parts.map fun part => part.dims.getD (k + 1) 0)) := by
      refine .mapM_pure fun part hpart => Access.inBounds_item ?_
      rw [List.getD_eq_getElem?_getD, List.getElem?_eq_getElem (hlength part hpart)]
      rfl
    exact .read hsizes (.read (Access.set_eq hrank _) rfl)

/-- The row of a matrix constructor as a matrix. -/
def rowBlock (values : List Value) : Access Value :=
  if values.all fun v => !v.isArray then pure (Value.arrayOf [Value.arrayOf values])
  else concat 2 (values.map Value.block)

/-- The block of a row is made in bounds. -/
theorem rowBlock_inBounds (values : List Value) :
    InBounds (rowBlock values) (Steps.rowBlock values) :=
  .ite (fun _ => rfl) fun _ => concat_inBounds 2 _

/-! ## Products and powers -/

/-- The columns of a matrix operand. -/
def matrixColumns (m : Value) : Access (List (List Value)) := do
  match ← transpose? m with
  | some t => return t.elementList.map elementList
  | none => Access.of (Cause.internal "matrix operand is not rectangular").fail

/-- The columns of a factor are read in bounds. -/
theorem matrixColumns_inBounds (m : Value) :
    InBounds (matrixColumns m) (Value.matrixColumns m) := by
  refine .read (transpose?_inBounds m) ?_
  unfold Value.matrixColumns
  cases m.transpose? <;> rfl

/-- The product of a matrix with a vector, a vector with a matrix, two matrices or two vectors. -/
def matrixProduct (lhs rhs : Value) : Access Value :=
  match lhs.isMatrix, rhs.isMatrix with
  | false, true => do
    let v ← Access.of (Value.vectorElements lhs)
    let columns ← matrixColumns rhs
    let entries ← Access.of (columns.mapM fun column => Value.dotProduct v column)
    return Value.vector entries
  | true, true => do
    let rows ← Access.of (Value.matrixRows lhs)
    let columns ← matrixColumns rhs
    let entries ← Access.of
      (rows.mapM fun row => columns.mapM fun column => Value.dotProduct row column)
    return Value.matrix entries columns.length
  | _, _ => Access.of (Value.matrixProduct lhs rhs)

/-- A product of matrices is in bounds. -/
theorem matrixProduct_inBounds (lhs rhs : Value) :
    InBounds (matrixProduct lhs rhs) (Value.matrixProduct lhs rhs) := by
  unfold matrixProduct Value.matrixProduct
  cases lhs.isMatrix <;> cases rhs.isMatrix
  case false.true =>
    refine .bind (Access.inBounds_of _) fun v _ => ?_
    refine .bind (matrixColumns_inBounds rhs) fun columns _ => ?_
    exact .bind (Access.inBounds_of _) fun entries _ => rfl
  case true.true =>
    refine .bind (Access.inBounds_of _) fun rows _ => ?_
    refine .bind (matrixColumns_inBounds rhs) fun columns _ => ?_
    exact .bind (Access.inBounds_of _) fun entries _ => rfl
  all_goals rfl

/-- `acc` times `base` to the power `n`. -/
def powerFrom (acc base : Value) (n : Nat) : Access Value :=
  if n = 0 then pure acc
  else do
    let acc ← if n % 2 = 1 then matrixProduct acc base else pure acc
    if n / 2 = 0 then pure acc
    else do
      let square ← matrixProduct base base
      powerFrom acc square (n / 2)
termination_by n

/-- Repeated multiplication is in bounds. -/
theorem powerFrom_inBounds (acc base : Value) (n : Nat) :
    InBounds (powerFrom acc base n) (Value.powerFrom acc base n) := by
  induction n using Nat.strongRecOn generalizing acc base with
  | _ n ih =>
    rw [powerFrom, Value.powerFrom]
    have hnext : ∀ acc, InBounds
        (if n / 2 = 0 then pure acc
        else matrixProduct base base >>= fun square => powerFrom acc square (n / 2))
        (if n / 2 = 0 then .ok acc
        else base.matrixProduct base >>= fun square => Value.powerFrom acc square (n / 2)) := by
      intro acc
      refine .ite (fun _ => rfl) fun _ => ?_
      exact .bind (matrixProduct_inBounds base base) fun square _ => ih _ (by omega) acc square
    refine .ite (fun _ => rfl) fun _ => .ite (fun _ => ?_) fun _ => hnext acc
    exact .bind (matrixProduct_inBounds acc base) fun acc _ => hnext acc

/-- Whether the sizes are those of a square matrix. -/
def isSquare (dims : List Nat) : Access Bool :=
  if dims.length ≠ 2 then pure false
  else do
    let rows ← Access.item dims 0
    let columns ← Access.item dims 1
    return rows == columns

/-- A square matrix to a non-negative Integer power. -/
def matrixPower (lhs rhs : Value) : Access Value :=
  match rhs with
  | .integer n => do
    let square ← isSquare lhs.dims
    if !square then Access.of (Value.matrixPower.notSquare lhs)
    else if n < 0 then
      Access.of (Cause.invalidArgument "^" "matrix exponent must be non-negative").fail
    else do
      let rows ← Access.item lhs.dims 0
      powerFrom (Value.identity rows ((lhs.flatten.head?).getD (.integer 0))) lhs n.toNat
  | other => Access.of (Value.matrixPower lhs other)

/-- A power of a matrix reads sizes in bounds. -/
theorem matrixPower_inBounds (lhs rhs : Value) :
    InBounds (matrixPower lhs rhs) (Value.matrixPower lhs rhs) := by
  cases rhs with
  | integer n =>
    simp only [matrixPower, Value.matrixPower]
    rcases lhs.dims with - | ⟨rows, - | ⟨columns, - | ⟨d, inner⟩⟩⟩
    case cons.cons.nil =>
      have hsquare : InBounds (isSquare [rows, columns]) (pure (rows == columns)) := rfl
      refine .read hsquare ?_
      dsimp only
      by_cases hrows : rows = columns
      · rw [beq_iff_eq.mpr hrows, if_neg (not_not.mpr hrows), Bool.not_true,
          if_neg Bool.false_ne_true]
        have hpower : InBounds (Access.item [rows, columns] 0 >>= fun rows =>
            powerFrom (Value.identity rows ((lhs.flatten.head?).getD (.integer 0))) lhs n.toNat)
            (Value.powerFrom (Value.identity rows ((lhs.flatten.head?).getD (.integer 0))) lhs
              n.toNat) :=
          .read (Access.inBounds_item rfl) (powerFrom_inBounds _ _ _)
        exact .ite (fun _ => rfl) fun _ => hpower
      · rw [beq_eq_false_iff_ne.mpr hrows, if_pos hrows]
        rfl
    all_goals rfl
  | _ => rfl

/-- A binary operator applied to values. -/
def binary (op : BinaryOp) (lhs rhs : Value) : Access Value :=
  match op with
  | .matrixProduct => matrixProduct lhs rhs
  | .matrixPower => matrixPower lhs rhs
  | op => Access.of (Value.binary op lhs rhs)

/-- Every binary operator is in bounds. -/
theorem binary_inBounds (op : BinaryOp) (lhs rhs : Value) :
    InBounds (binary op lhs rhs) (Value.binary op lhs rhs) := by
  cases op with
  | matrixProduct => exact matrixProduct_inBounds lhs rhs
  | matrixPower => exact matrixPower_inBounds lhs rhs
  | _ => rfl

/-! ## Ranges -/

/-- An Integer range. The distance is divided by a step that was compared with zero. -/
def integerRange (a step b : Int) : Access (Array Value) :=
  if step = 0 then Access.of Value.zeroStep
  else do
    let count ← Access.quotient (b - a) step
    let n ← Access.of (rangeLength (count + 1))
    return (Array.range n).map fun (i : Nat) => .integer (wrapInteger (a + i * step))

/-- A range of Integers is divided by a step other than zero. -/
theorem integerRange_inBounds (a step b : Int) :
    InBounds (integerRange a step b) (Value.integerRange a step b) := by
  refine .ite (fun _ => rfl) fun hstep => .read (Access.quotient_eq hstep) ?_
  exact .bind (Access.inBounds_of _) fun n _ => rfl

/-- The elements of a range. -/
def rangeElements (start : Value) (step : Option Value) (stop : Value) (ty : Ty) :
    Access (Array Value) :=
  match start, stop with
  | .integer a, .integer b => do
    let d ← Access.of (Value.rangeStep Value.integer? 1 "Integer" step)
    integerRange a d b
  | _, _ => Access.of (Value.rangeElements start step stop ty)

/-- The elements of a range are found in bounds. -/
theorem rangeElements_inBounds (start : Value) (step : Option Value) (stop : Value) (ty : Ty) :
    InBounds (rangeElements start step stop ty) (Value.rangeElements start step stop ty) := by
  unfold rangeElements
  split
  · rename_i a b
    exact .bind (Access.inBounds_of _) fun d _ => integerRange_inBounds a d b
  · rfl

end ModelicaFold.Direct
