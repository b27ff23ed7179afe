import ModelicaFold.Eval.Call
import ModelicaFold.Eval.Reduction
import ModelicaFold.Proofs.Division.Zeros

/-!
# Arithmetic without a guard

Arithmetic on values in which an Integer divided by zero is nothing at all, neither a value nor a
failure. There is a copy of everything that computes with leaves: operators, folds and built-in
functions. All but one are equal to the originals because they do not divide. The exception are the
elementwise operators, which are equal to the originals where the divisor has no zero
(`Unguarded.elementwise_eq`).
-/

namespace ModelicaFold

/-- A computation that is nothing where an Integer is divided by zero. -/
abbrev Unguarded (α : Type) : Type := Except (Option Failure) α

namespace Unguarded

variable {α β : Type}

/-- A computation without such a division. -/
def of (o : Outcome α) : Unguarded α := o.mapError some

/-- A sequence without a guard is the sequence of its parts without one. -/
theorem of_bind (x : Outcome α) (k : α → Outcome β) :
    of (x >>= k) = of x >>= fun a => of (k a) := by
  cases x <;> rfl

/-- Applying a function to the result needs no guard. -/
theorem of_map (x : Outcome α) (f : α → β) : of (x.map f) = (of x).map f := by
  cases x <;> rfl

/-- Mapping a list needs no guard if no step does. -/
theorem mapM_eq {f : α → Unguarded β} {g : α → Outcome β} {items : List α}
    (h : ∀ a ∈ items, f a = of (g a)) : items.mapM f = of (items.mapM g) := by
  induction items with
  | nil => rfl
  | cons a items ih =>
    obtain ⟨ha, hitems⟩ := List.forall_mem_cons.mp h
    rw [List.mapM_cons, List.mapM_cons, of_bind, ha, ih hitems]
    simp only [of_bind]
    rfl

/-- Mapping a list without a guard maps each item without one. -/
theorem of_mapM (f : α → Outcome β) (items : List α) :
    of (items.mapM f) = items.mapM fun a => of (f a) :=
  (mapM_eq fun _ _ => rfl).symm

/-- Folding a list needs no guard if no step does. -/
theorem foldlM_eq (f : β → α → Outcome β) (items : List α) (b : β) :
    items.foldlM (fun b a => of (f b a)) b = of (items.foldlM f b) := by
  induction items generalizing b with
  | nil => rfl
  | cons a items ih => simp only [List.foldlM_cons, of_bind, ih]

/-- A choice without a guard is one between branches without one. -/
theorem of_ite (c : Prop) [Decidable c] (x y : Outcome α) :
    of (if c then x else y) = if c then of x else of y := apply_ite of c x y

/-! ## Scalars -/

/-- Arithmetic on Integers. -/
def integerArith (op : Arith) (a b : Int) : Unguarded Value :=
  match op with
  | .div => if b = 0 then .error none else of (inRange op.name (a.tdiv b))
  | op => of (Value.integerArith op a b)

/-- Arithmetic on two scalars of one kind. -/
def scalarArith (op : Arith) (lhs rhs : Value) : Unguarded Value :=
  match lhs, rhs with
  | .integer a, .integer b => integerArith op a b
  | lhs, rhs => of (Value.scalarArith op lhs rhs)

/-- Scalar arithmetic needs no guard where it divides by nothing that is zero. -/
theorem scalarArith_eq {op : Arith} {a b : Value} (h : op = .div → b.isZero = false) :
    scalarArith op a b = of (Value.scalarArith op a b) := by
  unfold scalarArith
  split
  · rename_i a b
    cases op with
    | div =>
      have hb : b ≠ 0 := by simpa [Value.isZero] using h rfl
      simp only [integerArith, Value.scalarArith, Value.integerArith, if_neg hb]
    | _ => rfl
  · rfl

/-- Scalar arithmetic other than division needs no guard. -/
theorem scalarArith_of_ne {op : Arith} (h : op ≠ .div) :
    scalarArith op = fun a b => of (Value.scalarArith op a b) := by
  funext a b
  exact scalarArith_eq fun hdiv => absurd hdiv h

/-! ## Leaves -/

/-- Mapping the leaves of a value needs no guard if no leaf does. -/
theorem mapLeaves_eq {f : Value → Unguarded Value} {g : Value → Outcome Value} {v : Value}
    (h : ∀ leaf ∈ v.flatten, f leaf = of (g leaf)) : v.mapLeaves f = of (v.mapLeaves g) := by
  induction v using Value.arrayInduction with
  | leaf v hleaf =>
    rw [Value.mapLeaves_leaf hleaf, Value.mapLeaves_leaf hleaf]
    exact h v (by simp [Value.flatten_leaf hleaf])
  | array elements dims ih =>
    rw [Value.flatten, Value.flattenAll_eq_flatMap] at h
    have helements : elements.mapM (Value.mapLeaves f) = of (elements.mapM (Value.mapLeaves g)) :=
      mapM_eq fun v hv => ih v hv fun leaf hleaf => h leaf (List.mem_flatMap.mpr ⟨v, hv, hleaf⟩)
    rw [Value.mapLeaves, Value.mapLeaves, Value.mapAllLeaves_eq_mapM, Value.mapAllLeaves_eq_mapM,
      helements, of_map]

/-- Combining lists of values needs no guard if no pair of values does. -/
theorem zipAllLeaves_eq {f : Value → Value → Unguarded Value} {g : Value → Value → Outcome Value}
    {xs ys : List Value}
    (h : ∀ x ∈ xs, ∀ y ∈ ys, x.zipLeaves f y = (x.zipLeaves g y).map of) :
    Value.zipAllLeaves f xs ys = (Value.zipAllLeaves g xs ys).map of := by
  induction xs generalizing ys with
  | nil => cases ys <;> rfl
  | cons x xs ih =>
    cases ys with
    | nil => rfl
    | cons y ys =>
      rw [Value.zipAllLeaves, Value.zipAllLeaves, h x List.mem_cons_self y List.mem_cons_self,
        ih fun x' hx y' hy => h x' (List.mem_cons_of_mem x hx) y' (List.mem_cons_of_mem y hy)]
      rcases x.zipLeaves g y with - | - | z
      · rfl
      · rfl
      · rcases Value.zipAllLeaves g xs ys with - | - | zs <;> rfl

/-- Combining two values needs no guard if no pair of leaves does. -/
theorem zipLeaves_eq {f : Value → Value → Unguarded Value} {g : Value → Value → Outcome Value}
    {v w : Value} (h : ∀ x ∈ v.flatten, ∀ y ∈ w.flatten, f x y = of (g x y)) :
    v.zipLeaves f w = (v.zipLeaves g w).map of := by
  induction v using Value.arrayInduction generalizing w with
  | leaf v hleaf =>
    cases hw : w.isArray with
    | true =>
      cases w with
      | array elements dims =>
        rw [Value.zipLeaves_leaf_array hleaf, Value.zipLeaves_leaf_array hleaf]
        rfl
      | _ => cases hw
    | false =>
      rw [Value.zipLeaves_leaves hleaf hw, Value.zipLeaves_leaves hleaf hw,
        h v (by simp [Value.flatten_leaf hleaf]) w (by simp [Value.flatten_leaf hw])]
      rfl
  | array elements dims ih =>
    cases w with
    | array others dims' =>
      obtain ⟨others⟩ := others
      rw [Value.flatten, Value.flatten, Value.flattenAll_eq_flatMap,
        Value.flattenAll_eq_flatMap] at h
      have hall : Value.zipAllLeaves f elements others
          = (Value.zipAllLeaves g elements others).map of :=
        zipAllLeaves_eq fun x hx y hy => ih x hx fun a ha b hb =>
          h a (List.mem_flatMap.mpr ⟨x, hx, ha⟩) b (List.mem_flatMap.mpr ⟨y, hy, hb⟩)
      rw [Value.zipLeaves, Value.zipLeaves, hall]
      split
      · rw [Option.map_map, Option.map_map]
        congr 1
        funext o
        exact (of_map o _).symm
      · rfl
    | _ => rfl

/-! ## Operators -/

/-- What a combination of leaves gives, or a failure for operands of different shapes. -/
def orShape (zipped : Option (Unguarded Value)) (message : String) : Unguarded Value :=
  zipped.getD (of (Cause.invalidShape message).fail)

/-- The sum of the products of the elements of two vectors. -/
def dotProduct (a b : List Value) : Unguarded Value :=
  if a.length ≠ b.length then
    of (Cause.invalidShape
      ("scalar product of vectors of sizes " ++ toString a.length ++ " and "
        ++ toString b.length)).fail
  else
    (a.zip b).foldlM
      (fun sum (x, y) => do scalarArith .add sum (← scalarArith .mul x y))
      ((a.head?.map Value.zeroLike).getD (.integer 0))

/-- The scalar product of two vectors. -/
def scalarProduct (lhs rhs : Value) : Unguarded Value := do
  dotProduct (← of (Value.vectorElements lhs)) (← of (Value.vectorElements rhs))

/-- The product of a matrix with a vector, a vector with a matrix, two matrices or two vectors. -/
def matrixProduct (lhs rhs : Value) : Unguarded Value :=
  match lhs.isMatrix, rhs.isMatrix with
  | true, false => do
    let rows ← of (Value.matrixRows lhs)
    let v ← of (Value.vectorElements rhs)
    return Value.vector (← rows.mapM fun row => dotProduct row v)
  | false, true => do
    let v ← of (Value.vectorElements lhs)
    let columns ← of (Value.matrixColumns rhs)
    return Value.vector (← columns.mapM fun column => dotProduct v column)
  | true, true => do
    let rows ← of (Value.matrixRows lhs)
    let columns ← of (Value.matrixColumns rhs)
    return Value.matrix (← rows.mapM fun row => columns.mapM fun column => dotProduct row column)
      columns.length
  | false, false => scalarProduct lhs rhs

/-- `acc` times `base` to the power `n`. -/
def powerFrom (acc base : Value) (n : Nat) : Unguarded Value :=
  if n = 0 then pure acc
  else do
    let acc ← if n % 2 = 1 then matrixProduct acc base else pure acc
    if n / 2 = 0 then pure acc
    else do powerFrom acc (← matrixProduct base base) (n / 2)
termination_by n

/-- A square matrix to a non-negative Integer power. -/
def matrixPower (lhs rhs : Value) : Unguarded Value :=
  match rhs with
  | .integer n =>
    match lhs.dims with
    | [rows, columns] =>
      if rows ≠ columns then of (Value.matrixPower.notSquare lhs)
      else if n < 0 then of (Cause.invalidArgument "^" "matrix exponent must be non-negative").fail
      else powerFrom (Value.identity rows ((lhs.flatten.head?).getD (.integer 0))) lhs n.toNat
    | _ => of (Value.matrixPower.notSquare lhs)
  | other => of (Cause.internal ("matrix power with a " ++ other.kind ++ " exponent")).fail

/-- Arithmetic on operands of the announced shapes. -/
def elementwise (op : Arith) (operands : Operands) (lhs rhs : Value) : Unguarded Value :=
  match operands with
  | .scalars =>
    if lhs.isArray || rhs.isArray then
      of (Cause.internal
        ("scalar operator `" ++ (BinaryOp.arith op operands).symbol
          ++ "` applied to an array")).fail
    else scalarArith op lhs rhs
  | .arrays =>
    orShape (lhs.zipLeaves (scalarArith op) rhs)
      ("operands of `" ++ (BinaryOp.arith op operands).symbol ++ "` have sizes "
        ++ Text.bracketed lhs.dims ++ " and " ++ Text.bracketed rhs.dims)
  | .arrayScalar => lhs.mapLeaves fun a => scalarArith op a rhs
  | .scalarArray => rhs.mapLeaves fun b => scalarArith op lhs b

/-- A binary operator applied to values. -/
def binary (op : BinaryOp) (lhs rhs : Value) : Unguarded Value :=
  match op with
  | .arith op operands => elementwise op operands lhs rhs
  | .concat => of (Value.concatStrings lhs rhs)
  | .scalarProduct => scalarProduct lhs rhs
  | .matrixProduct => matrixProduct lhs rhs
  | .matrixPower => matrixPower lhs rhs

/-- A mismatch of shapes is reported as with a guard. -/
theorem orShape_eq (zipped : Option (Outcome Value)) (message : String) :
    orShape (zipped.map of) message = of (Value.orShape zipped message) := by
  cases zipped <;> rfl

/-- A dot product needs no guard. -/
theorem dotProduct_eq (a b : List Value) : dotProduct a b = of (Value.dotProduct a b) := by
  unfold dotProduct Value.dotProduct
  rw [of_ite, ← foldlM_eq]
  simp only [of_bind, scalarArith_of_ne (by decide : Arith.add ≠ .div),
    scalarArith_of_ne (by decide : Arith.mul ≠ .div)]

/-- A product of vectors needs no guard. -/
theorem scalarProduct_eq (lhs rhs : Value) :
    scalarProduct lhs rhs = of (Value.scalarProduct lhs rhs) := by
  simp only [scalarProduct, Value.scalarProduct, of_bind, dotProduct_eq]

/-- A product of matrices needs no guard. -/
theorem matrixProduct_eq (lhs rhs : Value) :
    matrixProduct lhs rhs = of (Value.matrixProduct lhs rhs) := by
  unfold matrixProduct Value.matrixProduct
  cases lhs.isMatrix <;> cases rhs.isMatrix
  case false.false => exact scalarProduct_eq lhs rhs
  all_goals
    simp only [of_bind, of_mapM, dotProduct_eq]
    rfl

/-- Repeated multiplication needs no guard. -/
theorem powerFrom_eq (acc base : Value) (n : Nat) :
    powerFrom acc base n = of (Value.powerFrom acc base n) := by
  induction n using Nat.strongRecOn generalizing acc base with
  | _ n ih =>
    rw [powerFrom, Value.powerFrom]
    by_cases hn : n = 0
    · rw [if_pos hn, if_pos hn]
      rfl
    · have hhalf : n / 2 < n := by omega
      rw [if_neg hn, if_neg hn]
      simp only [of_bind, of_ite, matrixProduct_eq, ih _ hhalf]
      rfl

/-- A power of a matrix needs no guard. -/
theorem matrixPower_eq (lhs rhs : Value) :
    matrixPower lhs rhs = of (Value.matrixPower lhs rhs) := by
  cases rhs with
  | integer n =>
    simp only [matrixPower, Value.matrixPower]
    rcases lhs.dims with - | ⟨rows, - | ⟨columns, - | ⟨d, inner⟩⟩⟩
    case cons.cons.nil => simp only [of_ite, powerFrom_eq]
    all_goals rfl
  | _ => rfl

/-- Where there is no zero among the leaves of the divisor, nothing is divided by zero. -/
theorem elementwise_eq {op : Arith} (operands : Operands) (a : Value) {b : Value}
    (h : op = .div → b.hasZero = false) :
    elementwise op operands a b = of (Value.elementwise op operands a b) := by
  have hwhole : ∀ x, scalarArith op x b = of (Value.scalarArith op x b) := fun x =>
    scalarArith_eq fun hop => Value.isZero_eq_false (h hop)
  have hleaf : ∀ x, ∀ y ∈ b.flatten, scalarArith op x y = of (Value.scalarArith op x y) :=
    fun x y hy => scalarArith_eq fun hop => Value.isZero_of_mem_flatten (h hop) y hy
  cases operands with
  | scalars => simp only [elementwise, Value.elementwise, of_ite, hwhole]
  | arrays =>
    simp only [elementwise, Value.elementwise, ← orShape_eq]
    rw [zipLeaves_eq fun x _ y hy => hleaf x y hy]
  | arrayScalar => exact mapLeaves_eq fun x _ => hwhole x
  | scalarArray => exact mapLeaves_eq fun y hy => hleaf a y hy

/-- A binary operator needs no guard unless it divides by an operand with a zero. -/
theorem binary_eq {op : BinaryOp} (a : Value) {b : Value}
    (h : (op.isDivision && b.hasZero) = false) : binary op a b = of (Value.binary op a b) := by
  cases op with
  | arith op operands =>
    refine elementwise_eq operands a fun hop => ?_
    subst hop
    simpa [BinaryOp.isDivision] using h
  | concat => rfl
  | scalarProduct => exact scalarProduct_eq a b
  | matrixProduct => exact matrixProduct_eq a b
  | matrixPower => exact matrixPower_eq a b

/-! ## Folds -/

/-- The sum or product of the result so far and the next value, leaf by leaf for arrays. -/
def foldNumbers (op : Arith) (acc next : Value) : Unguarded Value :=
  if acc.isArray || next.isArray then
    orShape (acc.zipLeaves (scalarArith op) next)
      ("reduction over arrays of sizes " ++ Text.bracketed acc.dims ++ " and "
        ++ Text.bracketed next.dims)
  else if acc.number?.isNone then
    of (Cause.internal
      ("reduction accumulator is " ++ acc.kind ++ ", expected a number")).fail
  else scalarArith op acc next

/-- A fold by name alone. -/
def foldNamed (name : String) (acc next : Value) : Unguarded Value :=
  if name = "sum" then foldNumbers .add acc next
  else if name = "product" then foldNumbers .mul acc next
  else of (Value.foldNamed name acc next)

/-- A step of a sum or product needs no guard. -/
theorem foldNumbers_eq (op : Arith) (hop : op ≠ .div) (acc next : Value) :
    foldNumbers op acc next = of (Value.foldNumbers op acc next) := by
  have hleaf : ∀ x y, scalarArith op x y = of (Value.scalarArith op x y) := fun _ _ =>
    scalarArith_eq fun hdiv => absurd hdiv hop
  have hleaves : acc.zipLeaves (scalarArith op) next
      = (acc.zipLeaves (Value.scalarArith op) next).map of :=
    zipLeaves_eq fun x _ y _ => hleaf x y
  simp only [foldNumbers, Value.foldNumbers, of_ite, ← orShape_eq, hleaves, hleaf]

/-- A step of a reduction with a known name needs no guard. -/
theorem foldNamed_eq (name : String) (acc next : Value) :
    foldNamed name acc next = of (Value.foldNamed name acc next) := by
  unfold foldNamed
  split
  · rename_i hname
    rw [foldNumbers_eq .add (by decide), Value.foldNamed, if_pos hname]
  · split
    · rename_i hsum hname
      rw [foldNumbers_eq .mul (by decide), Value.foldNamed, if_neg hsum, if_pos hname]
    · rfl

/-! ## Built-in functions -/

/-- A function of evaluated arguments. -/
abbrev Function := List Value → Unguarded Value

/-- The sum or product of all leaves, from the first on. -/
def foldLeaves (name : String) (op : Arith) : Function := fun args => do
  of (Builtin.takes name 1 args)
  let leaves := (← of (Builtin.arg name args 0)).flatten
  leaves.foldlM (scalarArith op) (Builtin.neutral op (leaves.headD (.integer 0)))

/-- The product of two leaves. -/
def mul (a b : Value) : Unguarded Value := scalarArith .mul a b

/-- The difference of two leaves. -/
def sub (a b : Value) : Unguarded Value := scalarArith .sub a b

/-- The determinant of the matrix with rows `a`, `b` and `c`, `d`. -/
def minor (a b c d : Value) : Unguarded Value := do
  let ad ← mul a d
  let bc ← mul b c
  sub ad bc

/-- The vector product. -/
def cross : Function := fun args => do
  of (Builtin.takes "cross" 2 args)
  let (x₁, x₂, x₃) ← of (Builtin.triple "cross" args 0)
  let (y₁, y₂, y₃) ← of (Builtin.triple "cross" args 1)
  return Value.vector [← minor x₂ x₃ y₂ y₃, ← minor x₃ x₁ y₃ y₁, ← minor x₁ x₂ y₁ y₂]

/-- The matrix whose product with a vector is the vector product. -/
def skew : Function := fun args => do
  of (Builtin.takes "skew" 1 args)
  let (x₁, x₂, x₃) ← of (Builtin.triple "skew" args 0)
  let zero := Value.zeroLike x₁
  let minus₃ ← sub zero x₃
  let minus₁ ← sub zero x₁
  let minus₂ ← sub zero x₂
  return Value.matrix [[zero, minus₃, x₂], [x₃, zero, minus₁], [minus₂, x₁, zero]] 3

/-- The products of every element of one vector with every element of another. -/
def outerProduct : Function := fun args => do
  of (Builtin.takes "outerProduct" 2 args)
  let x := (← of (Builtin.elementsArg "outerProduct" args 0)).toList
  let y := (← of (Builtin.elementsArg "outerProduct" args 1)).toList
  return Value.matrix (← x.mapM fun a => y.mapM (mul a)) y.length

/-- The functions that compute with leaves, by name. -/
def functions : List (String × Function) := [
  ("cross", cross),
  ("outerProduct", outerProduct),
  ("product", foldLeaves "product" .mul),
  ("skew", skew),
  ("sum", foldLeaves "sum" .add)]

/-- A sum or product of leaves needs no guard. -/
theorem foldLeaves_eq (name : String) {op : Arith} (hop : op ≠ .div) (args : List Value) :
    foldLeaves name op args = of (Builtin.foldLeaves name op args) := by
  simp only [foldLeaves, Builtin.foldLeaves, of_bind, scalarArith_of_ne hop, foldlM_eq]

/-- A product of two numbers needs no guard. -/
theorem mul_eq (a b : Value) : mul a b = of (Builtin.mul a b) := scalarArith_eq nofun

/-- A difference of two numbers needs no guard. -/
theorem sub_eq (a b : Value) : sub a b = of (Builtin.sub a b) := scalarArith_eq nofun

/-- A determinant of two rows and columns needs no guard. -/
theorem minor_eq (a b c d : Value) : minor a b c d = of (Builtin.minor a b c d) := by
  simp only [minor, Builtin.minor, of_bind, mul_eq, sub_eq]

/-- A cross product needs no guard. -/
theorem cross_eq (args : List Value) : cross args = of (Builtin.cross args) := by
  simp only [cross, Builtin.cross, of_bind, minor_eq]
  rfl

/-- A skew matrix needs no guard. -/
theorem skew_eq (args : List Value) : skew args = of (Builtin.skew args) := by
  simp only [skew, Builtin.skew, of_bind, sub_eq]
  rfl

/-- An outer product needs no guard. -/
theorem outerProduct_eq (args : List Value) :
    outerProduct args = of (Builtin.outerProduct args) := by
  have hmul : ∀ a, mul a = fun b => of (Builtin.mul a b) := fun a => funext (mul_eq a)
  simp only [outerProduct, Builtin.outerProduct, of_bind, of_mapM, hmul]
  rfl

/-- The built-in functions that compute with leaves need no guard. -/
theorem functions_eq :
    ∀ entry ∈ functions, ∃ g, Builtin.baseTable.lookup entry.1 = some (.ofValues g)
      ∧ ∀ args, entry.2 args = of (g args) := by
  simp only [functions, List.forall_mem_cons, List.not_mem_nil, false_implies, implies_true,
    and_true]
  exact ⟨⟨_, rfl, cross_eq⟩, ⟨_, rfl, outerProduct_eq⟩, ⟨_, rfl, foldLeaves_eq _ (by decide)⟩,
    ⟨_, rfl, skew_eq⟩, ⟨_, rfl, foldLeaves_eq _ (by decide)⟩⟩

end Unguarded

end ModelicaFold
