import ModelicaFold.Eval.Call
import ModelicaFold.Proofs.Bounds.Arrays
import ModelicaFold.Proofs.Shape.Builtins

/-!
# Array functions with their arguments read directly

The elements of vectors and matrices are read at offsets below a number of elements that was
compared or counted before, and a function of at least one argument takes the others for granted.
-/

namespace ModelicaFold.Direct

open Access (InBounds)
open Builtin (takes arg elementsArg)

/-- A function of evaluated arguments. -/
abbrev Function := List Value → Access Value

/-- A function stays in bounds, whatever its arguments. -/
def Keeps (f : Function) (g : Builtin.Function) : Prop := ∀ args, InBounds (f args) (g args)

/-! ## Vectors -/

/-- The square matrix with the elements of a vector on its diagonal. -/
def diagonal : Function := fun args => do
  Access.of (takes "diagonal" 1 args)
  let elements ← Access.of (elementsArg "diagonal" args 0)
  let v := elements.toList
  let rows ← (List.range v.length).mapM fun i => (List.range v.length).mapM fun j => do
    let x ← Access.item v i
    return if i = j then x else Value.zeroLike x
  return Value.matrix rows v.length

/-- A diagonal matrix reads the elements of its vector in bounds. -/
theorem keeps_diagonal : Keeps diagonal Builtin.diagonal := by
  intro args
  refine .bind (Access.inBounds_of _) fun _ _ => .bind (Access.inBounds_of _) fun elements _ => ?_
  generalize elements.toList = v
  have hrows : InBounds
      ((List.range v.length).mapM fun i => (List.range v.length).mapM fun j =>
        Access.item v i >>= fun x => pure (if i = j then x else Value.zeroLike x))
      (pure (v.mapIdx fun i x =>
        (List.range v.length).map fun j => if i = j then x else Value.zeroLike x)) := by
    refine .mapM_range_of_length List.length_mapIdx fun i row hrow => ?_
    rw [List.getElem?_mapIdx] at hrow
    obtain ⟨x, hx, rfl⟩ := Option.map_eq_some_iff.mp hrow
    exact .mapM_pure fun j _ => .read (Access.inBounds_item hx) rfl
  exact .read hrows rfl

/-- The elements of a vector argument of size three. -/
def three (name : String) (args : List Value) (i : Nat) : Outcome (List Value) := do
  let v := (← elementsArg name args i).toList
  if v.length ≠ 3 then
    (Cause.invalidShape
      ("`" ++ name ++ "` needs vectors of size 3, got " ++ toString v.length)).fail
  else return v

/-- A vector of size three is one of three elements. -/
theorem three_bind {α : Type} {name : String} {args : List Value} {i : Nat}
    {k : List Value → Access α} {l : Value × Value × Value → Outcome α}
    (h : ∀ a b c, InBounds (k [a, b, c]) (l (a, b, c))) :
    InBounds (Access.of (three name args i) >>= k) (Builtin.triple name args i >>= l) := by
  simp only [three, Builtin.triple]
  cases elementsArg name args i with
  | error f => rfl
  | ok elements =>
    simp only [bind, Except.bind]
    match elements.toList with
    | [] => rfl
    | [_] => rfl
    | [_, _] => rfl
    | [a, b, c] => exact h a b c
    | a :: b :: c :: d :: more =>
      have hlength : (a :: b :: c :: d :: more).length ≠ 3 := by simp
      rw [if_pos hlength]
      rfl

/-- A component of the vector product. -/
def component (x y : List Value) (a b : Nat) : Access Value := do
  let xa ← Access.item x a
  let yb ← Access.item y b
  let left ← Access.of (Builtin.mul xa yb)
  let xb ← Access.item x b
  let ya ← Access.item y a
  let right ← Access.of (Builtin.mul xb ya)
  Access.of (Builtin.sub left right)

/-- A component of a cross product reads both vectors in bounds. -/
theorem component_inBounds {x y : List Value} {a b : Nat} {xa xb ya yb : Value}
    (hxa : x[a]? = some xa) (hxb : x[b]? = some xb) (hya : y[a]? = some ya)
    (hyb : y[b]? = some yb) : InBounds (component x y a b) (Builtin.minor xa xb ya yb) := by
  refine .read (Access.inBounds_item hxa) (.read (Access.inBounds_item hyb) ?_)
  refine .bind (Access.inBounds_of _) fun left _ => ?_
  refine .read (Access.inBounds_item hxb) (.read (Access.inBounds_item hya) ?_)
  exact .bind (Access.inBounds_of _) fun right _ => rfl

/-- The vector product. -/
def cross : Function := fun args => do
  Access.of (takes "cross" 2 args)
  let x ← Access.of (three "cross" args 0)
  let y ← Access.of (three "cross" args 1)
  let first ← component x y 1 2
  let second ← component x y 2 0
  let third ← component x y 0 1
  return Value.vector [first, second, third]

/-- A cross product reads both vectors in bounds. -/
theorem keeps_cross : Keeps cross Builtin.cross := by
  intro args
  refine .bind (Access.inBounds_of _) fun _ _ => ?_
  refine three_bind fun x₁ x₂ x₃ => three_bind fun y₁ y₂ y₃ => ?_
  refine .bind (component_inBounds rfl rfl rfl rfl) fun first _ => ?_
  refine .bind (component_inBounds rfl rfl rfl rfl) fun second _ => ?_
  exact .bind (component_inBounds rfl rfl rfl rfl) fun third _ => rfl

/-- The matrix whose product with a vector is the vector product. -/
def skew : Function := fun args => do
  Access.of (takes "skew" 1 args)
  let x ← Access.of (three "skew" args 0)
  let x₁ ← Access.item x 0
  let zero := Value.zeroLike x₁
  let x₃ ← Access.item x 2
  let minus₃ ← Access.of (Builtin.sub zero x₃)
  let x₂ ← Access.item x 1
  let minus₁ ← Access.of (Builtin.sub zero x₁)
  let minus₂ ← Access.of (Builtin.sub zero x₂)
  return Value.matrix [[zero, minus₃, x₂], [x₃, zero, minus₁], [minus₂, x₁, zero]] 3

/-- A skew matrix reads its vector in bounds. -/
theorem keeps_skew : Keeps skew Builtin.skew := by
  intro args
  refine .bind (Access.inBounds_of _) fun _ _ => three_bind fun x₁ x₂ x₃ => ?_
  refine .read (Access.inBounds_item rfl) (.read (Access.inBounds_item rfl) ?_)
  refine .bind (Access.inBounds_of _) fun _ _ => .read (Access.inBounds_item rfl) ?_
  exact .bind (Access.inBounds_of _) fun _ _ => .bind (Access.inBounds_of _) fun _ _ => rfl

/-! ## Matrices -/

/-- The symmetric matrix with the upper triangle of a matrix. -/
def symmetric : Function := fun args => do
  Access.of (takes "symmetric" 1 args)
  let m ← Access.of (arg "symmetric" args 0)
  let rows ← Access.of (Builtin.squareRows "symmetric" m)
  let completed ← (List.range rows.length).mapM fun i => (List.range rows.length).mapM fun j =>
    if j < i then do
      let row ← Access.item rows j
      Access.item row i
    else do
      let row ← Access.item rows i
      Access.item row j
  return Value.matrix completed rows.length

/-- Filtering that leaves nothing out. -/
theorem filterMap_eq_pmap {α β : Type} {f : α → Option β} {items : List α}
    (h : ∀ a ∈ items, (f a).isSome = true) :
    items.filterMap f = items.pmap (fun a ha => (f a).get ha) h := by
  induction items with
  | nil => rfl
  | cons a items ih =>
    obtain ⟨ha, hitems⟩ := List.forall_mem_cons.mp h
    rw [List.filterMap_cons_some (Option.some_get ha).symm, ih hitems, List.pmap]

/-- All rows are as long as there are rows. -/
theorem length_of_squareRows {name : String} {m : Value} {rows : List (List Value)}
    (h : Builtin.squareRows name m = .ok rows) : ∀ row ∈ rows, row.length = rows.length := by
  unfold Builtin.squareRows at h
  cases hm : m.rows? with
  | none => simp [hm] at h
  | some rows' =>
    simp only [hm] at h
    split at h
    · cases h
    · rename_i hall
      cases h
      simpa using hall

/-- A row below the diagonal is read from the columns above it. -/
theorem symmetricRow_inBounds {rows : List (List Value)} {row : List Value} {i : Nat}
    (hsquare : ∀ row ∈ rows, row.length = rows.length) (hrow : rows[i]? = some row) :
    InBounds
      ((List.range rows.length).mapM fun j =>
        if j < i then Access.item rows j >>= fun upper => Access.item upper i
        else Access.item rows i >>= fun row => Access.item row j)
      (pure (((rows.take i).filterMap fun upper => upper[i]?) ++ row.drop i)) := by
  have hi : i < rows.length := (List.getElem?_eq_some_iff.mp hrow).1
  have hlength : row.length = rows.length := hsquare row (List.mem_of_getElem? hrow)
  have hupper : ∀ upper ∈ rows.take i, (upper[i]?).isSome = true := fun upper hmem => by
    rw [List.getElem?_eq_getElem (by rwa [hsquare upper (List.mem_of_mem_take hmem)])]
    rfl
  rw [filterMap_eq_pmap hupper]
  have hcount : ((rows.take i).pmap (fun upper h => (upper[i]?).get h) hupper).length = i := by
    rw [List.length_pmap, List.length_take, Nat.min_eq_left (Nat.le_of_lt hi)]
  refine .mapM_range_of_length ?_ fun j b hb => ?_
  · rw [List.length_append, hcount, List.length_drop, hlength]
    omega
  · by_cases hj : j < i
    · rw [List.getElem?_append_left (by rwa [hcount]), List.getElem?_pmap] at hb
      obtain ⟨upper, hentry, hmem, rfl⟩ := Option.pmap_eq_some_iff.mp hb
      rw [List.getElem?_take_of_lt hj] at hmem
      rw [if_pos hj]
      exact .read (Access.inBounds_item hmem) (Access.inBounds_item (Option.some_get hentry).symm)
    · rw [List.getElem?_append_right (by rw [hcount]; omega), hcount, List.getElem?_drop] at hb
      rw [if_neg hj]
      refine .read (Access.inBounds_item hrow) (Access.inBounds_item ?_)
      rwa [Nat.add_sub_cancel' (Nat.le_of_not_lt hj)] at hb

/-- Making a matrix symmetric reads its rows in bounds. -/
theorem keeps_symmetric : Keeps symmetric Builtin.symmetric := by
  intro args
  refine .bind (Access.inBounds_of _) fun _ _ => .bind (Access.inBounds_of _) fun m _ => ?_
  refine .bind (Access.inBounds_of _) fun rows hrows => ?_
  refine .read (.mapM_range_of_length List.length_mapIdx fun i completed h => ?_) rfl
  rw [List.getElem?_mapIdx] at h
  obtain ⟨row, hrow, rfl⟩ := Option.map_eq_some_iff.mp h
  exact symmetricRow_inBounds (length_of_squareRows hrows) hrow

/-- The first two dimensions of an array whose other sizes are one. -/
def matrixOf : Function := fun args => do
  Access.of (takes "matrix" 1 args)
  let v ← Access.of (arg "matrix" args 0)
  if v.dims.length = 0 then return Value.matrix [[v]] 1
  else if v.dims.length = 1 then do
    let n ← Access.item v.dims 0
    return Value.fromFlat v.flatten [n, 1]
  else if v.dims.length = 2 then return v
  else do
    let inner ← Access.slice v.dims 2 v.dims.length
    if inner.all (· = 1) then do
      let outer ← Access.slice v.dims 0 2
      return Value.fromFlat v.flatten outer
    else
      Access.of (Cause.invalidShape
        ("`matrix` needs trailing dimensions of size 1, got " ++ Text.bracketed v.dims)).fail

/-- Making a matrix reads sizes in bounds. -/
theorem keeps_matrixOf : Keeps matrixOf Builtin.matrixOf := by
  intro args
  refine .bind (Access.inBounds_of _) fun _ _ => .bind (Access.inBounds_of _) fun v _ => ?_
  cases hdims : v.dims with
  | nil => rfl
  | cons n inner =>
    match inner with
    | [] => exact .read (Access.inBounds_item rfl) rfl
    | [_] => rfl
    | m :: d :: inner =>
      have hrest : Access.slice (n :: m :: d :: inner) 2 (n :: m :: d :: inner).length
          = pure (d :: inner) := Access.slice_length (by simp)
      refine .read hrest (.ite (fun _ => ?_) fun _ => rfl)
      exact .read (Access.slice_eq (Nat.zero_le 2) (by simp)) rfl

def transpose : Function := fun args => do
  Access.of (takes "transpose" 1 args)
  let v ← Access.of (arg "transpose" args 0)
  match ← transpose? v with
  | some t => return t
  | none => Access.of (Value.refuse "transpose" "matrix" v)

/-- Transposing reads sizes in bounds. -/
theorem keeps_transpose : Keeps transpose Builtin.transpose := by
  intro args
  refine .bind (Access.inBounds_of _) fun _ _ => .bind (Access.inBounds_of _) fun v _ => ?_
  refine .read (transpose?_inBounds v) ?_
  cases v.transpose? <;> rfl

/-- Concatenation along the dimension that the first argument gives. -/
def cat : Function := fun args => do
  let k ← Access.of (Builtin.integerArg "cat" args 0)
  if k < 0 then
    Access.of
      (Cause.invalidArgument "cat" ("dimension " ++ toString k ++ " must be positive")).fail
  else do
    let parts ← Access.slice args 1 args.length
    concat k.toNat parts

/-- Concatenation reads its first argument in bounds. -/
theorem keeps_cat : Keeps cat Builtin.cat := by
  intro args
  refine .bind (Access.inBounds_of _) fun k hk => .ite (fun _ => rfl) fun _ => ?_
  cases args with
  | nil => cases hk
  | cons first parts =>
    have hparts : Access.slice (first :: parts) 1 (first :: parts).length = pure parts :=
      Access.slice_length (by simp)
    exact .read hparts (concat_inBounds k.toNat parts)

end ModelicaFold.Direct
