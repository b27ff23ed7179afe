import ModelicaFold.Proofs.Shape.Entries
import ModelicaFold.Proofs.Shape.Operators

/-!
# Operators of an array and a scalar

An operator of an array and a scalar maps the leaves of the array; an operator of two arrays
combines their leaves and compares their sizes at every level. Both give the same, failures
included, if the second array is filled with the scalar. Filling shows the sizes of the array at
every level (`fill_cons`), so no comparison fails, and the leaves are met in the same order
(`Consistent.zipLeaves_fill`). The operand on the left needs no proof of its own: operands may be
exchanged (`zipLeaves_swap`).
-/

namespace ModelicaFold.Value

variable {ε : Type} {f : Value → Value → Except ε Value}

/-! ## Exchanging the operands -/

/-- Two leaves are combined by the function. -/
theorem zipLeaves_leaves {x y : Value} (hx : x.isArray = false) (hy : y.isArray = false) :
    x.zipLeaves f y = some (f x y) := by
  cases x with
  | array elements dims => cases hx
  | _ => exact if_neg (by simp [hy])

/-- A leaf and an array have different shapes. -/
theorem zipLeaves_leaf_array {x : Value} (hx : x.isArray = false) (elements : Array Value)
    (dims : List Nat) : x.zipLeaves f (.array elements dims) = none := by
  cases x with
  | array elements dims => cases hx
  | _ => rfl

/-- An array and a leaf have different shapes. -/
theorem zipLeaves_array_leaf (elements : Array Value) (dims : List Nat) {y : Value}
    (hy : y.isArray = false) : (Value.array elements dims).zipLeaves f y = none := by
  cases y with
  | array elements dims => cases hy
  | _ => rfl

/-- The operands of two lists may be exchanged if those of each pair may. -/
theorem zipAllLeaves_swap {xs ys : List Value}
    (h : ∀ x ∈ xs, ∀ y, x.zipLeaves f y = y.zipLeaves (fun b a => f a b) x) :
    zipAllLeaves f xs ys = zipAllLeaves (fun b a => f a b) ys xs := by
  induction xs generalizing ys with
  | nil => cases ys <;> rfl
  | cons x xs ih =>
    cases ys with
    | nil => rfl
    | cons y ys =>
      obtain ⟨hx, hxs⟩ := List.forall_mem_cons.mp h
      rw [zipAllLeaves, zipAllLeaves, hx y, ih hxs]

/-- It does not matter which operand's leaves come first. -/
theorem zipLeaves_swap (x y : Value) : x.zipLeaves f y = y.zipLeaves (fun b a => f a b) x := by
  induction x using arrayInduction generalizing y with
  | leaf x hx =>
    by_cases hy : y.isArray = true
    · cases y with
      | array elements dims =>
        rw [zipLeaves_leaf_array hx, zipLeaves_array_leaf elements dims hx]
      | _ => cases hy
    · rw [zipLeaves_leaves hx (by simpa using hy), zipLeaves_leaves (by simpa using hy) hx]
  | array xs dims ih =>
    cases y with
    | array elements dims' =>
      obtain ⟨ys⟩ := elements
      rw [zipLeaves, zipLeaves]
      by_cases hfit : dims = dims' ∧ xs.length = ys.length
      · rw [if_pos hfit, if_pos ⟨hfit.1.symm, hfit.2.symm⟩, zipAllLeaves_swap ih, hfit.1]
      · rw [if_neg hfit, if_neg fun h => hfit ⟨h.1.symm, h.2.symm⟩]
    | _ => exact (zipLeaves_leaf_array rfl ⟨xs⟩ dims).symm

/-! ## Combining with what is filled -/

/-- An array that is filled has the given sizes before those of the value. -/
theorem dims_fill (v : Value) (sizes : List Nat) : (v.fill sizes).dims = sizes ++ v.dims := by
  induction sizes with
  | nil => rfl
  | cons n rest ih =>
    cases n with
    | zero => rfl
    | succ n => exact congrArg (List.cons (n + 1)) ih

/-- Filling with a scalar gives as many equal rows as the first size tells. -/
theorem fill_cons {s : Value} (hs : s.isArray = false) (n : Nat) (inner : List Nat) :
    s.fill (n :: inner) = .array (List.replicate n (s.fill inner)).toArray (n :: inner) := by
  have hdims := dims_of_not_isArray hs
  cases n with
  | zero => simp [fill, hdims]
  | succ n => simp [fill, dims_fill, hdims]

/-- Combining values with one value repeated maps the leaves of each. -/
theorem zipAllLeaves_replicate {g : Value → Except ε Value} {xs : List Value} {row : Value}
    (h : ∀ x ∈ xs, x.zipLeaves f row = some (x.mapLeaves g)) :
    zipAllLeaves f xs (List.replicate xs.length row) = some (mapAllLeaves g xs) := by
  induction xs with
  | nil => rfl
  | cons x xs ih =>
    obtain ⟨hx, hxs⟩ := List.forall_mem_cons.mp h
    rw [List.length_cons, List.replicate_succ, zipAllLeaves, mapAllLeaves, hx, ih hxs]
    cases x.mapLeaves g with
    | error failure => rfl
    | ok w => cases mapAllLeaves g xs <;> rfl

/-- Combining the leaves of an array with what is filled with a scalar combines each leaf with the
scalar. -/
theorem Consistent.zipLeaves_fill {a s : Value} (ha : a.Consistent) (hs : s.isArray = false)
    (f : Value → Value → Outcome Value) :
    a.zipLeaves f (s.fill a.dims) = some (a.mapLeaves fun x => f x s) := by
  induction a using arrayInduction with
  | leaf a hleaf =>
    rw [dims_of_not_isArray hleaf, mapLeaves_leaf hleaf]
    exact zipLeaves_leaves hleaf hs
  | array elements dims ih =>
    obtain ⟨inner, rfl, hall⟩ := consistent_array.mp ha
    have hrow : ∀ x ∈ elements,
        x.zipLeaves f (s.fill inner) = some (x.mapLeaves fun x => f x s) :=
      fun x hx => by rw [← (hall x hx).2, ih x hx (hall x hx).1]
    rw [Value.dims, fill_cons hs, Value.zipLeaves, Value.mapLeaves,
      if_pos ⟨rfl, by rw [List.length_replicate]; rfl⟩, List.size_toArray,
      zipAllLeaves_replicate hrow, Option.map_some]

/-! ## Operators -/

/-- An operator of an array and a scalar, on either side, is the operator of two arrays with the
scalar filled to the sizes of the array. What it gives has these sizes at every level. -/
theorem broadcast_fills (op : Arith) {a s : Value} (ha : a.Consistent) (hs : s.isArray = false) :
    (binary (.arith op .arrayScalar) a s = binary (.arith op .arrays) a (s.fill a.dims)
        ∧ ∀ w, binary (.arith op .arrayScalar) a s = .ok w → w.Consistent ∧ w.dims = a.dims)
      ∧ binary (.arith op .scalarArray) s a = binary (.arith op .arrays) (s.fill a.dims) a
        ∧ ∀ w, binary (.arith op .scalarArray) s a = .ok w → w.Consistent ∧ w.dims = a.dims := by
  have hatoms : ∀ x y w, scalarArith op x y = .ok w → w.IsAtom := fun _ _ _ => isAtom_scalarArith
  refine ⟨⟨?_, fun w hw => ha.mapLeaves (fun x _ => hatoms x s _) hw⟩, ?_,
    fun w hw => ha.mapLeaves (fun x _ => hatoms s x _) hw⟩
  · simp only [binary, elementwise, ha.zipLeaves_fill hs, orShape, Option.getD_some]
  · simp only [binary, elementwise, zipLeaves_swap (s.fill a.dims), ha.zipLeaves_fill hs, orShape,
      Option.getD_some]

/-- A matrix without columns, whose sizes are kept, differences with a scalar on the left, and a
quotient that a leaf makes impossible. -/
theorem broadcast_fills_quotient :
    (binary (.arith .sub .arrayScalar) (.matrix [[], []] 0) (.integer 1)
        = binary (.arith .sub .arrays) (.matrix [[], []] 0) (fill (.integer 1) [2, 0])
      ∧ binary (.arith .sub .arrayScalar) (.matrix [[], []] 0) (.integer 1)
        = .ok (.matrix [[], []] 0))
      ∧ (binary (.arith .sub .scalarArray) (.integer 6) (.vector [.integer 3, .integer 0])
          = binary (.arith .sub .arrays) (fill (.integer 6) [2]) (.vector [.integer 3, .integer 0])
        ∧ binary (.arith .sub .scalarArray) (.integer 6) (.vector [.integer 3, .integer 0])
          = .ok (.vector [.integer 3, .integer 6]))
      ∧ binary (.arith .div .scalarArray) (.integer 6) (.vector [.integer 3, .integer 0])
          = binary (.arith .div .arrays) (fill (.integer 6) [2]) (.vector [.integer 3, .integer 0])
        ∧ binary (.arith .div .scalarArray) (.integer 6) (.vector [.integer 3, .integer 0])
          = (Cause.divisionByZero "6" "0").fail := by
  have hmatrix : (Value.matrix [[], []] 0).Consistent := consistent_matrix (by simp)
  have hvector : (Value.vector [.integer 3, .integer 0]).Consistent :=
    consistent_vector (by simp [dims])
  exact ⟨⟨(broadcast_fills .sub hmatrix rfl).1.1, rfl⟩,
    ⟨(broadcast_fills .sub hvector rfl).2.1, rfl⟩, (broadcast_fills .div hvector rfl).2.1, by rfl⟩

end ModelicaFold.Value
