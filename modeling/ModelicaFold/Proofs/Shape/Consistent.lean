import ModelicaFold.Proofs.Parts
import ModelicaFold.Proofs.Shape.Outcome

/-!
# Shape-consistent values

An array carries its sizes next to its nesting. They are in step if the first size is the number of
elements and either the array has one dimension and no element is an array, or every element is an
array of the remaining sizes. A value is consistent if this holds of every array in it, however deep
(`Value.Consistent`).

Proofs use the uniform reading `consistent_array`: the elements of an array are consistent and all
have the sizes that remain.
-/

namespace ModelicaFold.Value

/-- The sizes that an array with these elements may carry. -/
def FitsDims (elements : List Value) : List Nat → Prop
  | [] => False
  | [n] => elements.length = n ∧ ∀ v ∈ elements, v.isArray = false
  | n :: m :: inner =>
    elements.length = n ∧ ∀ v ∈ elements, v.isArray = true ∧ v.dims = m :: inner

/-- The sizes of an array are in step with its nesting; nothing is asked of other values. -/
def ShapeFits : Value → Prop
  | .array elements dims => FitsDims elements.toList dims
  | _ => True

/-- In every array in the value, the sizes are in step with the nesting. -/
def Consistent (v : Value) : Prop := v.Everywhere ShapeFits

/-- A value is consistent if its own sizes fit and its parts are consistent. -/
theorem consistent_iff {v : Value} : v.Consistent ↔ v.ShapeFits ∧ ∀ w ∈ v.parts, w.Consistent :=
  everywhere_iff

/-! ## Arrays -/

/-- A value that is no array has no sizes. -/
theorem dims_of_not_isArray {v : Value} (h : v.isArray = false) : v.dims = [] := by
  cases v <;> first | rfl | cases h

/-- Only an array has sizes, and a consistent one has at least one. -/
theorem Consistent.isArray_iff {v : Value} (h : v.Consistent) :
    v.isArray = true ↔ v.dims ≠ [] := by
  cases v with
  | array elements dims =>
    refine ⟨fun _ hdims => ?_, fun _ => rfl⟩
    have hdims : dims = [] := hdims
    subst hdims
    exact (consistent_iff.mp h).1
  | _ => simp [isArray, dims]

/-- A consistent value without sizes is no array. -/
theorem Consistent.isArray_eq_false {v : Value} (h : v.Consistent) (hdims : v.dims = []) :
    v.isArray = false :=
  Bool.eq_false_iff.mpr (h.isArray_iff.not.mpr (not_not.mpr hdims))

/-- An array is consistent if its elements are and have the sizes that remain. -/
theorem consistent_array {elements : Array Value} {dims : List Nat} :
    (Value.array elements dims).Consistent ↔
      ∃ inner, dims = elements.size :: inner
        ∧ ∀ v ∈ elements.toList, v.Consistent ∧ v.dims = inner := by
  rw [consistent_iff]
  simp only [ShapeFits, parts, ← Array.length_toList]
  generalize elements.toList = elements
  match dims with
  | [] => simp [FitsDims]
  | [n] =>
    simp only [FitsDims]
    constructor
    · rintro ⟨⟨hlength, hleaf⟩, hall⟩
      exact ⟨[], by rw [hlength], fun v hv => ⟨hall v hv, dims_of_not_isArray (hleaf v hv)⟩⟩
    · rintro ⟨inner, hdims, hall⟩
      obtain ⟨hn, hinner⟩ := List.cons.inj hdims
      refine ⟨⟨hn.symm, fun v hv => ?_⟩, fun v hv => (hall v hv).1⟩
      have hdims : v.dims = [] := (hall v hv).2.trans hinner.symm
      simpa [hdims] using (hall v hv).1.isArray_iff
  | n :: m :: inner =>
    simp only [FitsDims]
    constructor
    · rintro ⟨⟨hlength, helements⟩, hall⟩
      exact ⟨m :: inner, by rw [hlength], fun v hv => ⟨hall v hv, (helements v hv).2⟩⟩
    · rintro ⟨_, hdims, hall⟩
      obtain ⟨hn, hinner⟩ := List.cons.inj hdims
      subst hinner
      refine ⟨⟨hn.symm, fun v hv => ⟨?_, (hall v hv).2⟩⟩, fun v hv => (hall v hv).1⟩
      rw [(hall v hv).1.isArray_iff, (hall v hv).2]
      exact List.cons_ne_nil m inner

/-- An array whose sizes are given is consistent if they are the number of elements and the sizes
of every element. -/
theorem consistent_array_of {elements : List Value} {inner : List Nat} {n : Nat}
    (hn : elements.length = n) (h : ∀ v ∈ elements, v.Consistent ∧ v.dims = inner) :
    (Value.array elements.toArray (n :: inner)).Consistent :=
  consistent_array.mpr ⟨inner, by rw [List.size_toArray, hn], h⟩

/-- An array without elements may have any sizes that start with zero. -/
theorem consistent_empty (inner : List Nat) : (Value.array #[] (0 :: inner)).Consistent :=
  consistent_array.mpr ⟨inner, rfl, fun _ hv => absurd hv List.not_mem_nil⟩

/-- A vector of consistent values without sizes is consistent. -/
theorem consistent_vector {elements : List Value} (h : ∀ v ∈ elements, v.Consistent ∧ v.dims = []) :
    (vector elements).Consistent :=
  consistent_array_of rfl h

/-- The sizes that elements show are right if all elements have the same. -/
theorem consistent_arrayOf {elements : List Value} {inner : List Nat}
    (h : ∀ v ∈ elements, v.Consistent ∧ v.dims = inner) : (arrayOf elements).Consistent := by
  cases elements with
  | nil => exact consistent_empty []
  | cons v vs =>
    have hinner : v.dims = inner := (h v List.mem_cons_self).2
    refine consistent_array_of rfl fun w hw => ⟨(h w hw).1, ?_⟩
    rw [(h w hw).2, ← hinner]
    rfl

/-- An array of one consistent element is consistent. -/
theorem consistent_arrayOf_singleton {v : Value} (h : v.Consistent) : (arrayOf [v]).Consistent :=
  consistent_array_of rfl fun w hw => by
    rw [List.mem_singleton.mp hw]
    exact ⟨h, rfl⟩

/-- The sizes of an array are the number of its elements and the sizes of the first one. -/
theorem dims_arrayOf (elements : List Value) :
    (arrayOf elements).dims = elements.length :: ((elements.head?.map dims).getD []) := rfl

/-- The sizes that elements of the same sizes show. -/
theorem dims_arrayOf_of {elements : List Value} {inner : List Nat}
    (h : ∀ v ∈ elements, v.Consistent ∧ v.dims = inner) :
    (arrayOf elements).dims
      = if elements.length = 0 then [0] else elements.length :: inner := by
  cases elements with
  | nil => rfl
  | cons v vs =>
    have hv : v.dims = inner := (h v List.mem_cons_self).2
    simp [dims_arrayOf, hv]

/-- A matrix of rows of one length is consistent. -/
theorem consistent_matrix {rows : List (List Value)} {columns : Nat}
    (h : ∀ row ∈ rows, row.length = columns ∧ ∀ v ∈ row, v.Consistent ∧ v.dims = []) :
    (matrix rows columns).Consistent := by
  refine consistent_array_of (by simp) fun v hv => ?_
  obtain ⟨row, hrow, rfl⟩ := List.mem_map.mp hv
  exact ⟨consistent_array_of (h row hrow).1 (h row hrow).2, rfl⟩

/-! ## Other values -/

/-- A value without parts that is no array is consistent. -/
theorem consistent_of_parts_eq_nil {v : Value} (hparts : v.parts = []) (h : v.isArray = false) :
    v.Consistent := by
  refine consistent_iff.mpr ⟨?_, by simp [hparts]⟩
  cases v with
  | array elements dims => cases h
  | _ => trivial

/-- A value that holds no other value is consistent and has no sizes. -/
def IsAtom : Value → Prop
  | .integer _ => True
  | .real _ => True
  | .bool _ => True
  | .string _ => True
  | .enumeration _ _ => True
  | _ => False

/-- An atom is consistent and has no sizes. -/
theorem IsAtom.consistent {v : Value} (h : v.IsAtom) : v.Consistent ∧ v.dims = [] := by
  cases v <;> first | exact ⟨consistent_of_parts_eq_nil rfl rfl, rfl⟩ | cases h

/-- An atom is no array. -/
theorem IsAtom.not_isArray {v : Value} (h : v.IsAtom) : v.isArray = false := by
  cases v <;> first | rfl | cases h

/-- A consistent value is consistent without its box. -/
theorem Consistent.unboxed {v : Value} (h : v.Consistent) : v.unboxed.Consistent := by
  induction v using Value.unboxed.induct with
  | case1 content ih => exact ih ((consistent_iff.mp h).2 content List.mem_cons_self)
  | case2 v hv =>
    rw [Value.unboxed]
    · exact h
    · exact hv

end ModelicaFold.Value
