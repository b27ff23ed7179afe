import ModelicaFold.Builtin.Collections
import ModelicaFold.Proofs.Shape.Entries
import ModelicaFold.Value.Arithmetic

/-!
# Arrays as lists and lists as arrays

A list keeps the elements of an array and not its sizes. `listArray` makes an array with one dimension
of them, whatever they are, so the way from an array to its list and back gives the array if it has one
dimension. An array of more dimensions comes back with the right elements and without its inner sizes:
it is not consistent, unless it is empty, and no elementwise operator takes it together with the array
that it was. The way from a list to an array and back gives the list (`list_conversions`).
-/

namespace ModelicaFold.Value

open Builtin (listArray arrayList)

/-- Of the arrays made of given elements with one dimension, the consistent ones have leaves only. -/
theorem consistent_vector_iff {elements : List Value} {inner : List Nat}
    (h : ∀ v ∈ elements, v.Consistent ∧ v.dims = inner) :
    (vector elements).Consistent ↔ inner = [] ∨ elements = [] := by
  constructor
  · intro hvector
    obtain ⟨sizes, hsizes, hall⟩ := consistent_array.mp hvector
    rcases elements with _ | ⟨v, elements⟩
    · exact .inr rfl
    · left
      have hleaf : v.dims = sizes := (hall v List.mem_cons_self).2
      rw [← (h v List.mem_cons_self).2, hleaf]
      exact (List.cons.inj hsizes).2.symm
  · rintro (rfl | rfl)
    · exact consistent_vector h
    · exact consistent_empty []

/-- Arrays of different sizes are no operands of an elementwise operator. -/
theorem elementwise_arrays_of_dims_ne {v w : Value} (hv : v.isArray = true) (hw : w.isArray = true)
    (h : v.dims ≠ w.dims) (op : Arith) :
    ∃ message, elementwise op .arrays v w = (Cause.invalidShape message).fail := by
  have hzip : v.zipLeaves (scalarArith op) w = none := zipLeaves_of_dims_ne h
  cases v with
  | array xs dims =>
    cases w with
    | array ys dims' =>
      unfold elementwise
      simp only [hzip, orShape, Option.getD_none]
      exact ⟨_, rfl⟩
    | _ => cases hw
  | _ => cases hv

/-- An array that is made into a list and back has the same elements and one dimension. It is the
array itself if that has one dimension, and otherwise, unless it is empty, it is not consistent. A
list that is made into an array and back is the list itself. -/
theorem list_conversions {v : Value} (hv : v.Consistent) (harray : v.isArray = true) :
    (∃ l w, arrayList [v] = .ok l ∧ listArray [l] = .ok w ∧ arrayList [w] = .ok l
      ∧ w.elementList = v.elementList ∧ w.dims = [v.elementList.length]
      ∧ (w = v ↔ v.rank = 1)
      ∧ (w.Consistent ↔ v.rank = 1 ∨ v.elementList = [])
      ∧ (v.rank ≠ 1 → ∀ op, ∃ message,
        binary (.arith op .arrays) v w = (Cause.invalidShape message).fail))
    ∧ ∀ items, ∃ w, listArray [.list items] = .ok w ∧ arrayList [w] = .ok (.list items) := by
  constructor
  · obtain ⟨n, inner, hdims⟩ := List.exists_cons_of_ne_nil (hv.isArray_iff.mp harray)
    obtain ⟨elements, rfl, rfl, hall⟩ := hv.elements hdims
    have hrank : (array elements.toArray (elements.length :: inner)).rank = 1 ↔ inner = [] := by
      simp [rank, dims]
    refine ⟨.listOf elements, vector elements, rfl, rfl, rfl, rfl, rfl, ?_, ?_, ?_⟩
    · rw [hrank]
      simp [vector, eq_comm]
    · rw [hrank]
      exact consistent_vector_iff hall
    · intro hmore
      apply elementwise_arrays_of_dims_ne rfl rfl
      intro hsame
      exact hmore (congrArg List.length hsame)
  · intro items
    exact ⟨.vector items.toList, rfl, rfl⟩

/-- The rows of a matrix with two columns. -/
theorem list_conversions_rows :
    ∃ l w, arrayList [matrix [[.integer 1, .integer 2], [.integer 3, .integer 4]] 2] = .ok l
      ∧ listArray [l] = .ok w ∧ arrayList [w] = .ok l ∧ ¬w.Consistent := by
  have hmatrix : (matrix [[.integer 1, .integer 2], [.integer 3, .integer 4]] 2).Consistent := by
    apply consistent_matrix
    simp [dims]
  obtain ⟨⟨l, w, hl, hw, hback, -, -, -, hconsistent, -⟩, -⟩ := list_conversions hmatrix rfl
  refine ⟨l, w, hl, hw, hback, ?_⟩
  rw [hconsistent]
  simp [matrix, rank, dims, elementList, elements?]

/-- A matrix comes back as a vector of its rows. -/
theorem matrix_listed_loses_columns :
    (matrix [[.integer 1, .integer 2], [.integer 3, .integer 4]] 2).Consistent
      ∧ ∃ l w, arrayList [matrix [[.integer 1, .integer 2], [.integer 3, .integer 4]] 2] = .ok l
        ∧ listArray [l] = .ok w ∧ w.dims = [2]
        ∧ w ≠ matrix [[.integer 1, .integer 2], [.integer 3, .integer 4]] 2 := by
  refine ⟨?_, _, _, rfl, rfl, rfl, ?_⟩
  · apply consistent_matrix
    simp [dims]
  · intro hsame
    cases congrArg dims hsame

end ModelicaFold.Value
