import ModelicaFold.Proofs.Shape.Entries

/-!
# Transposed arrays

The first two dimensions of a consistent array make a table of its elements. Transposing the array
tabulates the same elements with rows and columns exchanged (`transpose?_tabled`), whether there are
any or not: a table without rows still has its number of columns in its sizes, and a table without
columns has rows that are empty. So the second transposition undoes the first.
-/

namespace ModelicaFold.Value

/-! ## Tables -/

/-- Rows with an item for each row and column. -/
def table (n m : Nat) (item : Nat → Nat → Value) : List (List Value) :=
  (List.range n).map fun i => (List.range m).map (item i)

/-- The array with an element for each row and column; the elements have the sizes that follow. -/
def tabled (n m : Nat) (inner : List Nat) (item : Nat → Nat → Value) : Value :=
  .array ((table n m item).map fun row => .array row.toArray (m :: inner)).toArray (n :: m :: inner)

variable {n m : Nat} {inner : List Nat} {item : Nat → Nat → Value}

/-- Every row of a table begins with its item in the first column. -/
theorem table_succ (n m : Nat) (item : Nat → Nat → Value) :
    table n (m + 1) item
      = (List.range n).map fun i => item i 0 :: (List.range m).map fun j => item i (j + 1) := by
  simp [table, List.range_succ_eq_map, Function.comp_def]

/-- The columns of a table are the rows of the table with rows and columns exchanged. -/
theorem columns?_table (n m : Nat) (item : Nat → Nat → Value) :
    columns? (table n m item) m = some (table m n fun j i => item i j) := by
  induction m generalizing item with
  | zero => rfl
  | succ m ih =>
    have hheads : (table n (m + 1) item).mapM List.head?
        = some ((List.range n).map fun i => item i 0) := by
      rw [table_succ, List.mapM_map]
      exact List.mapM_pure
    have htails : (table n (m + 1) item).map List.tail = table n m fun i j => item i (j + 1) := by
      rw [table_succ, List.map_map]
      rfl
    rw [columns?, hheads, htails, ih]
    simp [table, List.range_succ_eq_map, Function.comp_def]

/-- The rows of a tabled array are those of the table. -/
theorem rows?_tabled : (tabled n m inner item).rows? = some (table n m item) := by
  refine mapM_eq_some.mpr ?_
  rw [List.toList_toArray, List.forall₂_map_left_iff]
  exact List.forall₂_same.mpr fun row _ => rfl

/-- Transposing exchanges rows and columns. -/
theorem transpose?_tabled :
    (tabled n m inner item).transpose? = some (tabled m n inner fun j i => item i j) := by
  have hdims : (tabled n m inner item).dims = n :: m :: inner := rfl
  simp only [transpose?, rows?_tabled, hdims, columns?_table, Option.map_some]
  rfl

/-! ## Elements -/

/-- The entry of a tabled array is the item in the row and column. -/
theorem entryAt?_tabled {i j : Nat} (hi : i < n) (hj : j < m) :
    (tabled n m inner item).entryAt? [i, j] = some (item i j) := by
  rw [tabled, entryAt?_array_cons]
  simp only [table, List.map_map, List.getElem?_map, List.getElem?_range hi, Option.map_some,
    Option.bind_some, Function.comp_apply, entryAt?_array_cons, List.getElem?_range hj]
  rfl

/-- An array tabled with consistent items of the inner sizes is consistent. -/
theorem consistent_tabled
    (h : ∀ i < n, ∀ j < m, (item i j).Consistent ∧ (item i j).dims = inner) :
    (tabled n m inner item).Consistent := by
  refine consistent_array_of (by simp [table]) fun row hrow => ?_
  simp only [table, List.mem_map, List.mem_range, exists_exists_and_eq_and] at hrow
  obtain ⟨i, hi, rfl⟩ := hrow
  refine ⟨consistent_array_of (by simp) fun v hv => ?_, rfl⟩
  obtain ⟨j, hj, rfl⟩ := List.mem_map.mp hv
  exact h i hi j (List.mem_range.mp hj)

/-- A consistent array with two dimensions or more has an element for each row and column. -/
theorem Consistent.exists_element {v : Value} (h : v.Consistent) (hdims : v.dims = n :: m :: inner)
    {i j : Nat} (hi : i < n) (hj : j < m) :
    ∃ w, v.entryAt? [i, j] = some w ∧ w.Consistent ∧ w.dims = inner := by
  obtain ⟨rows, rfl, rfl, hrows⟩ := h.elements hdims
  obtain ⟨hrow, hrowDims⟩ := hrows _ (List.getElem_mem hi)
  obtain ⟨row, hrow, rfl, hall⟩ := hrow.elements hrowDims
  refine ⟨row[j], ?_, hall _ (List.getElem_mem hj)⟩
  rw [entryAt?_array_cons, List.getElem?_eq_getElem hi, Option.bind_some, hrow, entryAt?_array_cons,
    List.getElem?_eq_getElem hj]
  rfl

/-- An entry below two dimensions is the entry of an element. -/
theorem entryAt?_cons_cons (v : Value) (i j : Nat) (ks : List Nat) :
    v.entryAt? (i :: j :: ks) = (v.entryAt? [i, j]).bind (entryAt? ks) := by
  simp [entryAt?, Option.bind_assoc]

/-- The elements of the table that a consistent array is. -/
theorem Consistent.element {v : Value} (h : v.Consistent) (hdims : v.dims = n :: m :: inner)
    {i j : Nat} (hi : i < n) (hj : j < m) :
    ((v.entryAt? [i, j]).getD .fail).Consistent
      ∧ ((v.entryAt? [i, j]).getD .fail).dims = inner := by
  obtain ⟨w, hw, hconsistent⟩ := h.exists_element hdims hi hj
  rw [hw]
  exact hconsistent

/-- A consistent array with two dimensions or more is the table of its elements. -/
theorem Consistent.eq_tabled {v : Value} (h : v.Consistent) (hdims : v.dims = n :: m :: inner) :
    v = tabled n m inner fun i j => (v.entryAt? [i, j]).getD .fail := by
  apply h.ext (consistent_tabled fun i hi j hj => h.element hdims hi hj) hdims
  intro ks hks
  rw [hdims] at hks
  obtain ⟨i, rest, hi, hrest, rfl⟩ := mem_positions_cons.mp hks
  obtain ⟨j, rest, hj, -, rfl⟩ := mem_positions_cons.mp hrest
  obtain ⟨w, hw, -⟩ := h.exists_element hdims hi hj
  rw [entryAt?_cons_cons, entryAt?_cons_cons (tabled _ _ _ _), entryAt?_tabled hi hj, hw]
  rfl

/-- Transposing is defined for every consistent array with two dimensions or more. It exchanges the
first two sizes and the first two indices of every element, and is undone by transposing again. -/
theorem Consistent.transposed {v : Value} (h : v.Consistent) (hdims : v.dims = n :: m :: inner) :
    ∃ t, v.transpose? = some t ∧ t.Consistent ∧ t.dims = m :: n :: inner
      ∧ (∀ i < n, ∀ j < m, ∃ w, v.entryAt? [i, j] = some w ∧ t.entryAt? [j, i] = some w)
      ∧ t.transpose? = some v := by
  have hv := h.eq_tabled hdims
  refine ⟨tabled m n inner fun j i => (v.entryAt? [i, j]).getD .fail, ?_, ?_, rfl, ?_, ?_⟩
  · rw [← transpose?_tabled, ← hv]
  · exact consistent_tabled fun j hj i hi => h.element hdims hi hj
  · intro i hi j hj
    obtain ⟨w, hw, -⟩ := h.exists_element hdims hi hj
    refine ⟨w, hw, ?_⟩
    rw [entryAt?_tabled hj hi, hw]
    rfl
  · rw [transpose?_tabled, ← hv]

end ModelicaFold.Value
