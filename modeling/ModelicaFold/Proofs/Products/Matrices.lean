import ModelicaFold.Proofs.Products.Exact
import ModelicaFold.Proofs.Shape.Transposed

/-!
# Products of matrices and vectors of Integers

The product of two arrays of Integers, of which at least one is a matrix, has an entry for each row
of the left and each column of the right operand: the sum of the products over the inner dimension.
It is exact, or it overflows (`matrix_product`).

Whether an operand is a matrix is read off its first element, so a matrix without rows is taken for
a vector: the product of such a matrix has the wrong sizes, or is refused
(`matrix_product_without_rows`). Sizes that differ go unnoticed if the product has no entries.
-/

namespace ModelicaFold

open Finset (range)

namespace Value

/-! ## Arrays of Integers -/

/-- A consistent array of Integers, given by a table of its entries. -/
structure HasIntegers (v : Value) (entry : List Nat → Int) : Prop where
  consistent : v.Consistent
  entryAt?_eq : ∀ p ∈ positions v.dims, v.entryAt? p = some (.integer (entry p))

/-- Rows of Integers. -/
def integerRows (m k : Nat) (f : Nat → Nat → Int) : List (List Value) :=
  (List.range m).map fun r => integers k (f r)

/-- There are as many rows as asked for. -/
@[simp]
theorem length_integerRows (m k : Nat) (f : Nat → Nat → Int) : (integerRows m k f).length = m := by
  simp [integerRows]

/-- The only size of a vector is the number of its entries. -/
theorem dims_vector (k : Nat) (f : Nat → Int) : (vector (integers k f)).dims = [k] := by
  simp [vector, dims]

/-- The sizes of a matrix are the numbers of its rows and columns. -/
theorem dims_matrix (m k : Nat) (f : Nat → Nat → Int) :
    (matrix (integerRows m k f) k).dims = [m, k] := by
  simp [matrix, dims]

/-- The elements of an array of Integers are Integers or arrays of Integers. -/
theorem HasIntegers.elements {v : Value} {entry : List Nat → Int} (h : v.HasIntegers entry)
    {n : Nat} {inner : List Nat} (hdims : v.dims = n :: inner) :
    ∃ elements : List Value, v = .array elements.toArray (n :: inner) ∧ elements.length = n
      ∧ ∀ r (hr : r < elements.length), elements[r].dims = inner
        ∧ elements[r].HasIntegers fun p => entry (r :: p) := by
  obtain ⟨elements, rfl, hlength, hall⟩ := h.consistent.elements hdims
  refine ⟨elements, rfl, hlength, fun r hr => ?_⟩
  obtain ⟨hconsistent, hinner⟩ := hall elements[r] (List.getElem_mem hr)
  refine ⟨hinner, hconsistent, fun p hp => ?_⟩
  have hentry := h.entryAt?_eq (r :: p)
    (mem_positions_cons.mpr ⟨r, p, hlength ▸ hr, hinner ▸ hp, rfl⟩)
  rwa [entryAt?_array_cons, List.getElem?_eq_getElem hr, Option.bind_some] at hentry

/-- An array of Integers without a size is an Integer. -/
theorem HasIntegers.eq_integer {v : Value} {entry : List Nat → Int} (h : v.HasIntegers entry)
    (hdims : v.dims = []) : v = .integer (entry []) :=
  Option.some.inj (h.entryAt?_eq [] (by rw [hdims]; exact List.mem_singleton_self []))

/-- An array of Integers with one dimension is the vector of its entries. -/
theorem HasIntegers.eq_vector {v : Value} {entry : List Nat → Int} (h : v.HasIntegers entry)
    {k : Nat} (hdims : v.dims = [k]) : v = vector (integers k fun i => entry [i]) := by
  obtain ⟨elements, rfl, rfl, hall⟩ := h.elements hdims
  have helements : elements = integers elements.length fun i => entry [i] := by
    refine List.ext_getElem (by simp) fun i hi _ => ?_
    obtain ⟨hinner, hinteger⟩ := hall i hi
    simp [integers, hinteger.eq_integer hinner]
  rw [vector, ← helements]

/-- An array of Integers with two dimensions is the matrix of its entries. -/
theorem HasIntegers.eq_matrix {v : Value} {entry : List Nat → Int} (h : v.HasIntegers entry)
    {m k : Nat} (hdims : v.dims = [m, k]) :
    v = matrix (integerRows m k fun r i => entry [r, i]) k := by
  obtain ⟨elements, rfl, rfl, hall⟩ := h.elements hdims
  have helements : elements
      = (integerRows elements.length k fun r i => entry [r, i]).map fun row =>
        .array row.toArray [k] := by
    refine List.ext_getElem (by simp [integerRows]) fun r hr _ => ?_
    obtain ⟨hinner, hintegers⟩ := hall r hr
    simp [integerRows, hintegers.eq_vector hinner, vector]
  rw [matrix, ← helements]
  simp [integerRows]

/-- A vector has the Integers that it is made of. -/
theorem hasIntegers_vector (k : Nat) (entry : List Nat → Int) :
    (vector (integers k fun i => entry [i])).HasIntegers entry where
  consistent := consistent_vector fun v hv => by
    obtain ⟨i, _, rfl⟩ := List.mem_map.mp hv
    exact ⟨consistent_integer _, rfl⟩
  entryAt?_eq p hp := by
    rw [dims_vector] at hp
    obtain ⟨i, q, hi, hq, rfl⟩ := mem_positions_cons.mp hp
    obtain rfl := List.mem_singleton.mp hq
    rw [vector, entryAt?_array_cons]
    simp [integers, hi, entryAt?]

/-- A matrix has the Integers that it is made of. -/
theorem hasIntegers_matrix (m k : Nat) (entry : List Nat → Int) :
    (matrix (integerRows m k fun r i => entry [r, i]) k).HasIntegers entry where
  consistent := consistent_matrix fun row hrow => by
    obtain ⟨r, _, rfl⟩ := List.mem_map.mp hrow
    refine ⟨length_integers k _, fun v hv => ?_⟩
    obtain ⟨i, _, rfl⟩ := List.mem_map.mp hv
    exact ⟨consistent_integer _, rfl⟩
  entryAt?_eq p hp := by
    rw [dims_matrix] at hp
    obtain ⟨r, q, hr, hq, rfl⟩ := mem_positions_cons.mp hp
    have hrow := (hasIntegers_vector k fun p => entry (r :: p)).entryAt?_eq q
      (by rwa [dims_vector])
    rw [matrix, entryAt?_array_cons]
    simpa [integerRows, hr, vector] using hrow

/-! ## Operands -/

/-- A vector is not taken for a matrix. -/
theorem isMatrix_vector (k : Nat) (f : Nat → Int) : (vector (integers k f)).isMatrix = false := by
  cases k <;> simp [vector, isMatrix, integers, List.range_succ_eq_map, isArray]

/-- A matrix shows as one if it has a row. -/
theorem isMatrix_matrix (m k : Nat) (f : Nat → Nat → Int) :
    (matrix (integerRows m k f) k).isMatrix = decide (m ≠ 0) := by
  cases m <;> simp [matrix, isMatrix, integerRows, List.range_succ_eq_map, isArray]

/-- The elements of a vector are what it is made of. -/
theorem vectorElements_vector (elements : List Value) :
    vectorElements (vector elements) = .ok elements := rfl

/-- The rows of a matrix are what it is made of. -/
theorem rows?_matrix (rows : List (List Value)) (k : Nat) : (matrix rows k).rows? = some rows := by
  refine mapM_eq_some.mpr ?_
  rw [List.toList_toArray, List.forall₂_map_left_iff]
  exact List.forall₂_same.mpr fun row _ => by rw [row?]

/-- The rows of a matrix are found where it is a factor. -/
theorem matrixRows_matrix (rows : List (List Value)) (k : Nat) :
    matrixRows (matrix rows k) = .ok rows := by
  rw [matrixRows, rows?_matrix]

/-- A matrix of Integers is the table of its entries. -/
theorem matrix_eq_tabled (m k : Nat) (f : Nat → Nat → Int) :
    matrix (integerRows m k f) k = tabled m k [] fun r i => .integer (f r i) := by
  rw [matrix, length_integerRows]
  rfl

/-- The transpose of a matrix of Integers has the entries the other way round. -/
theorem transpose?_matrix (m k : Nat) (f : Nat → Nat → Int) :
    (matrix (integerRows m k f) k).transpose?
      = some (matrix (integerRows k m fun i r => f r i) m) := by
  rw [matrix_eq_tabled, matrix_eq_tabled, transpose?_tabled]

/-- The columns of a matrix of Integers are the rows of its transpose. -/
theorem matrixColumns_matrix (m k : Nat) (f : Nat → Nat → Int) :
    matrixColumns (matrix (integerRows m k f) k) = .ok (integerRows k m fun i r => f r i) := by
  rw [matrixColumns, transpose?_matrix]
  simp [matrix, elementList, elements?, Function.comp_def]

/-! ## Products -/

/-- The entry of a product for a row of the left and a column of the right operand. -/
def productEntry (k : Nat) (left right : List Nat → Int) (row column : List Nat) : Int :=
  ∑ i ∈ range k, left (row ++ [i]) * right (i :: column)

variable {m k n : Nat} (f g : Nat → Nat → Int) (x y : Nat → Int)

/-- The scalar products of some rows with a vector. -/
theorem exact_rows (m : Nat) :
    ExactIf (∀ r < m, SumFits k fun i => f r i * y i)
      (integers m fun r => ∑ i ∈ range k, f r i * y i)
      ((integerRows m k f).mapM fun row => dotProduct row (integers k y)) :=
  ExactIf.mapM_range fun r _ => exact_dotProduct k (f r) y

/-- The scalar products of a vector with some columns. -/
theorem exact_columns (n : Nat) :
    ExactIf (∀ c < n, SumFits k fun i => x i * g i c)
      (integers n fun c => ∑ i ∈ range k, x i * g i c)
      ((integerRows n k fun c i => g i c).mapM fun column => dotProduct (integers k x) column) :=
  ExactIf.mapM_range fun c _ => exact_dotProduct k x fun i => g i c

/-- A matrix with a row times a vector. -/
theorem exact_matrix_vector (hm : m ≠ 0) :
    ExactIf (∀ r < m, SumFits k fun i => f r i * y i)
      (vector (integers m fun r => ∑ i ∈ range k, f r i * y i))
      (matrixProduct (matrix (integerRows m k f) k) (vector (integers k y))) := by
  simp only [matrixProduct, isMatrix_matrix, isMatrix_vector, hm, ne_eq, not_false_eq_true,
    decide_true, matrixRows_matrix, vectorElements_vector]
  exact (exact_rows f y m).map vector

/-- A vector times a matrix with a row. -/
theorem exact_vector_matrix (hk : k ≠ 0) :
    ExactIf (∀ c < n, SumFits k fun i => x i * g i c)
      (vector (integers n fun c => ∑ i ∈ range k, x i * g i c))
      (matrixProduct (vector (integers k x)) (matrix (integerRows k n g) n)) := by
  simp only [matrixProduct, isMatrix_matrix, isMatrix_vector, hk, ne_eq, not_false_eq_true,
    decide_true, matrixColumns_matrix, vectorElements_vector]
  exact (exact_columns g x n).map vector

/-- A matrix with a row times a matrix with a row. -/
theorem exact_matrix_matrix (hm : m ≠ 0) (hk : k ≠ 0) :
    ExactIf (∀ r < m, ∀ c < n, SumFits k fun i => f r i * g i c)
      (matrix (integerRows m n fun r c => ∑ i ∈ range k, f r i * g i c) n)
      (matrixProduct (matrix (integerRows m k f) k) (matrix (integerRows k n g) n)) := by
  simp only [matrixProduct, isMatrix_matrix, hm, hk, ne_eq, not_false_eq_true, decide_true,
    matrixRows_matrix, matrixColumns_matrix]
  have hrows : ExactIf (∀ r < m, ∀ c < n, SumFits k fun i => f r i * g i c)
      (integerRows m n fun r c => ∑ i ∈ range k, f r i * g i c)
      ((integerRows m k f).mapM fun row =>
        (integerRows n k fun c i => g i c).mapM fun column => dotProduct row column) :=
    ExactIf.mapM_range fun r _ => exact_columns g (f r) n
  change ExactIf _ _
    (_ >>= fun rows => pure (matrix rows (integerRows n k fun c i => g i c).length))
  rw [length_integerRows]
  exact hrows.map fun rows => matrix rows n

/-! ## Operands that do not fit -/

/-- With at least one row the list of rows is not empty. -/
theorem integerRows_ne_nil (hm : m ≠ 0) : integerRows m k f ≠ [] :=
  List.ne_nil_of_length_pos (by rw [length_integerRows]; omega)

section Mismatch

variable {l : Nat} (h : k ≠ l)
include h

/-- Some rows and a vector of another size. -/
theorem rows_mismatch {v : List Value} (hm : m ≠ 0) (hv : v.length = l) :
    ((integerRows m k f).mapM fun row => dotProduct row v) = (sizeMismatch k l).fail := by
  refine mapM_eq_fail (integerRows_ne_nil f hm) fun row hrow => ?_
  obtain ⟨r, _, rfl⟩ := List.mem_map.mp hrow
  exact dotProduct_mismatch (length_integers k _) hv h

/-- A vector and some columns of another size. -/
theorem columns_mismatch (hn : n ≠ 0) :
    ((integerRows n l fun c i => g i c).mapM fun column => dotProduct (integers k x) column)
      = (sizeMismatch k l).fail := by
  refine mapM_eq_fail (integerRows_ne_nil _ hn) fun column hcolumn => ?_
  obtain ⟨c, _, rfl⟩ := List.mem_map.mp hcolumn
  exact dotProduct_mismatch (length_integers k x) (length_integers l _) h

/-- A matrix and a vector of another length than its rows do not fit. -/
theorem mismatch_matrix_vector (hm : m = 0 → l ≠ 0) :
    ∃ size, matrixProduct (matrix (integerRows m k f) k) (vector (integers l y))
      = (sizeMismatch size l).fail := by
  by_cases hzero : m = 0
  · -- the left operand is taken for a vector without elements
    subst hzero
    refine ⟨0, ?_⟩
    simp only [matrixProduct, isMatrix_matrix, isMatrix_vector, ne_eq, not_true_eq_false,
      decide_false]
    exact dotProduct_mismatch rfl (length_integers l y) (hm rfl).symm
  · refine ⟨k, ?_⟩
    simp only [matrixProduct, isMatrix_matrix, isMatrix_vector, hzero, ne_eq, not_false_eq_true,
      decide_true, matrixRows_matrix, vectorElements_vector]
    exact congrArg (· >>= fun products => pure (vector products))
      (rows_mismatch f h hzero (length_integers l y))

/-- A vector and a matrix with columns of another length do not fit. -/
theorem mismatch_vector_matrix (hn : n ≠ 0) :
    ∃ size, matrixProduct (vector (integers k x)) (matrix (integerRows l n g) n)
      = (sizeMismatch size l).fail := by
  refine ⟨k, ?_⟩
  by_cases hl : l = 0
  · -- the right operand is taken for a vector without elements
    subst hl
    simp only [matrixProduct, isMatrix_matrix, isMatrix_vector, ne_eq, not_true_eq_false,
      decide_false]
    exact dotProduct_mismatch (length_integers k x) rfl h
  · simp only [matrixProduct, isMatrix_matrix, isMatrix_vector, hl, ne_eq, not_false_eq_true,
      decide_true, matrixColumns_matrix, vectorElements_vector]
    exact congrArg (· >>= fun products => pure (vector products)) (columns_mismatch g x h hn)

/-- Two matrices whose inner sizes differ do not fit. -/
theorem mismatch_matrix_matrix (hm : m = 0 → l ≠ 0) (hn : n ≠ 0) :
    ∃ size, matrixProduct (matrix (integerRows m k f) k) (matrix (integerRows l n g) n)
      = (sizeMismatch size l).fail := by
  by_cases hzero : m = 0
  · subst hzero
    refine ⟨0, ?_⟩
    simp only [matrixProduct, isMatrix_matrix, hm rfl, ne_eq, not_true_eq_false, not_false_eq_true,
      decide_false, decide_true, matrixColumns_matrix]
    exact congrArg (· >>= fun products => pure (vector products))
      (columns_mismatch g (fun _ => 0) (hm rfl).symm hn)
  refine ⟨k, ?_⟩
  by_cases hl : l = 0
  · subst hl
    simp only [matrixProduct, isMatrix_matrix, hzero, ne_eq, not_false_eq_true, not_true_eq_false,
      decide_true, decide_false, matrixRows_matrix]
    exact congrArg (· >>= fun products => pure (vector products)) (rows_mismatch f h hzero rfl)
  · have hrows : ((integerRows m k f).mapM fun row =>
        (integerRows n l fun c i => g i c).mapM fun column => dotProduct row column)
          = (sizeMismatch k l).fail := by
      refine mapM_eq_fail (integerRows_ne_nil f hzero) fun row hrow => ?_
      obtain ⟨r, _, rfl⟩ := List.mem_map.mp hrow
      exact columns_mismatch g (f r) h hn
    simp only [matrixProduct, isMatrix_matrix, hzero, hl, ne_eq, not_false_eq_true, decide_true,
      matrixRows_matrix, matrixColumns_matrix]
    exact congrArg (· >>= fun rows => pure (matrix rows _)) hrows

end Mismatch

/-! ## The product of two arrays -/

/-- A value with an entry for each row of the left and each column of the right operand of a
product. -/
structure IsProduct (k : Nat) (left right : List Nat → Int) (rows columns : List Nat) (w : Value) :
    Prop where
  consistent : w.Consistent
  dims_eq : w.dims = rows ++ columns
  entryAt?_eq : ∀ r ∈ positions rows, ∀ c ∈ positions columns,
    w.entryAt? (r ++ c) = some (.integer (productEntry k left right r c))

variable {left right : List Nat → Int} {rows columns : List Nat}

/-- A product as the table of its entries. -/
theorem HasIntegers.isProduct {w : Value}
    (h : w.HasIntegers fun p =>
      productEntry k left right (p.take rows.length) (p.drop rows.length))
    (hdims : w.dims = rows ++ columns) : IsProduct k left right rows columns w where
  consistent := h.consistent
  dims_eq := hdims
  entryAt?_eq r hr c hc := by
    have hr' := mem_positions.mp hr
    have hp : r ++ c ∈ positions w.dims := by
      rw [hdims]
      exact mem_positions.mpr (List.rel_append hr' (mem_positions.mp hc))
    rw [h.entryAt?_eq _ hp, ← hr'.length_eq, List.take_left, List.drop_left]

/-- Without dimensions there is one position. -/
theorem forall_positions_nil {P : List Nat → Prop} : (∀ p ∈ positions [], P p) ↔ P [] := by
  simp [positions]

/-- With one dimension the positions are the numbers below its size. -/
theorem forall_positions_singleton {P : List Nat → Prop} :
    (∀ p ∈ positions [n], P p) ↔ ∀ i < n, P [i] := by
  simp [positions_singleton]

/-- Every scalar product of a row of the left and a column of the right operand stays in range. -/
def ProductFits (k : Nat) (left right : List Nat → Int) (rows columns : List Nat) : Prop :=
  ∀ r ∈ positions rows, ∀ c ∈ positions columns, SumFits k fun i => left (r ++ [i]) * right (i :: c)

/-- The product of a matrix with rows and a vector is exact or overflows. -/
theorem product_matrix_vector {a b : Value} (ha : a.HasIntegers left) (hb : b.HasIntegers right)
    (hadims : a.dims = [m, k]) (hbdims : b.dims = [k]) (hm : m ≠ 0) :
    ∃ w, IsProduct k left right [m] [] w
      ∧ ExactIf (ProductFits k left right [m] []) w (matrixProduct a b) := by
  rw [ha.eq_matrix hadims, hb.eq_vector hbdims]
  have hexact := exact_matrix_vector (k := k) (fun r i => left [r, i]) (fun i => right [i]) hm
  refine ⟨_, (hasIntegers_vector m _).isProduct (dims_vector m _), hexact.congr ?_⟩
  rw [ProductFits, forall_positions_singleton]
  simp only [forall_positions_nil]
  rfl

/-- The product of a vector and a matrix with rows is exact or overflows. -/
theorem product_vector_matrix {a b : Value} (ha : a.HasIntegers left) (hb : b.HasIntegers right)
    (hadims : a.dims = [k]) (hbdims : b.dims = [k, n]) (hk : k ≠ 0) :
    ∃ w, IsProduct k left right [] [n] w
      ∧ ExactIf (ProductFits k left right [] [n]) w (matrixProduct a b) := by
  rw [ha.eq_vector hadims, hb.eq_matrix hbdims]
  have hexact := exact_vector_matrix (n := n) (fun i c => right [i, c]) (fun i => left [i]) hk
  refine ⟨_, (hasIntegers_vector n _).isProduct (dims_vector n _), hexact.congr ?_⟩
  rw [ProductFits, forall_positions_nil, forall_positions_singleton]
  rfl

/-- The product of two matrices with rows is exact or overflows. -/
theorem product_matrix_matrix {a b : Value} (ha : a.HasIntegers left) (hb : b.HasIntegers right)
    (hadims : a.dims = [m, k]) (hbdims : b.dims = [k, n]) (hm : m ≠ 0) (hk : k ≠ 0) :
    ∃ w, IsProduct k left right [m] [n] w
      ∧ ExactIf (ProductFits k left right [m] [n]) w (matrixProduct a b) := by
  rw [ha.eq_matrix hadims, hb.eq_matrix hbdims]
  have hexact := exact_matrix_matrix (n := n) (fun r i => left [r, i]) (fun i c => right [i, c])
    hm hk
  refine ⟨_, (hasIntegers_matrix m n _).isProduct (dims_matrix m n _), hexact.congr ?_⟩
  rw [ProductFits, forall_positions_singleton]
  simp only [forall_positions_singleton]
  rfl

/-- The product of arrays of Integers, of which one or both are matrices, is exact or overflows if
the inner sizes are equal and every matrix has a row. It is refused if the inner sizes differ,
unless the right operand has no columns or neither operand has rows. -/
theorem matrix_product {a b : Value} {k l : Nat} (ha : a.HasIntegers left)
    (hb : b.HasIntegers right) (hadims : a.dims = rows ++ [k]) (hbdims : b.dims = l :: columns)
    (hrank : rows.length ≤ 1 ∧ columns.length ≤ 1 ∧ rows ++ columns ≠ []) :
    (k = l → 0 ∉ rows → (columns ≠ [] → l ≠ 0) → ∃ w, IsProduct k left right rows columns w
      ∧ ExactIf (ProductFits k left right rows columns) w (binary .matrixProduct a b))
    ∧ (k ≠ l → 0 ∉ columns → (0 ∈ rows → l ≠ 0) →
      ∃ size, binary .matrixProduct a b = (sizeMismatch size l).fail) := by
  obtain ⟨hrowsLength, hcolumnsLength, hne⟩ := hrank
  have hnonzero : ∀ {n : Nat}, 0 ∉ [n] → n ≠ 0 := fun h hn => h (List.mem_singleton.mpr hn.symm)
  constructor
  · rintro rfl hrows hshown
    match rows, columns with
    | [], [] => exact absurd rfl hne
    | [m], [] => exact product_matrix_vector ha hb hadims hbdims (hnonzero hrows)
    | [], [n] => exact product_vector_matrix ha hb hadims hbdims (hshown (by simp))
    | [m], [n] =>
      exact product_matrix_matrix ha hb hadims hbdims (hnonzero hrows) (hshown (by simp))
  · intro h hcolumns hshown
    match rows, columns with
    | [], [] => exact absurd rfl hne
    | [m], [] =>
      rw [ha.eq_matrix hadims, hb.eq_vector hbdims]
      exact mismatch_matrix_vector _ _ h fun hm => hshown (by simp [hm])
    | [], [n] =>
      rw [ha.eq_vector hadims, hb.eq_matrix hbdims]
      exact mismatch_vector_matrix _ _ h (hnonzero hcolumns)
    | [m], [n] =>
      rw [ha.eq_matrix hadims, hb.eq_matrix hbdims]
      exact mismatch_matrix_matrix _ _ h (fun hm => hshown (by simp [hm])) (hnonzero hcolumns)

/-- A product of a matrix with two rows and one with two columns, and what is refused. -/
theorem matrix_product_two_by_three :
    (∃ w, binary .matrixProduct
        (.matrix [[.integer 1, .integer 2, .integer 3], [.integer 4, .integer 5, .integer 6]] 3)
        (.matrix [[.integer 0, .integer 1], [.integer 2, .integer 3], [.integer 4, .integer 5]] 2)
        = .ok w ∧ w.dims = [2, 2] ∧ w.entryAt? [1, 0] = some (.integer 34))
      ∧ ∃ size, binary .matrixProduct
        (.matrix [[.integer 1, .integer 2, .integer 3], [.integer 4, .integer 5, .integer 6]] 3)
        (.vector [.integer 7, .integer 8]) = (sizeMismatch size 2).fail := by
  have ha := hasIntegers_matrix 2 3 fun p => 3 * p.getD 0 0 + p.getD 1 0 + 1
  have hb := hasIntegers_matrix 3 2 fun p => 2 * p.getD 0 0 + p.getD 1 0
  have hv := hasIntegers_vector 2 fun p => p.getD 0 0 + 7
  have hrank : [2].length ≤ 1 ∧ [2].length ≤ 1 ∧ [2] ++ [2] ≠ [] := by decide
  have hrank' : [2].length ≤ 1 ∧ ([] : List Nat).length ≤ 1 ∧ [2] ++ [] ≠ [] := by decide
  constructor
  · obtain ⟨w, hw, hexact⟩ := (matrix_product ha hb rfl rfl hrank).1 rfl (by decide) (by decide)
    refine ⟨w, hexact.of_fits (by unfold ProductFits SumFits; decide), hw.dims_eq, ?_⟩
    exact hw.entryAt?_eq [1] (by decide) [0] (by decide)
  · exact (matrix_product ha hv rfl rfl hrank').2 (by decide) (by decide) (by decide)

/-- A matrix without columns times one without rows. -/
theorem matrix_product_without_rows :
    (Value.matrix [[], []] 0).HasIntegers (fun _ => 0) ∧ (Value.matrix [[], []] 0).dims = [2, 0]
      ∧ (Value.matrix [] 3).HasIntegers (fun _ => 0) ∧ (Value.matrix [] 3).dims = [0, 3]
      ∧ binary .matrixProduct (.matrix [[], []] 0) (.matrix [] 3)
        = .ok (.vector [.integer 0, .integer 0]) :=
  ⟨hasIntegers_matrix 2 0 _, rfl, hasIntegers_matrix 0 3 _, rfl, rfl⟩

end Value

end ModelicaFold
