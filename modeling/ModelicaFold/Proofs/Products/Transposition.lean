import Mathlib.LinearAlgebra.CrossProduct
import Mathlib.LinearAlgebra.Matrix.RowCol
import ModelicaFold.Builtin.Arrays
import ModelicaFold.Proofs.Products.Powers
import ModelicaFold.Proofs.Shape.Leaves

/-!
# Transposition and products

Transposing a consistent array exchanges its first two dimensions and undoes itself. For matrices of
Integers it turns a product around: the scalar products that are formed are the same, term by term,
so the two sides overflow together. The products of two vectors are instances of the matrix product,
the vector product with a skew matrix and the outer product with a single column and a single row
(`transposition_laws`).
-/

namespace ModelicaFold.Value

open Builtin (transpose cross skew outerProduct matrixOf mul sub minor)
open Finset (range)
open Matrix (replicateCol replicateRow vecMulVec)

variable {m k n : Nat}

/-! ## Transposed products -/

/-- The entries of a transposed matrix are its entries with row and column exchanged. -/
theorem entries_transpose (M : Matrix (Fin m) (Fin n) Int) :
    entries M.transpose = fun c r => entries M r c := by
  funext c r
  unfold entries
  by_cases h : r < m ∧ c < n
  · rw [dif_pos h, dif_pos h.symm]
    rfl
  · rw [dif_neg h, dif_neg (mt And.symm h)]

/-- A value that can be transposed is transposed by the built-in function. -/
theorem transpose_eq_ok {v t : Value} (h : v.transpose? = some t) : transpose [v] = .ok t := by
  have hunboxed : v.unboxed = v := by
    cases v with
    | boxed => cases h
    | _ => rfl
  have htakes : Builtin.takes "transpose" 1 [v] = .ok () := rfl
  have harg : Builtin.arg "transpose" [v] 0 = .ok v := congrArg Except.ok hunboxed
  rw [transpose, htakes, harg, Outcome.ok_bind, Outcome.ok_bind, h]
  rfl

/-- The array of a matrix is transposed to the array of the transposed matrix. -/
theorem transpose_ofMatrix (M : Matrix (Fin m) (Fin n) Int) :
    transpose [ofMatrix M] = .ok (ofMatrix M.transpose) := by
  apply transpose_eq_ok
  rw [ofMatrix, transpose?_matrix, ofMatrix, entries_transpose]

/-- The product of the transposed matrices fits into words if the product does. -/
theorem multiplicationFits_transpose (M : Matrix (Fin m) (Fin k) Int)
    (N : Matrix (Fin k) (Fin n) Int) :
    MultiplicationFits N.transpose M.transpose ↔ MultiplicationFits M N := by
  unfold MultiplicationFits
  rw [forall_comm]
  simp only [Matrix.transpose_apply, mul_comm]

/-! ## Vectors -/

/-- A vector of Integers with the given entries. -/
structure HasVector {n : Nat} (v : Value) (x : Fin n → Int) : Prop where
  consistent : v.Consistent
  dims_eq : v.dims = [n]
  entryAt?_eq : ∀ i, v.entryAt? [i.val] = some (.integer (x i))

/-- The entries of a vector as a list without bounds: the only column of a matrix. -/
def components (x : Fin n → Int) (i : Nat) : Int := entries (replicateCol (Fin 1) x) i 0

/-- The components of a vector are its values. -/
@[simp]
theorem components_val (x : Fin n → Int) (i : Fin n) : components x i = x i :=
  entries_val (replicateCol (Fin 1) x) i 0

/-- The value of a vector. -/
def ofVector (x : Fin n → Int) : Value := vector (integers n (components x))

/-- The array of a vector has the vector. -/
theorem hasVector_ofVector (x : Fin n → Int) : (ofVector x).HasVector x where
  consistent := (hasIntegers_vector n fun p => components x (p.getD 0 0)).consistent
  dims_eq := dims_vector n _
  entryAt?_eq i := by
    have hentry := (hasIntegers_vector n fun p => components x (p.getD 0 0)).entryAt?_eq [i]
      (by simp [dims_vector, mem_positions])
    simpa [ofVector] using hentry

/-- An array that has a vector is the array of the vector. -/
theorem HasVector.eq_ofVector {v : Value} {x : Fin n → Int} (h : v.HasVector x) :
    v = ofVector x := by
  have hintegers : v.HasIntegers fun p => components x (p.getD 0 0) := by
    refine ⟨h.consistent, fun p hp => ?_⟩
    rw [h.dims_eq] at hp
    obtain ⟨i, q, hi, hnil, rfl⟩ := mem_positions_cons.mp hp
    obtain rfl := List.mem_singleton.mp hnil
    have hentry := h.entryAt?_eq ⟨i, hi⟩
    rw [← components_val x ⟨i, hi⟩] at hentry
    exact hentry
  exact hintegers.eq_vector h.dims_eq

/-- The product of a matrix with rows and a vector is the product over the integers, if that fits. -/
theorem exact_mulVec (hm : m ≠ 0) (M : Matrix (Fin m) (Fin k) Int) (y : Fin k → Int) :
    ExactIf (MultiplicationFits M (replicateCol (Fin 1) y)) (ofVector (M.mulVec y))
      (matrixProduct (ofMatrix M) (ofVector y)) := by
  have hexact := exact_matrix_vector (k := k) (entries M) (components y) hm
  have hsum : (integers m fun r => ∑ i ∈ range k, entries M r i * components y i)
      = integers m (components (M.mulVec y)) := by
    refine List.map_congr_left fun r hr => ?_
    rw [components, Matrix.replicateCol_mulVec,
      ← entries_mul M (replicateCol (Fin 1) y) (List.mem_range.mp hr) Nat.one_pos]
    rfl
  rw [hsum] at hexact
  refine hexact.congr ?_
  rw [← sumFits_entries_iff]
  simp only [Nat.lt_one_iff, forall_eq]
  rfl

/-! ## Vector products -/

/-- The matrix whose product with a vector is the vector product. -/
def skewMatrix (x : Fin 3 → Int) : Matrix (Fin 3) (Fin 3) Int :=
  !![0, -x 2, x 1; x 2, 0, -x 0; -x 1, x 0, 0]

/-- The skew matrix of a vector times another one is their cross product. -/
theorem skewMatrix_mulVec (x y : Fin 3 → Int) :
    (skewMatrix x).mulVec y = crossProduct x y := by
  rw [cross_apply]
  ext i
  rw [Matrix.mulVec, show skewMatrix x i ⬝ᵥ y = ∑ j, skewMatrix x i j * y j from rfl,
    Fin.sum_univ_three]
  fin_cases i <;> simp [skewMatrix] <;> ring

/-- The two products and the difference that are formed for each component of a vector product. -/
def CrossFits (x y : Fin 3 → Int) : Prop :=
  ∀ i, IsWord (x (i + 1) * y (i + 2)) ∧ IsWord (x (i + 2) * y (i + 1))
    ∧ IsWord (x (i + 1) * y (i + 2) - x (i + 2) * y (i + 1))

/-- A determinant of two rows and columns is exact or overflows. -/
theorem exact_minor (a b c d : Int) :
    ExactIf (IsWord (a * d) ∧ IsWord (b * c) ∧ IsWord (a * d - b * c)) (.integer (a * d - b * c))
      (minor (.integer a) (.integer b) (.integer c) (.integer d)) := by
  have hfirst : ExactIf (IsWord (a * d)) (.integer (a * d)) (mul (.integer a) (.integer d)) :=
    .inRange .mul _
  have hsecond : ExactIf (IsWord (b * c)) (.integer (b * c)) (mul (.integer b) (.integer c)) :=
    .inRange .mul _
  exact hfirst.bind (hsecond.bind (.inRange .sub _))

/-- The vector product is exact. -/
theorem exact_cross (x y : Fin 3 → Int) :
    ExactIf (CrossFits x y) (ofVector (crossProduct x y)) (cross [ofVector x, ofVector y]) := by
  have hfirst := exact_minor (x 1) (x 2) (y 1) (y 2)
  have hsecond := exact_minor (x 2) (x 0) (y 2) (y 0)
  have hthird := exact_minor (x 0) (x 1) (y 0) (y 1)
  have hsteps : cross [ofVector x, ofVector y] = (do
      let a ← minor (.integer (x 1)) (.integer (x 2)) (.integer (y 1)) (.integer (y 2))
      let b ← minor (.integer (x 2)) (.integer (x 0)) (.integer (y 2)) (.integer (y 0))
      let c ← minor (.integer (x 0)) (.integer (x 1)) (.integer (y 0)) (.integer (y 1))
      return vector [a, b, c]) := rfl
  have hvalue : ofVector (crossProduct x y) = vector [.integer (x 1 * y 2 - x 2 * y 1),
      .integer (x 2 * y 0 - x 0 * y 2), .integer (x 0 * y 1 - x 1 * y 0)] := rfl
  rw [hsteps, hvalue]
  refine (hfirst.bind (hsecond.bind (hthird.map fun c => vector [_, _, c]))).congr ?_
  unfold CrossFits
  constructor
  · rintro ⟨h0, h1, h2⟩ i
    fin_cases i
    · exact h0
    · exact h1
    · exact h2
  · intro h
    exact ⟨h 0, h 1, h 2⟩

/-- The matrix of a vector product is exact if the entries of the vector can be negated. -/
theorem exact_skew (x : Fin 3 → Int) :
    ExactIf (∀ i, IsWord (-x i)) (ofMatrix (skewMatrix x)) (skew [ofVector x]) := by
  have hminus : ∀ a : Int, ExactIf (IsWord (-a)) (.integer (-a)) (sub (.integer 0) (.integer a)) := by
    intro a
    rw [← Int.zero_sub]
    exact .inRange .sub _
  have hsteps : skew [ofVector x] = (do
      let a ← sub (.integer 0) (.integer (x 2))
      let b ← sub (.integer 0) (.integer (x 0))
      let c ← sub (.integer 0) (.integer (x 1))
      return matrix [[.integer 0, a, .integer (x 1)], [.integer (x 2), .integer 0, b],
        [c, .integer (x 0), .integer 0]] 3) := rfl
  have hvalue : ofMatrix (skewMatrix x) = matrix [[.integer 0, .integer (-x 2), .integer (x 1)],
      [.integer (x 2), .integer 0, .integer (-x 0)],
      [.integer (-x 1), .integer (x 0), .integer 0]] 3 := rfl
  rw [hsteps, hvalue]
  refine ((hminus (x 2)).bind ((hminus (x 0)).bind ((hminus (x 1)).map fun c =>
    matrix [[_, _, _], [_, _, _], [c, _, _]] 3))).congr ?_
  constructor
  · rintro ⟨h2, h0, h1⟩ i
    fin_cases i
    · exact h0
    · exact h1
    · exact h2
  · intro h
    exact ⟨h 2, h 0, h 1⟩

/-- The product of the matrix of a vector product is the vector product. -/
theorem exact_skew_product (x y : Fin 3 → Int) :
    ExactIf ((∀ i, IsWord (-x i)) ∧ MultiplicationFits (skewMatrix x) (replicateCol (Fin 1) y))
      (ofVector (crossProduct x y))
      (skew [ofVector x] >>= fun s => binary .matrixProduct s (ofVector y)) := by
  rw [← skewMatrix_mulVec]
  exact (exact_skew x).bind (exact_mulVec (by decide) (skewMatrix x) y)

/-! ## Outer products -/

/-- Chunks of one item are the items one by one. -/
theorem chunks_one (items : List Value) : chunks 1 items.length items = items.map fun v => [v] := by
  induction items with
  | nil => rfl
  | cons v items ih =>
    rw [List.length_cons, chunks, List.drop_one, List.tail_cons, ih]
    rfl

/-- The leaves of the array of a vector are its components. -/
theorem flatten_ofVector (x : Fin n → Int) :
    (ofVector x).flatten = integers n (components x) := by
  apply flatten_array_of_leaves
  intro v hv
  obtain ⟨i, _, rfl⟩ := List.mem_map.mp hv
  rfl

/-- A vector as a matrix is its only column. -/
theorem matrixOf_ofVector (x : Fin n → Int) :
    matrixOf [ofVector x] = .ok (ofMatrix (replicateCol (Fin 1) x)) := by
  have hread : matrixOf [ofVector x]
      = .ok (fromFlat (ofVector x).flatten [(integers n (components x)).length, 1]) := rfl
  have hsize : sizeProduct [1] = 1 := by decide
  have hrows : integers n (components x) = (List.range n).map fun r =>
      .integer (entries (replicateCol (Fin 1) x) r 0) := rfl
  rw [hread, flatten_ofVector, fromFlat, hsize, chunks_one, length_integers, hrows]
  simp [ofMatrix, matrix, integerRows, integers, fromFlat]

/-- A single column is transposed to a single row. -/
theorem transpose_replicateCol_one (y : Fin n → Int) :
    transpose [ofMatrix (replicateCol (Fin 1) y)] = .ok (ofMatrix (replicateRow (Fin 1) y)) := by
  rw [transpose_ofMatrix, Matrix.transpose_replicateCol]

/-- The product of a column and a row fits into words if the products of their components do. -/
theorem multiplicationFits_vectors (x : Fin m → Int) (y : Fin n → Int) :
    MultiplicationFits (replicateCol (Fin 1) x) (replicateRow (Fin 1) y)
      ↔ ∀ i j, IsWord (x i * y j) := by
  unfold MultiplicationFits
  refine forall₂_congr fun i j => ?_
  have honly : Finset.Iic (0 : Fin 1) = {0} := rfl
  rw [Fin.forall_fin_one, honly, Finset.sum_singleton]
  exact and_self_iff

/-- The product of a column and a row has an entry for each entry of the one and of the other. -/
theorem exact_column_row (hm : m ≠ 0) (x : Fin m → Int) (y : Fin n → Int) :
    ExactIf (∀ i j, IsWord (x i * y j)) (ofMatrix (vecMulVec x y))
      (binary .matrixProduct (ofMatrix (replicateCol (Fin 1) x))
        (ofMatrix (replicateRow (Fin 1) y))) := by
  rw [Matrix.vecMulVec_eq (Fin 1)]
  exact (exact_matrixProduct hm Nat.one_ne_zero _ _).congr (multiplicationFits_vectors x y)

/-- The outer product of two vectors is exact or overflows. -/
theorem exact_outerProduct (x : Fin m → Int) (y : Fin n → Int) :
    ExactIf (∀ i j, IsWord (x i * y j)) (ofMatrix (vecMulVec x y))
      (outerProduct [ofVector x, ofVector y]) := by
  have hrow : ∀ r < m, ExactIf (∀ c < n, IsWord (components x r * components y c))
      (integers n fun c => components x r * components y c)
      ((integers n (components y)).mapM (mul (.integer (components x r)))) := by
    intro r _
    exact ExactIf.mapM_range fun c _ => .inRange .mul _
  have hrows : ExactIf (∀ r < m, ∀ c < n, IsWord (components x r * components y c))
      (integerRows m n fun r c => components x r * components y c)
      ((integers m (components x)).mapM fun a => (integers n (components y)).mapM (mul a)) :=
    ExactIf.mapM_range hrow
  have hsteps : outerProduct [ofVector x, ofVector y] = (do
      let rows ← (integers m (components x)).mapM fun a => (integers n (components y)).mapM (mul a)
      return matrix rows (integers n (components y)).length) := rfl
  have hentries : (integerRows m n fun r c => components x r * components y c)
      = integerRows m n (entries (vecMulVec x y)) := by
    refine integerRows_congr fun r hr c hc => ?_
    rw [components_val x ⟨r, hr⟩, components_val y ⟨c, hc⟩]
    exact (entries_val (vecMulVec x y) ⟨r, hr⟩ ⟨c, hc⟩).symm
  rw [hentries] at hrows
  rw [hsteps, length_integers]
  refine (hrows.map fun rows => matrix rows n).congr ⟨fun h i j => ?_, fun h r hr c hc => ?_⟩
  · have hfits := h i i.isLt j j.isLt
    rwa [components_val, components_val] at hfits
  · rw [components_val x ⟨r, hr⟩, components_val y ⟨c, hc⟩]
    exact h ⟨r, hr⟩ ⟨c, hc⟩

/-! ## Laws of transposition -/

/-- Transposition exchanges the first two dimensions and undoes itself, and turns the product of two
matrices around. The vector product is a product with a matrix, and the outer product is that of a
column and a row. The two sides of a law give one value. They overflow together, except for the
vector product, where they add up different terms. -/
theorem transposition_laws :
    (∀ v : Value, v.Consistent → 2 ≤ v.rank → ∃ n m inner t, v.dims = n :: m :: inner
      ∧ transpose [v] = .ok t ∧ t.Consistent ∧ t.dims = m :: n :: inner
      ∧ (∀ i < n, ∀ j < m, ∃ w, v.entryAt? [i, j] = some w ∧ t.entryAt? [j, i] = some w)
      ∧ transpose [t] = .ok v)
    ∧ (∀ m k n : Nat, m ≠ 0 → k ≠ 0 → n ≠ 0 → ∀ (M : Matrix (Fin m) (Fin k) Int)
        (N : Matrix (Fin k) (Fin n) Int) (a b : Value), a.HasMatrix M → b.HasMatrix N →
      ∃ w : Value, w.HasMatrix (M * N).transpose
        ∧ ExactIf (MultiplicationFits M N) w
          (binary .matrixProduct a b >>= fun p => transpose [p])
        ∧ ExactIf (MultiplicationFits M N) w (do
          let b' ← transpose [b]
          let a' ← transpose [a]
          binary .matrixProduct b' a'))
    ∧ (∀ (x y : Fin 3 → Int) (a b : Value), a.HasVector x → b.HasVector y →
      ∃ w : Value, w.HasVector (crossProduct x y)
        ∧ ExactIf (CrossFits x y) w (cross [a, b])
        ∧ ExactIf ((∀ i, IsWord (-x i))
            ∧ MultiplicationFits (skewMatrix x) (replicateCol (Fin 1) y)) w
          (skew [a] >>= fun s => binary .matrixProduct s b))
    ∧ (∀ m n : Nat, m ≠ 0 → n ≠ 0 → ∀ (x : Fin m → Int) (y : Fin n → Int) (a b : Value),
        a.HasVector x → b.HasVector y →
      ∃ w : Value, w.HasMatrix (vecMulVec x y)
        ∧ ExactIf (∀ i j, IsWord (x i * y j)) w (outerProduct [a, b])
        ∧ ExactIf (∀ i j, IsWord (x i * y j)) w (do
          let column ← matrixOf [a]
          let other ← matrixOf [b]
          let row ← transpose [other]
          binary .matrixProduct column row)) := by
  refine ⟨?_, ?_, ?_, ?_⟩
  · intro v hv hrank
    obtain ⟨n, m, inner, hdims⟩ : ∃ n m inner, v.dims = n :: m :: inner := by
      match hd : v.dims with
      | [] | [_] => simp [rank, hd] at hrank
      | n :: m :: inner => exact ⟨n, m, inner, rfl⟩
    obtain ⟨t, ht, htc, htdims, hentries, hback⟩ := hv.transposed hdims
    exact ⟨n, m, inner, t, hdims, transpose_eq_ok ht, htc, htdims, hentries, transpose_eq_ok hback⟩
  · rintro m k n hm hk hn M N a b ha hb
    rw [ha.eq_ofMatrix, hb.eq_ofMatrix]
    refine ⟨_, hasMatrix_ofMatrix _, ?_, ?_⟩
    · have hturned : ExactIf True (ofMatrix (M * N).transpose) (transpose [ofMatrix (M * N)]) := by
        rw [transpose_ofMatrix]
        exact .pure _
      exact ((exact_matrixProduct hm hk M N).bind hturned).congr (and_iff_left trivial)
    · rw [transpose_ofMatrix, transpose_ofMatrix, Matrix.transpose_mul]
      exact (exact_matrixProduct hn hk _ _).congr (multiplicationFits_transpose M N)
  · rintro x y a b ha hb
    rw [ha.eq_ofVector, hb.eq_ofVector]
    exact ⟨_, hasVector_ofVector _, exact_cross x y, exact_skew_product x y⟩
  · rintro m n hm - x y a b ha hb
    rw [ha.eq_ofVector, hb.eq_ofVector]
    refine ⟨_, hasMatrix_ofMatrix _, exact_outerProduct x y, ?_⟩
    rw [matrixOf_ofVector, matrixOf_ofVector]
    show ExactIf _ _ (transpose [ofMatrix (replicateCol (Fin 1) y)] >>= _)
    rw [transpose_replicateCol_one]
    exact exact_column_row hm x y

/-- A matrix without rows, a product that overflows, and the two products of two vectors. -/
theorem transposition_laws_examples :
    (∃ t, transpose [matrix [] 3] = .ok t ∧ t.dims = [3, 0] ∧ transpose [t] = .ok (matrix [] 3))
      ∧ (∃ op : Arith, (do
          let b' ← transpose [matrix [[.integer (2 ^ 62)]] 1]
          let a' ← transpose [matrix [[.integer 2]] 1]
          binary .matrixProduct b' a') = (Cause.integerOverflow op.name).fail)
      ∧ (∃ w : Value, w.HasVector ![-3, 6, -3]
        ∧ cross [ofVector ![1, 2, 3], ofVector ![4, 5, 6]] = .ok w
        ∧ (skew [ofVector ![1, 2, 3]] >>= fun s => binary .matrixProduct s (ofVector ![4, 5, 6]))
          = .ok w)
      ∧ ∃ w : Value, w.HasMatrix !![3, 4; 6, 8]
        ∧ outerProduct [ofVector ![1, 2], ofVector ![3, 4]] = .ok w := by
  obtain ⟨htwice, hproduct, hcross, houter⟩ := transposition_laws
  refine ⟨?_, ?_, ?_, ?_⟩
  · have hempty : (matrix [] 3).Consistent := by
      apply consistent_matrix
      simp
    obtain ⟨n, m, inner, t, hdims, ht, -, htdims, -, hback⟩ := htwice _ hempty (by decide)
    obtain ⟨rfl, rfl, rfl⟩ : n = 0 ∧ m = 3 ∧ inner = [] := by simpa [matrix, dims] using hdims.symm
    exact ⟨t, ht, htdims, hback⟩
  · obtain ⟨w, -, -, hexact⟩ := hproduct 1 1 1 (by decide) (by decide) (by decide) !![2]
      !![2 ^ 62] (ofMatrix !![2]) (ofMatrix !![2 ^ 62]) (hasMatrix_ofMatrix _) (hasMatrix_ofMatrix _)
    apply hexact.of_not_fits
    intro h
    exact absurd (h 0 0 0).1 (by decide)
  · obtain ⟨w, hw, hleft, hright⟩ := hcross ![1, 2, 3] ![4, 5, 6] _ _ (hasVector_ofVector _)
      (hasVector_ofVector _)
    refine ⟨w, ?_, hleft.of_fits ?_, hright.of_fits ?_⟩
    · simpa [cross_apply] using hw
    · unfold CrossFits
      decide
    · unfold MultiplicationFits
      decide
  · obtain ⟨w, hw, hleft, -⟩ := houter 2 2 (by decide) (by decide) ![1, 2] ![3, 4] _ _
      (hasVector_ofVector _) (hasVector_ofVector _)
    refine ⟨w, ?_, hleft.of_fits (by decide)⟩
    have hentries : vecMulVec ![(1 : Int), 2] ![3, 4] = !![3, 4; 6, 8] := by decide
    rwa [hentries] at hw

end ModelicaFold.Value
