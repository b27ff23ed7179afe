import Mathlib.Data.Matrix.Mul
import Mathlib.LinearAlgebra.Matrix.Notation
import Mathlib.Order.Interval.Finset.Fin
import ModelicaFold.Proofs.Products.Matrices

/-!
# Powers of square matrices of Integers

A power is computed from the squares of its base that the exponent has digits for. Accumulator and
base are powers of one matrix all the way: from `M ^ p` and `M ^ b` with `n` left, what remains is
`M ^ (p + b * n)` (`exact_powerFrom`). So every product that is formed multiplies two powers whose
exponents add up to the exponent asked for at most, and the result is the power over the unbounded
integers, or an overflow.
-/

namespace ModelicaFold.Value

open Finset (range)

/-! ## Matrices as values -/

/-- A matrix of Integers with the given entries. -/
structure HasMatrix {m n : Nat} (v : Value) (M : Matrix (Fin m) (Fin n) Int) : Prop where
  consistent : v.Consistent
  dims_eq : v.dims = [m, n]
  entryAt?_eq : ∀ r c, v.entryAt? [r.val, c.val] = some (.integer (M r c))

section

variable {m k n : Nat}

/-- The entries of a matrix as a table without bounds. -/
def entries (M : Matrix (Fin m) (Fin n) Int) (r c : Nat) : Int :=
  if h : r < m ∧ c < n then M ⟨r, h.1⟩ ⟨c, h.2⟩ else 0

/-- At a row and a column of a matrix its entries are the matrix. -/
@[simp]
theorem entries_val (M : Matrix (Fin m) (Fin n) Int) (r : Fin m) (c : Fin n) :
    entries M r c = M r c :=
  dif_pos ⟨r.isLt, c.isLt⟩

/-- The value of a matrix. -/
def ofMatrix (M : Matrix (Fin m) (Fin n) Int) : Value := matrix (integerRows m n (entries M)) n

/-- The array of a matrix has the matrix. -/
theorem hasMatrix_ofMatrix (M : Matrix (Fin m) (Fin n) Int) : (ofMatrix M).HasMatrix M where
  consistent := (hasIntegers_matrix m n fun p => entries M (p.getD 0 0) (p.getD 1 0)).consistent
  dims_eq := dims_matrix m n _
  entryAt?_eq r c := by
    have hentry := (hasIntegers_matrix m n fun p => entries M (p.getD 0 0) (p.getD 1 0)).entryAt?_eq
      [r, c] (by simp [dims_matrix, mem_positions])
    simpa [ofMatrix] using hentry

/-- An array that has a matrix is the array of the matrix. -/
theorem HasMatrix.eq_ofMatrix {v : Value} {M : Matrix (Fin m) (Fin n) Int} (h : v.HasMatrix M) :
    v = ofMatrix M := by
  have hintegers : v.HasIntegers fun p => entries M (p.getD 0 0) (p.getD 1 0) := by
    refine ⟨h.consistent, fun p hp => ?_⟩
    rw [h.dims_eq] at hp
    obtain ⟨r, q, hr, hq, rfl⟩ := mem_positions_cons.mp hp
    obtain ⟨c, q, hc, hnil, rfl⟩ := mem_positions_cons.mp hq
    obtain rfl := List.mem_singleton.mp hnil
    have hentry := h.entryAt?_eq ⟨r, hr⟩ ⟨c, hc⟩
    rw [← entries_val M ⟨r, hr⟩ ⟨c, hc⟩] at hentry
    exact hentry
  exact hintegers.eq_matrix h.dims_eq

/-! ## Products -/

/-- Every product of entries and every partial sum that is formed for an entry of the product of two
matrices is in range. -/
def MultiplicationFits (M : Matrix (Fin m) (Fin k) Int) (N : Matrix (Fin k) (Fin n) Int) : Prop :=
  ∀ r c i, IsWord (M r i * N i c) ∧ IsWord (∑ j ∈ Finset.Iic i, M r j * N j c)

/-- The partial sums over numbers are the partial sums over indices of the matrices. -/
theorem sum_range_succ_entries (M : Matrix (Fin m) (Fin k) Int) (N : Matrix (Fin k) (Fin n) Int)
    (r : Fin m) (c : Fin n) (i : Fin k) :
    ∑ j ∈ range (i + 1), entries M r j * entries N j c = ∑ j ∈ Finset.Iic i, M r j * N j c := by
  rw [Nat.range_succ_eq_Iic, ← Fin.map_valEmbedding_Iic, Finset.sum_map]
  simp

/-- The sums of products of entries are the entries of the product. -/
theorem entries_mul (M : Matrix (Fin m) (Fin k) Int) (N : Matrix (Fin k) (Fin n) Int) {r c : Nat}
    (hr : r < m) (hc : c < n) :
    ∑ i ∈ range k, entries M r i * entries N i c = entries (M * N) r c := by
  rw [Finset.sum_range, entries, dif_pos ⟨hr, hc⟩, Matrix.mul_apply]
  exact Finset.sum_congr rfl fun i _ =>
    congrArg₂ (· * ·) (entries_val M ⟨r, hr⟩ i) (entries_val N i ⟨c, hc⟩)

/-- Rows are determined by the entries within the sizes. -/
theorem integerRows_congr {f g : Nat → Nat → Int} (h : ∀ r < m, ∀ c < n, f r c = g r c) :
    integerRows m n f = integerRows m n g := by
  refine List.map_congr_left fun r hr => List.map_congr_left fun c hc => ?_
  rw [h r (List.mem_range.mp hr) c (List.mem_range.mp hc)]

/-- All sums of products of entries fit into words if the multiplication of the matrices does. -/
theorem sumFits_entries_iff (M : Matrix (Fin m) (Fin k) Int) (N : Matrix (Fin k) (Fin n) Int) :
    (∀ r < m, ∀ c < n, SumFits k fun i => entries M r i * entries N i c)
      ↔ MultiplicationFits M N := by
  refine ⟨fun h r c i => ?_, fun h r hr c hc i hi => ?_⟩
  · have hfits := h r r.isLt c c.isLt i i.isLt
    simpa only [sum_range_succ_entries, entries_val] using hfits
  · have hfits := h ⟨r, hr⟩ ⟨c, hc⟩ ⟨i, hi⟩
    rwa [← sum_range_succ_entries, ← entries_val M, ← entries_val N] at hfits

/-- The product of two matrices with rows is the product over the integers, if that fits. -/
theorem exact_matrixProduct (hm : m ≠ 0) (hk : k ≠ 0) (M : Matrix (Fin m) (Fin k) Int)
    (N : Matrix (Fin k) (Fin n) Int) :
    ExactIf (MultiplicationFits M N) (ofMatrix (M * N))
      (matrixProduct (ofMatrix M) (ofMatrix N)) := by
  have hexact := exact_matrix_matrix (n := n) (entries M) (entries N) hm hk
  rw [integerRows_congr fun r hr c hc => entries_mul M N hr hc] at hexact
  exact hexact.congr (sumFits_entries_iff M N)

end

/-! ## Powers -/

variable {d : Nat}

/-- All products of two powers whose exponents add up to `n` at most fit. -/
def PowersFit (M : Matrix (Fin d) (Fin d) Int) (n : Nat) : Prop :=
  ∀ i j, i + j ≤ n → MultiplicationFits (M ^ i) (M ^ j)

/-- A power is computed digit by digit: the last digit decides whether the base is multiplied in,
and the digits before it, if there are any, go on with the square. -/
theorem powerFrom_eq {acc base : Value} {n : Nat} (hn : n ≠ 0) :
    powerFrom acc base n
      = (if n % 2 = 1 then matrixProduct acc base else .ok acc) >>= fun acc =>
          if n / 2 = 0 then .ok acc
          else matrixProduct base base >>= fun square => powerFrom acc square (n / 2) := by
  rw [powerFrom, if_neg hn]
  by_cases hodd : n % 2 = 1
  · simp only [if_pos hodd]
  · simp only [if_neg hodd]

/-- The step for the last digit of the exponent. -/
theorem exact_digit (hd : d ≠ 0) (M : Matrix (Fin d) (Fin d) Int) (p b n : Nat) :
    ExactIf (n % 2 = 1 → MultiplicationFits (M ^ p) (M ^ b)) (ofMatrix (M ^ (p + b * (n % 2))))
      (if n % 2 = 1 then matrixProduct (ofMatrix (M ^ p)) (ofMatrix (M ^ b))
        else .ok (ofMatrix (M ^ p))) := by
  by_cases hodd : n % 2 = 1
  · rw [if_pos hodd, hodd, Nat.mul_one, pow_add]
    exact (exact_matrixProduct hd hd _ _).congr ⟨fun h _ => h, fun h => h rfl⟩
  · rw [if_neg hodd, (by omega : n % 2 = 0), Nat.mul_zero, Nat.add_zero]
    exact (ExactIf.pure _).congr ⟨fun _ h => absurd h (by decide), fun _ => trivial⟩

/-- What remains of a power is exact, and fits if all products of powers up to the exponent asked
for do. -/
theorem exact_powerFrom (hd : d ≠ 0) (M : Matrix (Fin d) (Fin d) Int) (p b n : Nat) :
    ∃ fits, ExactIf fits (ofMatrix (M ^ (p + b * n)))
        (powerFrom (ofMatrix (M ^ p)) (ofMatrix (M ^ b)) n)
      ∧ (PowersFit M (p + b * n) → fits) := by
  induction n using Nat.strongRecOn generalizing p b with
  | ind n ih =>
    have hdigits : p + b * n = (p + b * (n % 2)) + (b + b) * (n / 2) := by
      conv_lhs => rw [← Nat.mod_add_div n 2]
      ring
    by_cases hn : n = 0
    · rw [powerFrom, if_pos hn, hn]
      exact ⟨True, ExactIf.pure _, fun _ => trivial⟩
    rw [powerFrom_eq hn]
    have hdigit := exact_digit hd M p b n
    have hdigitFits (h : PowersFit M (p + b * n)) (hodd : n % 2 = 1) :
        MultiplicationFits (M ^ p) (M ^ b) := by
      refine h p b ?_
      rw [hdigits, hodd]
      omega
    by_cases hlast : n / 2 = 0
    · -- no square is computed for a digit that is not there
      refine ⟨(n % 2 = 1 → MultiplicationFits (M ^ p) (M ^ b)) ∧ True, hdigit.bind ?_,
        fun h => ⟨hdigitFits h, trivial⟩⟩
      rw [if_pos hlast, hdigits, hlast, Nat.mul_zero, Nat.add_zero]
      exact ExactIf.pure _
    · obtain ⟨fits, hrest, hfits⟩ := ih (n / 2) (by omega) (p + b * (n % 2)) (b + b)
      have hsquare := exact_matrixProduct hd hd (M ^ b) (M ^ b)
      rw [← pow_add] at hsquare
      rw [← hdigits] at hrest hfits
      refine ⟨(n % 2 = 1 → MultiplicationFits (M ^ p) (M ^ b))
        ∧ MultiplicationFits (M ^ b) (M ^ b) ∧ fits, hdigit.bind ?_,
        fun h => ⟨hdigitFits h, h b b ?_, hfits h⟩⟩
      · rw [if_neg hlast]
        exact hsquare.bind hrest
      · calc b + b ≤ (b + b) * (n / 2) := Nat.le_mul_of_pos_right _ (by omega)
          _ ≤ p + b * n := by rw [hdigits]; exact Nat.le_add_left _ _

/-! ## The power operator -/

/-- The leaves of a matrix of Integers are Integers. -/
theorem head?_flatten_ofMatrix (M : Matrix (Fin d) (Fin d) Int) :
    ∃ x, (ofMatrix M).flatten.head?.getD (.integer 0) = .integer x := by
  have hleaves : ∀ leaf ∈ (ofMatrix M).flatten, ∃ x, leaf = .integer x := by
    intro leaf hleaf
    simp only [ofMatrix, matrix, flatten, flattenAll_eq_flatMap, integerRows, integers,
      List.mem_flatMap, List.mem_map, exists_exists_and_eq_and, List.mem_singleton] at hleaf
    obtain ⟨_, _, _, _, rfl⟩ := hleaf
    exact ⟨_, rfl⟩
  cases hhead : (ofMatrix M).flatten.head? with
  | none => exact ⟨0, rfl⟩
  | some leaf => exact hleaves leaf (List.mem_of_head? hhead)

/-- The unit matrix in Integers. -/
theorem identity_eq_ofMatrix (d : Nat) (x : Int) :
    identity d (.integer x) = ofMatrix (1 : Matrix (Fin d) (Fin d) Int) := by
  have hentry : ∀ r < d, ∀ c < d, (if r = c then (1 : Int) else 0)
      = entries (1 : Matrix (Fin d) (Fin d) Int) r c := by
    intro r hr c hc
    simp [entries, hr, hc, Matrix.one_apply]
  rw [ofMatrix, ← integerRows_congr hentry]
  simp only [identity, integerRows, integers, apply_ite Value.integer]

/-- A power with a natural exponent starts with the unit matrix. -/
theorem matrixPower_ofMatrix (M : Matrix (Fin d) (Fin d) Int) {n : Int} (hn : 0 ≤ n) :
    matrixPower (ofMatrix M) (.integer n)
      = powerFrom (ofMatrix (M ^ 0)) (ofMatrix (M ^ 1)) n.toNat := by
  obtain ⟨x, hx⟩ := head?_flatten_ofMatrix M
  simp only [matrixPower, (hasMatrix_ofMatrix M).dims_eq, hx, identity_eq_ofMatrix, pow_zero,
    pow_one]
  rw [if_neg (by simp), if_neg (by omega)]

/-- A power of a square matrix of Integers is the power over the unbounded integers or an overflow.
It does not overflow if all products of two powers fit whose exponents add up to at most the
exponent asked for. -/
theorem matrix_power {a : Value} {M : Matrix (Fin d) (Fin d) Int} {n : Int} (hd : d ≠ 0)
    (ha : a.HasMatrix M) (hn : 0 ≤ n) :
    ((∃ w, binary .matrixPower a (.integer n) = .ok w ∧ w.HasMatrix (M ^ n.toNat))
      ∨ ∃ op : Arith, binary .matrixPower a (.integer n) = (Cause.integerOverflow op.name).fail)
    ∧ (PowersFit M n.toNat →
      ∃ w, binary .matrixPower a (.integer n) = .ok w ∧ w.HasMatrix (M ^ n.toNat)) := by
  obtain rfl := ha.eq_ofMatrix
  obtain ⟨fits, hexact, hfits⟩ := exact_powerFrom hd M 0 1 n.toNat
  rw [Nat.zero_add, Nat.one_mul] at hexact hfits
  rw [← matrixPower_ofMatrix M hn] at hexact
  have hpower := hasMatrix_ofMatrix (M ^ n.toNat)
  constructor
  · by_cases h : fits
    · exact .inl ⟨_, hexact.of_fits h, hpower⟩
    · exact .inr (hexact.of_not_fits h)
  · exact fun h => ⟨_, hexact.of_fits (hfits h), hpower⟩

/-- Powers of a shear. -/
theorem pow_shear (i : Nat) : !![(1 : Int), 1; 0, 1] ^ i = !![1, (i : Int); 0, 1] := by
  induction i with
  | zero => simp [Matrix.one_fin_two]
  | succ i ih =>
    rw [pow_succ, ih, Matrix.mul_fin_two]
    simp [add_comm]

/-- The power of a shear with the largest Integer as exponent. -/
theorem matrix_power_shear :
    ∃ w, binary .matrixPower (.matrix [[.integer 1, .integer 1], [.integer 0, .integer 1]] 2)
        (.integer maxInteger) = .ok w
      ∧ w.HasMatrix !![1, maxInteger; 0, 1] := by
  have ha : (Value.matrix [[.integer 1, .integer 1], [.integer 0, .integer 1]] 2).HasMatrix
      !![(1 : Int), 1; 0, 1] := hasMatrix_ofMatrix !![(1 : Int), 1; 0, 1]
  have hfits : PowersFit !![(1 : Int), 1; 0, 1] maxInteger.toNat := by
    intro i j hij r c k
    rw [pow_shear, pow_shear]
    have hfirst : Finset.Iic (0 : Fin 2) = {0} := by decide
    have hboth : Finset.Iic (1 : Fin 2) = {0, 1} := by decide
    rw [maxInteger] at hij
    fin_cases r <;> fin_cases c <;> fin_cases k <;>
      simp [IsWord, minInteger, maxInteger, hfirst, hboth] <;> omega
  have hpower := (matrix_power (by decide) ha (by decide)).2 hfits
  rwa [pow_shear] at hpower

end ModelicaFold.Value
