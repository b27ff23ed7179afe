import ModelicaFold.Value.Arithmetic
import Mathlib.Algebra.BigOperators.Intervals

/-!
# Sums of products that are exact

Arithmetic on Integers gives the exact result or overflows. `ExactIf` says so for a computation of
several steps, together with the condition under which it does not overflow, and is kept by the ways
to combine computations. The scalar product of two vectors of Integers is the first instance: it
overflows if and only if one of the products or one of the partial sums is out of range.
-/

namespace ModelicaFold

open Finset (range)

/-! ## Exact computations -/

/-- A computation that gives `a` if its Integers fit, and overflows otherwise. -/
structure ExactIf {α : Type} (fits : Prop) (a : α) (o : Outcome α) : Prop where
  of_fits : fits → o = .ok a
  of_not_fits : ¬ fits → ∃ op : Arith, o = (Cause.integerOverflow op.name).fail

namespace ExactIf

variable {α β : Type} {p q : Prop} {a : α} {b : β}

/-- A value is exact without a condition. -/
theorem pure (a : α) : ExactIf True a (Pure.pure a) :=
  ⟨fun _ => rfl, fun h => absurd trivial h⟩

/-- An Integer is exact if it is a word. -/
theorem inRange (op : Arith) (n : Int) : ExactIf (IsWord n) (.integer n) (inRange op.name n) :=
  ⟨fun h => if_pos h, fun h => ⟨op, if_neg h⟩⟩

/-- The condition may be replaced by an equivalent one. -/
theorem congr {o : Outcome α} (h : ExactIf p a o) (hpq : p ↔ q) : ExactIf q a o :=
  ⟨fun hq => h.of_fits (hpq.mpr hq), fun hq => h.of_not_fits (mt hpq.mp hq)⟩

/-- Two steps, the second of which is taken if the first one fits. -/
theorem bind {x : Outcome α} {f : α → Outcome β} (hx : ExactIf p a x) (hf : ExactIf q b (f a)) :
    ExactIf (p ∧ q) b (x >>= f) where
  of_fits h := by
    rw [hx.of_fits h.1]
    exact hf.of_fits h.2
  of_not_fits h := by
    by_cases hp : p
    · rw [hx.of_fits hp]
      exact hf.of_not_fits fun hq => h ⟨hp, hq⟩
    · obtain ⟨op, hop⟩ := hx.of_not_fits hp
      rw [hop]
      exact ⟨op, rfl⟩

/-- A function may be applied to the exact result. -/
theorem map {x : Outcome α} (hx : ExactIf p a x) (f : α → β) :
    ExactIf p (f a) (x >>= fun a => Pure.pure (f a)) :=
  (hx.bind (.pure (f a))).congr (and_iff_left trivial)

/-- A computation for each item. -/
theorem mapM {f : α → Outcome β} {fits : α → Prop} {g : α → β} {items : List α}
    (h : ∀ a ∈ items, ExactIf (fits a) (g a) (f a)) :
    ExactIf (∀ a ∈ items, fits a) (items.map g) (items.mapM f) := by
  induction items with
  | nil => exact (pure []).congr (by simp)
  | cons a items ih =>
    obtain ⟨hfirst, hrest⟩ := List.forall_mem_cons.mp h
    rw [List.mapM_cons, List.map_cons]
    exact (hfirst.bind ((ih hrest).map (g a :: ·))).congr List.forall_mem_cons.symm

/-- A computation for each of the first natural numbers. -/
theorem mapM_range {m : Nat} {item : Nat → α} {f : α → Outcome β} {fits : Nat → Prop} {g : Nat → β}
    (h : ∀ r < m, ExactIf (fits r) (g r) (f (item r))) :
    ExactIf (∀ r < m, fits r) ((List.range m).map g) (((List.range m).map item).mapM f) := by
  rw [List.mapM_map]
  refine (mapM fun r hr => h r (List.mem_range.mp hr)).congr ?_
  simp only [List.mem_range]

end ExactIf

/-! ## Scalar products -/

/-- A list of Integers. -/
def integers (k : Nat) (f : Nat → Int) : List Value :=
  (List.range k).map fun i => .integer (f i)

/-- There are as many Integers as asked for. -/
@[simp]
theorem length_integers (k : Nat) (f : Nat → Int) : (integers k f).length = k := by
  simp [integers]

/-- All terms and all partial sums are in range. -/
def SumFits (k : Nat) (term : Nat → Int) : Prop :=
  ∀ i < k, IsWord (term i) ∧ IsWord (∑ j ∈ range (i + 1), term j)

/-- A sum with one more term fits if the sum before it, the term and the sum with it do. -/
theorem sumFits_succ {k : Nat} {term : Nat → Int} :
    SumFits (k + 1) term
      ↔ SumFits k term ∧ IsWord (term k) ∧ IsWord (∑ j ∈ range (k + 1), term j) :=
  Nat.forall_lt_succ_right

namespace Value

/-- The fold of a scalar product over vectors of Integers. -/
theorem exact_sum (k : Nat) (f g : Nat → Int) :
    ExactIf (SumFits k fun i => f i * g i) (.integer (∑ i ∈ range k, f i * g i))
      (((List.range k).map fun i => (Value.integer (f i), Value.integer (g i))).foldlM
        (fun sum (x, y) => do scalarArith .add sum (← scalarArith .mul x y)) (.integer 0)) := by
  induction k with
  | zero => exact (ExactIf.pure _).congr (by simp [SumFits])
  | succ k ih =>
    rw [List.range_succ, List.map_append, List.foldlM_append]
    refine (ih.bind ?_).congr sumFits_succ.symm
    have hproduct : ExactIf (IsWord (f k * g k)) (.integer (f k * g k))
        (scalarArith .mul (.integer (f k)) (.integer (g k))) := .inRange .mul _
    have hsum : ExactIf (IsWord (∑ i ∈ range (k + 1), f i * g i))
        (.integer (∑ i ∈ range (k + 1), f i * g i))
        (scalarArith .add (.integer (∑ i ∈ range k, f i * g i)) (.integer (f k * g k))) := by
      rw [Finset.sum_range_succ]
      exact .inRange .add _
    simpa using hproduct.bind hsum

/-- The scalar product of vectors of Integers of one size. -/
theorem exact_dotProduct (k : Nat) (f g : Nat → Int) :
    ExactIf (SumFits k fun i => f i * g i) (.integer (∑ i ∈ range k, f i * g i))
      (dotProduct (integers k f) (integers k g)) := by
  have hzero : ((integers k f).head?.map zeroLike).getD (.integer 0) = .integer 0 := by
    cases k with
    | zero => rfl
    | succ k => simp [integers, List.range_succ_eq_map, zeroLike]
  have hzip : (integers k f).zip (integers k g)
      = (List.range k).map fun i => (Value.integer (f i), Value.integer (g i)) := List.zip_map'
  unfold dotProduct
  rw [if_neg (by simp), hzero, hzip]
  exact exact_sum k f g

/-- The refusal of vectors of different sizes. -/
def sizeMismatch (k l : Nat) : Cause :=
  .invalidShape ("scalar product of vectors of sizes " ++ toString k ++ " and " ++ toString l)

/-- The dot product of vectors of different lengths is refused. -/
theorem dotProduct_mismatch {a b : List Value} {k l : Nat} (ha : a.length = k) (hb : b.length = l)
    (h : k ≠ l) : dotProduct a b = (sizeMismatch k l).fail := by
  subst ha hb
  exact if_pos h

/-- Some items, for all of which a computation fails in one way. -/
theorem mapM_eq_fail {α β : Type} {f : α → Outcome β} {items : List α} {cause : Cause}
    (hitems : items ≠ []) (h : ∀ a ∈ items, f a = cause.fail) : items.mapM f = cause.fail := by
  obtain ⟨a, items, rfl⟩ := List.exists_cons_of_ne_nil hitems
  rw [List.mapM_cons, h a List.mem_cons_self]
  rfl

end Value

end ModelicaFold
