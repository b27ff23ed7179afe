import ModelicaFold.Proofs.Shape.Concat
import ModelicaFold.Value.Convert
import ModelicaFold.Value.Logic
import ModelicaFold.Value.Range

/-!
# Operators, casts and ranges on consistent values

What arithmetic, logic and casts do to a leaf gives an atom, a value without parts; so they keep the
shape of an array. Products and ranges build their arrays from atoms.
-/

namespace ModelicaFold

/-- An Integer that is a word is an atom. -/
theorem isAtom_inRange {operation : String} {n : Int} {v : Value}
    (h : inRange operation n = .ok v) : v.IsAtom := by
  unfold inRange at h
  split at h
  · cases h
    trivial
  · simp at h

/-- A whole Real as an Integer is an atom. -/
theorem isAtom_wholeReal {operation : String} {x : Float} {v : Value}
    (h : wholeReal operation x = .ok v) : v.IsAtom := by
  unfold wholeReal at h
  split at h
  · cases h
    trivial
  · simp at h

namespace Value

/-! ## Leaves -/

/-- A power of Integers is an atom. -/
theorem isAtom_integerPower {a b : Int} {v : Value} (h : integerPower a b = .ok v) :
    v.IsAtom := by
  unfold integerPower at h
  split at h
  · simp at h
  split at h
  · simp at h
  split at h
  · cases h
    trivial
  split at h
  · simp at h
  · exact isAtom_inRange h

/-- Integers are combined to an atom. -/
theorem isAtom_integerArith {op : Arith} {a b : Int} {v : Value}
    (h : integerArith op a b = .ok v) : v.IsAtom := by
  cases op with
  | add => exact isAtom_inRange h
  | sub => exact isAtom_inRange h
  | mul => exact isAtom_inRange h
  | div =>
    simp only [integerArith] at h
    split at h
    · simp at h
    · exact isAtom_inRange h
  | pow => exact isAtom_integerPower h

/-- Reals are combined to an atom. -/
theorem isAtom_realArith {op : Arith} {a b : Float} {v : Value}
    (h : realArith op a b = .ok v) : v.IsAtom := by
  cases op with
  | pow =>
    simp only [realArith] at h
    split at h
    · simp at h
    · cases h
      trivial
  | _ =>
    cases h
    trivial

/-- Scalars are combined to an atom. -/
theorem isAtom_scalarArith {op : Arith} {a b v : Value} (h : scalarArith op a b = .ok v) :
    v.IsAtom := by
  unfold scalarArith undefinedArith at h
  split at h
  · exact isAtom_integerArith h
  · exact isAtom_realArith h
  · split at h
    · cases h
      trivial
    · simp at h
  all_goals simp at h

/-- A negated number is an atom. -/
theorem isAtom_negateLeaf {v w : Value} (h : negateLeaf v = .ok w) : w.IsAtom := by
  unfold negateLeaf at h
  split at h
  · exact isAtom_inRange h
  · cases h
    trivial
  all_goals simp at h

/-- Strings are concatenated to an atom. -/
theorem isAtom_concatLeaves {a b v : Value} (h : concatLeaves a b = .ok v) : v.IsAtom := by
  unfold concatLeaves at h
  split at h
  · cases h
    trivial
  · simp at h

/-- Booleans are combined to an atom. -/
theorem isAtom_logicalLeaves {op : LogicalOp} {a b v : Value}
    (h : logicalLeaves op a b = .ok v) : v.IsAtom := by
  unfold logicalLeaves at h
  split at h
  · cases h
    trivial
  all_goals simp at h

/-- A negated Boolean is an atom. -/
theorem isAtom_notLeaf {v w : Value} (h : notLeaf v = .ok w) : w.IsAtom := by
  unfold notLeaf at h
  split at h
  · cases h
    trivial
  · simp at h

/-- An enumeration literal is an atom. -/
theorem isAtom_literal {path : Path} {literals : List String} {i : Int} {v : Value}
    (h : literal path literals i = .ok v) : v.IsAtom := by
  unfold literal at h
  split at h
  · cases h
    trivial
  · simp at h

/-- Whatever type is cast to, a leaf that is converted becomes an atom. -/
theorem isAtom_castLeaf {ty : Ty} {convert : Value → Outcome Value}
    (hconvert : castLeaf? ty = some convert) {v w : Value} (h : convert v = .ok w) :
    w.IsAtom := by
  unfold castLeaf? at hconvert
  split at hconvert
  · cases hconvert
    unfold castRealLeaf at h
    split at h
    · cases h
      trivial
    · cases h
      trivial
    · simp at h
  · cases hconvert
    unfold castIntegerLeaf at h
    split at h
    · cases h
      trivial
    · exact isAtom_wholeReal h
    · simp at h
  · cases hconvert
    unfold castEnumerationLeaf at h
    split at h
    · exact isAtom_literal h
    · cases h
      trivial
    · simp at h
  · cases hconvert

/-- The zero of any kind is an atom. -/
theorem isAtom_zeroLike (like : Value) : (zeroLike like).IsAtom := by
  unfold zeroLike
  split <;> trivial

/-! ## Products -/

/-- A dot product is an atom. -/
theorem isAtom_dotProduct {a b : List Value} {v : Value} (h : dotProduct a b = .ok v) :
    v.IsAtom := by
  unfold dotProduct at h
  split at h
  · simp at h
  · refine Outcome.foldlM_induct ?_ (fun sum pair next _ hnext => ?_) h
    · cases a with
      | nil => trivial
      | cons x xs => exact isAtom_zeroLike x
    · obtain ⟨product, _, hsum⟩ := Outcome.bind_eq_ok.mp hnext
      exact isAtom_scalarArith hsum

/-- A product of vectors is an atom. -/
theorem isAtom_scalarProduct {a b v : Value} (h : scalarProduct a b = .ok v) : v.IsAtom := by
  obtain ⟨xs, _, h⟩ := Outcome.bind_eq_ok.mp h
  obtain ⟨ys, _, h⟩ := Outcome.bind_eq_ok.mp h
  exact isAtom_dotProduct h

/-- The values of a list of computations that give atoms. -/
theorem atoms_of_mapM {α : Type} {f : α → Outcome Value} {items : List α} {vs : List Value}
    (hf : ∀ a v, f a = .ok v → v.IsAtom) (h : items.mapM f = .ok vs) :
    ∀ v ∈ vs, v.Consistent ∧ v.dims = [] := by
  intro v hv
  obtain ⟨a, _, ha⟩ := Outcome.mem_of_mapM_eq_ok h hv
  exact (hf a v ha).consistent

/-- The rows of a product of all items of one list with all items of another. -/
theorem consistent_products {α β : Type} {f : α → β → Outcome Value} {xs : List α} {ys : List β}
    {rows : List (List Value)} (hf : ∀ x y v, f x y = .ok v → v.IsAtom)
    (h : xs.mapM (fun x => ys.mapM (f x)) = .ok rows) : (matrix rows ys.length).Consistent := by
  refine consistent_matrix fun row hrow => ?_
  obtain ⟨x, _, hx⟩ := Outcome.mem_of_mapM_eq_ok h hrow
  exact ⟨Outcome.length_of_mapM_eq_ok hx, atoms_of_mapM (hf x) hx⟩

/-- A product of matrices and vectors is consistent, whatever its operands are. -/
theorem consistent_matrixProduct {a b v : Value} (h : matrixProduct a b = .ok v) :
    v.Consistent := by
  unfold matrixProduct at h
  split at h
  · obtain ⟨rows, _, h⟩ := Outcome.bind_eq_ok.mp h
    obtain ⟨xs, _, h⟩ := Outcome.bind_eq_ok.mp h
    obtain ⟨products, hproducts, h⟩ := Outcome.bind_eq_ok.mp h
    cases h
    exact consistent_vector (atoms_of_mapM (fun row _ => isAtom_dotProduct) hproducts)
  · obtain ⟨xs, _, h⟩ := Outcome.bind_eq_ok.mp h
    obtain ⟨columns, _, h⟩ := Outcome.bind_eq_ok.mp h
    obtain ⟨products, hproducts, h⟩ := Outcome.bind_eq_ok.mp h
    cases h
    exact consistent_vector (atoms_of_mapM (fun column _ => isAtom_dotProduct) hproducts)
  · obtain ⟨rows, _, h⟩ := Outcome.bind_eq_ok.mp h
    obtain ⟨columns, _, h⟩ := Outcome.bind_eq_ok.mp h
    obtain ⟨products, hproducts, h⟩ := Outcome.bind_eq_ok.mp h
    cases h
    exact consistent_products (fun _ _ _ => isAtom_dotProduct) hproducts
  · exact (isAtom_scalarProduct h).consistent.1

/-- An identity matrix is consistent. -/
theorem consistent_identity (n : Nat) (like : Value) : (identity n like).Consistent := by
  have hrow : ∀ zero one : Value, zero.IsAtom → one.IsAtom →
      (matrix ((List.range n).map fun i => (List.range n).map fun j => if i = j then one else zero)
        n).Consistent := by
    intro zero one hzero hone
    refine consistent_matrix fun row hrow => ?_
    obtain ⟨i, _, rfl⟩ := List.mem_map.mp hrow
    refine ⟨by simp, fun v hv => ?_⟩
    obtain ⟨j, _, rfl⟩ := List.mem_map.mp hv
    split
    · exact hone.consistent
    · exact hzero.consistent
  cases like with
  | real x => exact hrow (.real 0.0) (.real 1.0) trivial trivial
  | _ => exact hrow (.integer 0) (.integer 1) trivial trivial

/-- Repeated multiplication gives a consistent value if it starts from one. -/
theorem consistent_powerFrom {acc base : Value} {n : Nat} {v : Value} (hacc : acc.Consistent)
    (h : powerFrom acc base n = .ok v) : v.Consistent := by
  induction n using Nat.strongRecOn generalizing acc base with
  | ind n ih =>
    rw [powerFrom] at h
    split at h
    · cases h
      exact hacc
    · rename_i hn
      have hrest : ∀ acc', acc'.Consistent →
          (if n / 2 = 0 then Except.ok acc'
            else do powerFrom acc' (← matrixProduct base base) (n / 2)) = .ok v →
          v.Consistent := by
        intro acc' hacc' h
        split at h
        · cases h
          exact hacc'
        · obtain ⟨square, _, h⟩ := Outcome.bind_eq_ok.mp h
          exact ih (n / 2) (by omega) hacc' h
      dsimp only at h
      split at h
      · obtain ⟨acc', hacc', h⟩ := Outcome.bind_eq_ok.mp h
        exact hrest acc' (consistent_matrixProduct hacc') h
      · exact hrest acc hacc h

/-- A power of a matrix is consistent. -/
theorem consistent_matrixPower {a b v : Value} (h : matrixPower a b = .ok v) : v.Consistent := by
  unfold matrixPower at h
  split at h
  · split at h
    · split at h
      · simp [matrixPower.notSquare] at h
      split at h
      · simp at h
      · exact consistent_powerFrom (consistent_identity _ _) h
    · simp [matrixPower.notSquare] at h
  · simp at h

/-! ## Operators -/

/-- Leaves combined to atoms make a consistent value if the first one is. -/
theorem consistent_orShape {f : Value → Value → Outcome Value} {a b v : Value} {message : String}
    (hf : ∀ x y z, f x y = .ok z → z.IsAtom) (ha : a.Consistent)
    (h : orShape (a.zipLeaves f b) message = .ok v) : v.Consistent := by
  unfold orShape at h
  cases hzip : a.zipLeaves f b with
  | none => simp [hzip] at h
  | some r =>
    rw [hzip, Option.getD_some] at h
    exact (ha.zipLeaves hf (hzip.trans (congrArg some h))).1

/-- An operation on the elements of consistent values gives a consistent one. -/
theorem Consistent.elementwise {op : Arith} {operands : Operands} {a b v : Value}
    (ha : a.Consistent) (hb : b.Consistent) (h : elementwise op operands a b = .ok v) :
    v.Consistent := by
  cases operands with
  | scalars =>
    simp only [Value.elementwise] at h
    split at h
    · simp at h
    · exact (isAtom_scalarArith h).consistent.1
  | arrays => exact consistent_orShape (fun _ _ _ => isAtom_scalarArith) ha h
  | arrayScalar => exact (ha.mapLeaves (fun _ _ => isAtom_scalarArith) h).1
  | scalarArray => exact (hb.mapLeaves (fun _ _ => isAtom_scalarArith) h).1

/-- Every binary operator gives a consistent value on consistent operands. -/
theorem Consistent.binary {op : BinaryOp} {a b v : Value} (ha : a.Consistent) (hb : b.Consistent)
    (h : binary op a b = .ok v) : v.Consistent := by
  cases op with
  | arith op operands => exact ha.elementwise hb h
  | concat =>
    simp only [Value.binary, concatStrings] at h
    split at h
    · exact consistent_orShape (fun _ _ _ => isAtom_concatLeaves) ha h
    · exact (isAtom_concatLeaves h).consistent.1
  | scalarProduct => exact (isAtom_scalarProduct h).consistent.1
  | matrixProduct => exact consistent_matrixProduct h
  | matrixPower => exact consistent_matrixPower h

/-- The negation of a consistent value is consistent. -/
theorem Consistent.negate {v w : Value} (hv : v.Consistent) (h : v.negate = .ok w) :
    w.Consistent :=
  (hv.mapLeaves (fun _ _ => isAtom_negateLeaf) h).1

/-- The logical negation of a consistent value is consistent. -/
theorem Consistent.logicalNot {v w : Value} (hv : v.Consistent) (h : v.logicalNot = .ok w) :
    w.Consistent :=
  (hv.mapLeaves (fun _ _ => isAtom_notLeaf) h).1

/-- A conjunction or disjunction is consistent if its first operand is. -/
theorem Consistent.logical {op : LogicalOp} {a b v : Value} (ha : a.Consistent)
    (h : logical op a b = .ok v) : v.Consistent :=
  consistent_orShape (fun _ _ _ => isAtom_logicalLeaves) ha h

/-- A cast of a consistent value is consistent. -/
theorem Consistent.cast {ty : Ty} {convert : Value → Outcome Value}
    (hconvert : castLeaf? ty = some convert) {v w : Value} (hv : v.Consistent)
    (h : v.mapLeaves convert = .ok w) : w.Consistent :=
  (hv.mapLeaves (fun _ _ => isAtom_castLeaf hconvert) h).1

/-! ## Ranges -/

/-- The elements of a range are atoms. -/
theorem atoms_rangeElements {a b : Value} {step : Option Value} {ty : Ty} {elements : Array Value}
    (h : rangeElements a step b ty = .ok elements) : ∀ v ∈ elements.toList, v.IsAtom := by
  have hnumbers : ∀ (n : Nat) (f : Nat → Value), (∀ i, (f i).IsAtom) →
      ∀ v ∈ ((Array.range n).map f).toList, v.IsAtom := by
    intro n f hf v hv
    rw [Array.toList_map] at hv
    obtain ⟨i, _, rfl⟩ := List.mem_map.mp hv
    exact hf i
  unfold rangeElements at h
  split at h
  · obtain ⟨d, _, h⟩ := Outcome.bind_eq_ok.mp h
    unfold integerRange at h
    split at h
    · simp [zeroStep] at h
    · obtain ⟨n, _, h⟩ := Outcome.bind_eq_ok.mp h
      cases h
      exact hnumbers n _ fun _ => trivial
  · obtain ⟨d, _, h⟩ := Outcome.bind_eq_ok.mp h
    unfold realRange at h
    split at h
    · simp [zeroStep] at h
    · dsimp only at h
      split at h
      · simp at h
      · obtain ⟨n, _, h⟩ := Outcome.bind_eq_ok.mp h
        cases h
        exact hnumbers n _ fun _ => trivial
  · cases h
    unfold boolRange
    split <;> simp [IsAtom]
  · unfold enumerationRange at h
    split at h
    · rw [Array.mapM_eq_mapM_toList] at h
      obtain ⟨literals, hliterals, h⟩ := Outcome.bind_eq_ok.mp h
      cases h
      intro v hv
      obtain ⟨i, _, hi⟩ := Outcome.mem_of_mapM_eq_ok hliterals hv
      exact isAtom_literal hi
    · split at h
      · cases h
        exact fun v hv => absurd hv List.not_mem_nil
      · simp at h
  · simp at h

end Value

/-- A range is consistent, whatever its bounds are. -/
theorem Steps.range_consistent {s : Steps} {req : Request} {ty : Ty} {start stop : Expr}
    {step : Option Expr} {v : Value} {ctx ctx' : Context} {log log' : Log}
    (h : (s.range req ty start step stop).Gives ctx log v ctx' log') : v.Consistent := by
  obtain ⟨a, _, _, _, h⟩ := EvalM.gives_bind.mp h
  obtain ⟨d, _, _, _, h⟩ := EvalM.gives_bind.mp h
  obtain ⟨b, _, _, _, h⟩ := EvalM.gives_bind.mp h
  obtain ⟨elements, _, _, helements, h⟩ := EvalM.gives_bind.mp h
  obtain ⟨rfl, _, _⟩ := EvalM.gives_pure.mp h
  have hatoms := Value.atoms_rangeElements (EvalM.gives_ofOutcome.mp helements).1
  exact Value.consistent_array.mpr ⟨[], rfl, fun w hw => (hatoms w hw).consistent⟩

end ModelicaFold
