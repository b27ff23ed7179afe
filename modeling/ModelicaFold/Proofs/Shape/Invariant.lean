import ModelicaFold.Proofs.Shape.Builtins
import ModelicaFold.Proofs.Shape.Reductions

/-!
# The shape invariant

The sizes that an array carries are computed in three ways: taken from the first element, given
explicitly, or copied from an operand. `ShapeInvariant` lists the operations that make arrays;
each of them, whenever it succeeds on consistent operands, gives a consistent value
(`shape_invariant`).

Operators, casts and built-in functions are stated for values, constructors and reductions for the
rules that evaluate them: there the operands are the values that the parts evaluate to in the run at
hand.
-/

namespace ModelicaFold

open Builtin (KeepsConsistent HasWordSizes)

/-- The operations that make arrays keep sizes in step with nesting. -/
structure ShapeInvariant : Prop where
  /-- Every binary operator, the products and powers of matrices among them. -/
  binary : ∀ op a b v, a.Consistent → b.Consistent → Value.binary op a b = .ok v → v.Consistent
  negate : ∀ v w : Value, v.Consistent → v.negate = .ok w → w.Consistent
  logicalNot : ∀ v w : Value, v.Consistent → v.logicalNot = .ok w → w.Consistent
  logical : ∀ op a b v, a.Consistent → b.Consistent → Value.logical op a b = .ok v → v.Consistent
  /-- Casts to numbers and to enumerations. -/
  cast : ∀ ty convert (v w : Value), Value.castLeaf? ty = some convert → v.Consistent →
    v.mapLeaves convert = .ok w → w.Consistent
  transpose : KeepsConsistent Builtin.transpose
  promote : KeepsConsistent Builtin.promote
  fill : KeepsConsistent Builtin.fillArray
  zeros : KeepsConsistent (Builtin.filledWith "zeros" (.integer 0))
  ones : KeepsConsistent (Builtin.filledWith "ones" (.integer 1))
  cat : KeepsConsistent Builtin.cat
  identity : KeepsConsistent Builtin.identityMatrix
  outerProduct : KeepsConsistent Builtin.outerProduct
  linspace : KeepsConsistent Builtin.linspace
  vector : KeepsConsistent Builtin.vectorOf
  /-- The number of leaves of a row is computed in a machine word, which every size is. -/
  matrix : ∀ args v, (∀ a ∈ args, a.Consistent) → (∀ a ∈ args, HasWordSizes a.unboxed) →
    Builtin.matrixOf args = .ok v → v.Consistent
  matrixConstructor : ∀ (s : Steps) req rows v ctx log ctx' log',
    (s.matrix req rows).Gives ctx log v ctx' log' →
    (∀ valuess, (rows.mapM (s.evalAll req)).Gives ctx log valuess ctx' log' →
      ∀ values ∈ valuess, ∀ w ∈ values, w.Consistent) →
    v.Consistent
  range : ∀ (s : Steps) req ty start step stop v ctx log ctx' log',
    (s.range req ty start step stop).Gives ctx log v ctx' log' → v.Consistent
  /-- Any list of indices, slices and `:` in which indices are literal. -/
  subscripts : ∀ (ev : Evaluator) levels req subscripts v w ctx log ctx' log',
    (∀ subscript ∈ subscripts, subscript.Satisfies Expr.LiteralIndex) → v.Consistent →
    ((ev.steps levels).applySubscripts req subscripts v).Gives ctx log w ctx' log' → w.Consistent
  /-- Array reductions whose body values, boxes stripped, all have the same sizes. -/
  reduction : ∀ (s : Steps) req info body iterators v ctx log ctx' log',
    Gathering.ofName info.path.last = .array →
    (s.reduction req info body iterators).Gives ctx log v ctx' log' →
    (∃ dims, ∀ operands,
      (s.reductionOperands req info body iterators).Gives ctx log operands ctx' log' →
      ∀ w ∈ operands, w.Consistent ∧ w.unboxed.dims = dims) →
    v.Consistent

/-- Subscripts with literal indices give a consistent value. -/
theorem literalSubscripts_consistent {ev : Evaluator} {levels : Nat} {req : Request}
    {subscripts : List Subscript} {v w : Value} {ctx ctx' : Context} {log log' : Log}
    (hliteral : ∀ subscript ∈ subscripts, subscript.Satisfies Expr.LiteralIndex)
    (hv : v.Consistent)
    (h : ((ev.steps levels).applySubscripts req subscripts v).Gives ctx log w ctx' log') :
    w.Consistent := by
  have hsteady : ∀ subscript ∈ subscripts,
      subscript.Satisfies fun e => ((ev.steps levels).eval req e).Steady := by
    intro subscript hmem
    have hsubscript := hliteral subscript hmem
    cases subscript with
    | whole => trivial
    | slice e => exact steady_of_literalIndex ev req hsubscript levels
    | index e => exact steady_of_literalIndex ev req hsubscript levels
  obtain ⟨_, hshape⟩ := Steps.applySubscripts_shape hsteady v.dims
  exact (hshape hv rfl h).1

/-- All operations that make arrays give consistent values on consistent operands. -/
theorem shape_invariant : ShapeInvariant where
  binary _ _ _ _ ha hb h := ha.binary hb h
  negate _ _ hv h := hv.negate h
  logicalNot _ _ hv h := hv.logicalNot h
  logical _ _ _ _ ha _ h := ha.logical h
  cast _ _ _ _ hconvert hv h := hv.cast hconvert h
  transpose := Builtin.keepsConsistent_transpose
  promote := Builtin.keepsConsistent_promote
  fill := Builtin.keepsConsistent_fillArray
  zeros := Builtin.keepsConsistent_filledWith "zeros" trivial
  ones := Builtin.keepsConsistent_filledWith "ones" trivial
  cat := Builtin.keepsConsistent_cat
  identity := Builtin.keepsConsistent_identityMatrix
  outerProduct := Builtin.keepsConsistent_outerProduct
  linspace := Builtin.keepsConsistent_linspace
  vector := Builtin.keepsConsistent_vectorOf
  matrix _ _ hargs hwords h := Builtin.keepsConsistent_matrixOf hargs hwords h
  matrixConstructor _ _ _ _ _ _ _ _ h helements := Steps.matrix_consistent h helements
  range _ _ _ _ _ _ _ _ _ _ _ h := Steps.range_consistent h
  subscripts _ _ _ _ _ _ _ _ _ _ hliteral hv h := literalSubscripts_consistent hliteral hv h
  reduction _ _ _ _ _ _ _ _ _ _ harray h hoperands :=
    Steps.reduction_consistent harray h hoperands

/-- Two empty rows transposed: no row, of which it is still known that it would have two
elements. -/
theorem shape_invariant_transpose :
    Builtin.transpose [.array #[.array #[] [0], .array #[] [0]] [2, 0]] = .ok (.array #[] [0, 2])
      ∧ (Value.array #[] [0, 2]).Consistent := by
  have hrows : (Value.array #[.array #[] [0], .array #[] [0]] [2, 0]).Consistent := by
    simp [Value.consistent_array, Value.dims]
  have hargs : ∀ a ∈ [Value.array #[.array #[] [0], .array #[] [0]] [2, 0]], a.Consistent := by
    intro a ha
    rw [List.mem_singleton.mp ha]
    exact hrows
  exact ⟨rfl, shape_invariant.transpose _ _ hargs rfl⟩

end ModelicaFold
