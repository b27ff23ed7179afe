import Mathlib.Algebra.GroupWithZero.Nat
import ModelicaFold.Eval.Dimension
import ModelicaFold.Proofs.Subexpressions

/-!
# Nodes of expressions

The number of nodes of an expression (`Expr.nodeCount`), and the expressions in which evaluation has
no reason to visit a node more than once (`Expr.Straight`): nothing is iterated over, a slice is not
followed by further subscripts, and no size is asked of a reference whose declared type is tried
before its value.
-/

namespace ModelicaFold

namespace Expr

/-! ## The number of nodes -/

/-- The number of nodes of an expression: itself and those of its direct subexpressions. -/
def nodeCount (e : Expr) : Nat :=
  1 + (e.children.attach.map fun ⟨part, _⟩ => part.nodeCount).sum
termination_by sizeOf e
decreasing_by exact sizeOf_lt_of_mem_children ‹_›

/-- An expression has one node more than its direct subexpressions have together. -/
theorem nodeCount_eq (e : Expr) : e.nodeCount = 1 + (e.children.map nodeCount).sum := by
  rw [nodeCount]
  exact congrArg (fun counts => 1 + List.sum counts) List.attach_map_val

end Expr

/-! ## Expressions of which every node is visited once -/

/-- Only the last subscript may select several elements. -/
def Subscript.RangesLast : List Subscript → Prop
  | [] => True
  | .index _ :: rest => RangesLast rest
  | .slice _ :: rest => rest = []
  | .whole :: rest => rest = []

/-- Where only the last subscript is a range, this holds of every first part and every rest. -/
theorem Subscript.RangesLast.of_append {first second : List Subscript}
    (h : RangesLast (first ++ second)) : RangesLast first ∧ RangesLast second := by
  induction first with
  | nil => exact ⟨trivial, h⟩
  | cons subscript first ih =>
    cases subscript with
    | index e => exact ih h
    | slice e =>
      obtain ⟨rfl, rfl⟩ := List.append_eq_nil_iff.mp h
      exact ⟨rfl, trivial⟩
    | whole =>
      obtain ⟨rfl, rfl⟩ := List.append_eq_nil_iff.mp h
      exact ⟨rfl, trivial⟩

namespace Expr

/-- The rule for an expression has no reason to visit one of its direct subexpressions twice, or to
visit anything else. -/
def VisitsOnce : Expr → Prop
  | .reduction .. => False
  | .code _ => False
  | .reference parts _ => Subscript.RangesLast (Reference.subscripts parts)
  | .subscripted _ subscripts => Subscript.RangesLast subscripts
  | .size operand _ => Steps.announced operand = []
  | .call path args _ true _ =>
    path.last ≠ "simplify" ∧
      (path.last = "size" ∨ path.last = "ndims" →
        ∀ operand ∈ args.head?, Steps.announced operand = [])
  | _ => True

/-- An expression of which every node visits its direct subexpressions once. -/
inductive Straight : Expr → Prop where
  | intro {e : Expr} : e.VisitsOnce → (∀ part ∈ e.children, Straight part) → Straight e

end Expr

end ModelicaFold
