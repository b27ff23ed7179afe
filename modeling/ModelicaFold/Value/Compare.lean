import ModelicaFold.Value.Basic

/-!
# Comparison

Scalars of one kind are compared; enumeration literals compare by their position, with Integers
too. Strings are ordered by their code points, `false` comes before `true`, and a Real that is not
a number is not comparable.
-/

namespace ModelicaFold

/-- The order of two Reals, if both are numbers. -/
def realOrder? (a b : Float) : Option Ordering :=
  if a < b then some .lt
  else if a == b then some .eq
  else if b < a then some .gt
  else none

/-- Whether two operands in this order are in the relation. -/
def RelationOp.holds : RelationOp → Ordering → Bool
  | .less, o => o == .lt
  | .lessEq, o => o != .gt
  | .greater, o => o == .gt
  | .greaterEq, o => o != .lt
  | .equal, o => o == .eq
  | .notEqual, o => o != .eq

namespace Value

/-- The order of two scalars, if they are comparable. -/
def order? : Value → Value → Option Ordering
  | .string a, .string b => some (compare a b)
  | .integer a, .integer b => some (compare a b)
  | .real a, .real b => realOrder? a b
  | .bool a, .bool b => some (compare a b)
  | .enumeration _ i, .enumeration _ j => some (compare i j)
  | .enumeration _ i, .integer b => some (compare i b)
  | .integer a, .enumeration _ j => some (compare a j)
  | _, _ => none

/-- Whether a relation holds between two values; nothing if they are not comparable. That the first
exceeds the second is decided with the operands swapped. -/
def relate? (lhs : Value) (op : RelationOp) (rhs : Value) : Option Bool :=
  match op with
  | .greater => (order? rhs lhs).map RelationOp.less.holds
  | .greaterEq => (order? rhs lhs).map RelationOp.lessEq.holds
  | _ => (order? lhs rhs).map op.holds

end Value

end ModelicaFold
