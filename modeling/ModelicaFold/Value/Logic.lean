import ModelicaFold.Value.Leaves

/-!
# Logic

Conjunction and disjunction combine the leaves of operands of one shape; negation maps them. Leaves
have to be Boolean.
-/

namespace ModelicaFold

/-- The truth table of a logical operator. -/
def LogicalOp.apply : LogicalOp → Bool → Bool → Bool
  | .and, a, b => a && b
  | .or, a, b => a || b

namespace Value

/-- A logical operator on two leaves; the left operand is looked at first. -/
def logicalLeaves (op : LogicalOp) : Value → Value → Outcome Value
  | .bool a, .bool b => .ok (.bool (op.apply a b))
  | .bool _, other => refuse op.symbol "Boolean" other
  | other, _ => refuse op.symbol "Boolean" other

/-- A logical operator on two values. -/
def logical (op : LogicalOp) (lhs rhs : Value) : Outcome Value :=
  (lhs.zipLeaves (logicalLeaves op) rhs).getD
    (Cause.invalidShape ("operands of `" ++ op.symbol ++ "` have different sizes")).fail

/-- The negation of a Boolean. -/
def notLeaf : Value → Outcome Value
  | .bool b => .ok (.bool !b)
  | other => refuse "not" "Boolean" other

/-- The negation of a Boolean or of every element of an array. -/
def logicalNot (v : Value) : Outcome Value :=
  v.mapLeaves notLeaf

/-- The result of an operator that its left operand alone decides: `false and …`, `true or …`. -/
def decided? (op : LogicalOp) (lhs : Value) : Option Value :=
  match op, lhs with
  | .and, .bool false => some (.bool false)
  | .or, .bool true => some (.bool true)
  | _, _ => none

end Value

end ModelicaFold
