import ModelicaFold.Eval.Call
import ModelicaFold.Eval.Construct
import ModelicaFold.Eval.Quote
import ModelicaFold.Eval.Reduction
import ModelicaFold.Eval.Reference

/-!
# One step of evaluation

`Steps.rule` evaluates an expression by the rule for its form. `Evaluator.steps` puts the rules on
top of each other: with no level left every step fails at the recursion limit, and with one level
more an expression is evaluated by its rule, which uses the steps below.
-/

namespace ModelicaFold

/-- The value of an expression by the rule for its form. -/
def Steps.rule (s : Steps) (ev : Evaluator) (req : Request) (e : Expr) : EvalM Value :=
  match e with
  | .integer n => return .integer n
  | .real x => return .real x
  | .bool b => return .bool b
  | .string text => return .string text
  | .enumeration path index => return .enumeration path index
  | .array ty _ elements => s.array req ty elements
  | .matrix _ rows => s.matrix req rows
  | .range ty start step stop => s.range req ty start step stop
  | .tuple elements => do return .tuple (← s.evalAll req elements)
  | .cast ty operand => s.cast req ty operand
  | .reference parts ty => s.reference ev req parts ty
  | .binary lhs op rhs => s.binary req lhs op rhs
  | .unary _ operand => do
    let v ← s.eval req operand
    EvalM.ofOutcome v.negate
  | .logical lhs op rhs => s.logical req lhs op rhs
  | .logicalNot operand => do
    let v ← s.eval req operand
    EvalM.ofOutcome v.logicalNot
  | .relation lhs op rhs => s.relation req lhs op rhs
  | .conditional condition yes no => s.conditional req condition yes no
  | .call path args _ builtin impure => s.call ev req e path args builtin impure
  | .record path args fields => do return .record path (← s.evalAll req args) fields (-1)
  | .unionRecord path index args fields => do
    return .record path (← s.evalAll req args) fields index
  | .subscripted operand subscripts => do
    let v ← s.eval req operand
    s.applySubscripts req subscripts v
  | .component operand index => s.component req operand index
  | .field operand name => do
    let v ← s.eval req operand
    EvalM.ofOutcome (v.project name)
  | .size operand dim => s.size req operand dim
  | .list elements => do return .listOf (← s.evalAll req elements)
  | .cons head tail => s.cons req head tail
  | .present content => do return .present (← s.eval req content)
  | .absent => return .absent
  | .boxed content => do return .boxed (← s.eval req content)
  | .unbox operand _ => s.unbox req operand
  | .reduction info body iterators => s.reduction req info body iterators
  | .code fragment => s.quote req fragment

namespace Evaluator

/-- A step that the recursion limit refuses. -/
def refuse {α : Type} (ev : Evaluator) : EvalM α := do
  EvalM.count fun c => { c with refused := c.refused + 1 }
  EvalM.fail (.recursionLimit ev.config.recursionLimit)

/-- The steps with a number of levels left. -/
def steps (ev : Evaluator) : Nat → Steps
  | 0 => ⟨fun _ _ _ => ev.refuse, fun _ _ => ev.refuse⟩
  | n + 1 =>
    { evalAfter := fun k req e =>
        match k with
        | 0 => do
          EvalM.count fun c => { c with expressions := c.expressions + 1 }
          (ev.steps n).rule ev req e
        | k + 1 => (ev.steps n).evalAfter k req e
      splice := fun req code => (ev.steps n).spliceParts ev req code }

/-- The steps at the start of an evaluation: one level for each depth up to the limit. -/
def start (ev : Evaluator) : Steps := ev.steps (ev.config.recursionLimit + 1)

end Evaluator

end ModelicaFold
