import ModelicaFold.Eval.Evaluator
import ModelicaFold.Value.Convert

/-!
# Quoted code

Inside quoted code the call `Eval(e)` marks a place for a value: `e` is given a type, evaluated,
and replaced together with its marker by the code of its value. Everything else stays.
-/

namespace ModelicaFold

namespace Code

/-- The marked expression, if code is a marker: an unqualified call of `Eval` with one positional
argument and no other. -/
def marked? : Code → Option Code
  | .call function [arg] [] => if function = .ident "Eval" then some arg else none
  | _ => none

/-- Applies a step to every direct part of a piece of code, from left to right. -/
def mapParts {m : Type → Type} [Monad m] (f : Code → m Code) : Code → m Code
  | .integer n => return .integer n
  | .real x => return .real x
  | .string s => return .string s
  | .bool b => return .bool b
  | .last => return .last
  | .reference path subscripts => do return .reference path (← subscripts.mapM f)
  | .binary lhs op rhs => do
    let a ← f lhs
    let b ← f rhs
    return .binary a op b
  | .logical lhs op rhs => do
    let a ← f lhs
    let b ← f rhs
    return .logical a op b
  | .relation lhs op rhs => do
    let a ← f lhs
    let b ← f rhs
    return .relation a op b
  | .unary op operand => do return .unary op (← f operand)
  | .logicalUnary op operand => do return .logicalUnary op (← f operand)
  | .conditional condition yes elseIfs no => do
    let c ← f condition
    let y ← f yes
    let branches ← elseIfs.mapM fun (c, y) => do
      let c ← f c
      let y ← f y
      return (c, y)
    return .conditional c y branches (← f no)
  | .call function args named => do
    let args ← args.mapM f
    let named ← named.mapM fun (name, arg) => do return (name, ← f arg)
    return .call function args named
  | .array elements => do return .array (← elements.mapM f)
  | .matrix rows => do return .matrix (← rows.mapM fun row => row.mapM f)
  | .range start step stop => do
    let a ← f start
    let d ← step.mapM f
    return .range a d (← f stop)
  | .tuple elements => do return .tuple (← elements.mapM f)
  | .list elements => do return .list (← elements.mapM f)

end Code

namespace Steps

/-- The code that a marked expression is replaced by. -/
def spliceMarked (s : Steps) (ev : Evaluator) (req : Request) (marked : Code) : EvalM Code :=
  match ev.elaborate req.env marked with
  | none => EvalM.fail .notConstant
  | some e => do
    let v ← s.eval req e
    match v.toCode? with
    | some code => return code
    | none => EvalM.fail .notConstant

/-- Replaces the marked expressions in a piece of code. -/
def spliceParts (s : Steps) (ev : Evaluator) (req : Request) (code : Code) : EvalM Code :=
  match code.marked? with
  | some marked => s.spliceMarked ev req marked
  | none => code.mapParts (s.splice req)

/-- The value of quoted code. -/
def quote (s : Steps) (req : Request) : Fragment → EvalM Value
  | .expression code => do return .code (.expression (← s.splice req code))
  | name => return .code name

end Steps

end ModelicaFold
