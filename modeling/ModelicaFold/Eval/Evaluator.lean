import ModelicaFold.Eval.Step

/-!
# The evaluator and its collaborators

Functions of the model, symbolic simplification and the elaboration of quoted code belong to other
phases; the evaluator is given one function for each. `Steps` is what a rule of evaluation may use:
evaluation and splicing one level further down. Rules are written against it and do not refer to
each other, so that the number of levels left is the only thing evaluation recurses on.
-/

namespace ModelicaFold

/-- Evaluation as the executor of a function may start it anew. -/
abbrev Reentry := Env → Expr → Mode → Reporting → EvalM Value

/-- The configuration and the neighbouring phases. -/
structure Evaluator where
  config : Config
  /-- Executes a call of a function of the model with evaluated arguments. -/
  call : Reentry → Env → Expr → List Value → Mode → EvalM Value
  /-- Simplifies an expression that is not constant. -/
  simplify : Expr → Expr
  /-- Gives quoted code a type, if possible. -/
  elaborate : Env → Code → Option Expr

/-- The evaluator without neighbours: no function can be executed, nothing is simplified, and no
code is elaborated. -/
def Evaluator.alone (config : Config) : Evaluator where
  config := config
  call _ _ _ _ _ := EvalM.fail .notConstant
  simplify e := e
  elaborate _ _ := none

/-- Evaluation and splicing one level further down. `evalAfter k` gives up `k` levels more before
it evaluates. -/
structure Steps where
  evalAfter : Nat → Request → Expr → EvalM Value
  splice : Request → Code → EvalM Code

namespace Steps

/-- Evaluates a direct subexpression. -/
def eval (s : Steps) (req : Request) (e : Expr) : EvalM Value := s.evalAfter 0 req e

/-- Evaluates an expression that belongs to a rule, one level deeper than a subexpression. -/
def evalInner (s : Steps) (req : Request) (e : Expr) : EvalM Value := s.evalAfter 1 req e

/-- Evaluates expressions from the first to the last. -/
def evalAll (s : Steps) (req : Request) (es : List Expr) : EvalM (List Value) :=
  es.mapM (s.eval req)

end Steps

end ModelicaFold
