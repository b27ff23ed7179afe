import ModelicaFold.Eval.Rule

/-!
# Evaluation

The entry points: values of expressions, references and dimensions, folding of expressions that may
be constant, and splicing of quoted code. A failure is reported once, as the request asks.
-/

namespace ModelicaFold.Evaluator

/-- The value of an expression. -/
def evaluate (ev : Evaluator) (req : Request) (e : Expr) : EvalM Value :=
  (ev.start.eval req e).reporting req.reporting

/-- The values of expressions, from the first to the last. -/
def evaluateAll (ev : Evaluator) (req : Request) (es : List Expr) : EvalM (List Value) :=
  es.mapM (ev.evaluate req)

/-- The value of a reference with its subscripts. -/
def evaluateReference (ev : Evaluator) (req : Request) (r : Reference) : EvalM Value :=
  (ev.start.reference ev req r .unknown).reporting req.reporting

/-- The size of a dimension as an Integer. -/
def evaluateDimension (ev : Evaluator) (req : Request) (d : Dimension) : EvalM Value :=
  EvalM.reporting req.reporting do
    let n ← ev.start.dimension req d
    EvalM.ofOutcome (inRange "dimension size" n)

/-- The expression folded to a literal if it is constant, and simplified otherwise. -/
def fold (ev : Evaluator) (req : Request) (e : Expr) (v : Variability) : EvalM Expr :=
  if !v.isEvaluable && !req.mode.readsVariables then return ev.simplify e
  else do
    match ← (ev.evaluate req e).attempt with
    | .ok value => return value.toExpr?.getD (ev.simplify e)
    | .error _ => return ev.simplify e

/-- The code with its marked expressions replaced by values. -/
def splice (ev : Evaluator) (req : Request) (code : Code) : EvalM Code :=
  (ev.start.splice req code).reporting req.reporting

end ModelicaFold.Evaluator
