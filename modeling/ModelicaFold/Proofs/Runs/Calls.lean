import ModelicaFold.Eval.Evaluate
import ModelicaFold.Proofs.Runs.Alternatives
import ModelicaFold.Proofs.Runs.Success

/-!
# Calls of built-in functions, from their arguments

The expression and the call are counted; then a built-in function of the base language is evaluated
by its rule alone, with the arguments one level down (`eval_builtin`).
-/

namespace ModelicaFold

/-- A log in which one more expression is counted. -/
def Log.visiting (log : Log) : Log :=
  { log with counters := { log.counters with expressions := log.counters.expressions + 1 } }

/-- A log in which one more call of a built-in function is counted. -/
def Log.calling (log : Log) : Log :=
  { log.visiting with counters :=
    { log.visiting.counters with builtinCalls := log.visiting.counters.builtinCalls + 1 } }

/-- The rule of a function of the base language is the one in its table. -/
theorem Builtin.rule?_eq_some {name : String} {r : Rule} (h : baseTable.lookup name = some r)
    (extended : Bool) : rule? name extended = some r := by
  rw [rule?, h]

/-- A function of the base language has one rule, with the extension or without. -/
theorem Builtin.eq_of_rule? {name : String} {extended : Bool} {r r' : Rule}
    (h : baseTable.lookup name = some r') (hr : rule? name extended = some r) : r = r' :=
  Option.some.inj (hr.symm.trans (rule?_eq_some h extended))

/-- A call is a short cut only under one name. -/
theorem Steps.smoothZero?_eq_none {path : Path} (h : path.last ≠ "smooth") (args : List Expr)
    (builtin : Bool) : smoothZero? path args builtin = none :=
  Option.eq_none_iff_forall_ne_some.mpr fun _ he => h (smoothZero?_eq_some.mp he).2.2

section

variable {ev : Evaluator} {n : Nat} {req : Request} {path : Path} {args : List Expr} {ty : Ty}
  {impure : Bool} {ctx ctx' : Context} {log log' : Log}

/-- A call of a built-in function is evaluated by the rule of the function. -/
theorem eval_builtin {rule : Builtin.Rule}
    (hrule : Builtin.baseTable.lookup path.last = some rule)
    (hsmooth : Steps.smoothZero? path args true = none) :
    (ev.steps (n + 1)).eval req (.call path args ty true impure) ctx log
      = (ev.steps n).applyRule ev req args rule ctx log.calling := by
  have hbase := Builtin.rule?_eq_some hrule ev.config.flags.metamodelica
  have hcall : (ev.steps n).call ev req (.call path args ty true impure) path args true impure
      = (ev.steps n).callBuiltin ev req args rule := by
    rw [Steps.call_eq]
    simp only [hsmooth, hbase, if_true]
  change (ev.steps n).call ev req (.call path args ty true impure) path args true impure ctx
    log.visiting = _
  rw [hcall]
  rfl

/-- A function of values is applied to the values of the arguments. -/
theorem eval_builtin_ofValues {f : Builtin.Function} {values : List Value}
    (hf : Builtin.baseTable.lookup path.last = some (.ofValues f))
    (hsmooth : Steps.smoothZero? path args true = none)
    (h : ((ev.steps n).evalAll req args).Gives ctx log.calling values ctx' log') :
    ((ev.steps (n + 1)).eval req (.call path args ty true impure) ctx log).1
      = (f values).map fun w => (w, ctx') := by
  rw [eval_builtin hf hsmooth]
  change (((ev.steps n).evalAll req args >>= fun values => EvalM.ofOutcome (f values)) ctx
    log.calling).1 = _
  rw [EvalM.bind_apply, h]
  change (EvalM.ofOutcome (f values) ctx' log').1 = _
  cases f values <;> rfl

/-- A call of a built-in function applies it to the value of its argument. -/
theorem eval_callBuiltin {f : Builtin.Function}
    (hf : Builtin.baseTable.lookup path.last = some (.ofValues f)) {e : Expr} {v : Value}
    (h : ((ev.steps (n + 1)).eval req e).Gives ctx log.calling v ctx' log') :
    ((ev.steps (n + 2)).eval req (.call path [e] ty true impure) ctx log).1
      = (f [v]).map fun w => (w, ctx') := by
  have hargs : ((ev.steps (n + 1)).evalAll req [e]).Gives ctx log.calling [v] ctx' log' := by
    rw [Steps.evalAll, List.mapM_cons]
    exact EvalM.gives_bind.mpr ⟨v, ctx', log', h, rfl⟩
  exact eval_builtin_ofValues hf (by simp [Steps.smoothZero?]) hargs

end

end ModelicaFold
