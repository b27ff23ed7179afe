import ModelicaFold.Proofs.Runs.Catching

/-!
# Executors that evaluate bodies

A function of the model is executed by evaluating its body where its parameters have values. An
`Execution` is what an executor does with one call: bodies are evaluated one after the other, each
in a scope of parameters on top of the environment of the call, until the outcome is known. Asking
such an executor does the same in all runs in which evaluation does the same
(`Alignment.delegate_of_executesBodies`).
-/

namespace ModelicaFold

/-- What an executor does with a call. -/
inductive Execution where
  /-- The outcome is known. -/
  | finish (outcome : Outcome Value)
  /-- A body is evaluated in a scope of parameters; what follows depends on its value. -/
  | body (scope : String) (parameters : List (String × Ty × Value)) (e : Expr)
      (reporting : Reporting) (next : Value → Execution)

/-- Executes a call in the environment and mode that it is made in. The failure of a body is the
failure of the call. -/
def Execution.run (reenter : Reentry) (env : Env) (mode : Mode) : Execution → EvalM Value
  | .finish outcome => EvalM.ofOutcome outcome
  | .body scope parameters e reporting next => do
    let v ← reenter (env.bindValues scope .functionScope parameters) e mode reporting
    (next v).run reenter env mode

/-- What an executor does with a call, by the functions that it may reach, its environment, the call
itself, the values of its arguments and its mode. -/
abbrev Plan := FunctionTable → Env → Expr → List Value → Mode → Execution

/-- Every body that an execution evaluates is in a set of expressions. -/
inductive Execution.KeepsTo (M : Expr → Prop) : Execution → Prop where
  | finish (outcome : Outcome Value) : KeepsTo M (.finish outcome)
  | body (scope : String) (parameters : List (String × Ty × Value)) (reporting : Reporting)
      {e : Expr} {next : Value → Execution} (he : M e) (hnext : ∀ v, KeepsTo M (next v)) :
      KeepsTo M (.body scope parameters e reporting next)

/-- Every execution keeps to the set of all expressions. -/
theorem Execution.keepsTo {M : Expr → Prop} (h : ∀ e, M e) (execution : Execution) :
    execution.KeepsTo M := by
  induction execution with
  | finish outcome => exact .finish outcome
  | body scope parameters e reporting next ih => exact .body scope parameters reporting (h e) ih

/-- The functions that a call may reach. -/
def EvalM.getFunctions : EvalM FunctionTable := fun ctx log => (.ok (ctx.functions, ctx), log)

/-- The executor of an evaluator follows a plan: it evaluates bodies of functions with the evaluator
that asks it, and what it does depends on the call and the functions that the call may reach. -/
def Evaluator.Executes (ev : Evaluator) (plan : Plan) : Prop :=
  ∀ reenter env call values mode,
    ev.call reenter env call values mode =
      EvalM.getFunctions >>= fun functions =>
        (plan functions env call values mode).run reenter env mode

/-- The executor of an evaluator follows some plan. -/
def Evaluator.ExecutesBodies (ev : Evaluator) : Prop := ∃ plan : Plan, ev.Executes plan

/-- The executor of an evaluator follows a plan, and all that the neighbouring phases bring in is in a
set of expressions. -/
structure Evaluator.StaysWithin (ev : Evaluator) (plan : Plan) (M : Expr → Prop) : Prop where
  executes : ev.Executes plan
  bodies : ∀ functions env call values mode, (plan functions env call values mode).KeepsTo M
  keeps : ev.KeepsTo M

/-- The executor of functions of an evaluator that has none. -/
def Evaluator.ExecutesNothing (ev : Evaluator) : Prop :=
  ev.call = fun _ _ _ _ _ => EvalM.fail .notConstant

/-- An evaluator without neighbours has an executor that evaluates no body. -/
theorem executesBodies_alone (config : Config) : (Evaluator.alone config).ExecutesBodies :=
  ⟨fun _ _ _ _ _ => .finish (Cause.fail .notConstant), fun _ _ _ _ _ => rfl⟩

namespace Alignment

variable {ι : Type} (A : Alignment ι) {env : Env} {mode : Mode}

section

variable (halike : ∀ f : Failure, A.Alike fun _ => f)
  (hadmits : ∀ r : Reporting, A.Admits env mode fun _ => r)

include halike hadmits

/-- An execution is aligned if the evaluation of bodies is. -/
theorem execution {reenter : ι → Reentry}
    (h : ∀ {env r}, A.Admits env mode (fun _ => r) → ∀ {e}, A.Meets e →
      A.Aligned fun i => reenter i env e mode r)
    {execution : Execution} (hmeets : execution.KeepsTo A.Meets) :
    A.Aligned fun i => execution.run (reenter i) env mode := by
  induction hmeets with
  | finish outcome =>
    cases outcome with
    | ok v => exact A.pure v
    | error f => exact A.throw (halike f)
  | body scope parameters reporting he _ ih =>
    refine A.bind (h ?_ he) ih
    exact A.admits_bindValues (hadmits reporting) scope .functionScope parameters nofun

variable (hreports : A.Reports) (hfunctions : A.Aligned fun _ => EvalM.getFunctions) {s : ι → Steps}
  (heval : ∀ {env} {r : ι → Reporting}, A.Admits env mode r → ∀ k {e}, A.Meets e →
    A.Aligned fun i => (s i).evalAfter k ⟨env, mode, r i⟩ e)
  {ev : Evaluator} {limit : ι → Nat}

include hreports hfunctions heval

/-- Asking an executor that follows a plan does the same in all runs if the evaluation of bodies
does and all runs have the same functions. -/
theorem delegate_of_executes {plan : Plan} (hplan : ev.Executes plan) {call : Expr}
    {values : List Value}
    (hmeets : ∀ functions, (plan functions env call values mode).KeepsTo A.Meets)
    (r : ι → Reporting) :
    A.Aligned fun i => (s i).delegate (ev.withLimit (limit i)) ⟨env, mode, r i⟩ call values := by
  have hplan := fun reenter => hplan reenter env call values mode
  refine A.bind (A.count fun _ => rfl) fun _ => ?_
  simp only [Evaluator.withLimit, hplan]
  refine A.bind hfunctions fun functions => ?_
  exact A.execution halike hadmits (fun hr _ he => hreports hr (heval hr 1 he)) (hmeets functions)

/-- A delegated call is aligned if the executor evaluates bodies by a plan. -/
theorem delegate_of_executesBodies (hcall : ev.ExecutesBodies) (hmeets : ∀ e, A.Meets e)
    (r : ι → Reporting) (call : Expr) (values : List Value) :
    A.Aligned fun i => (s i).delegate (ev.withLimit (limit i)) ⟨env, mode, r i⟩ call values :=
  hcall.elim fun _ hplan => A.delegate_of_executes halike hadmits hreports hfunctions heval hplan
    (fun _ => Execution.keepsTo hmeets _) r

end

/-- Evaluation and splicing suffice for a property that does not look into the context, where the
executor of functions follows a plan. -/
theorem stepwise_of_executes {A : Alignment ι} {ev : Evaluator} {limit : ι → Nat} {s : ι → Steps}
    {plan : Plan} (hstays : ev.StaysWithin plan A.Meets) (hrescues : A.Rescues)
    (hreports : A.Reports) (halike : ∀ f : Failure, A.Alike fun _ => f)
    (hget : A.Aligned fun _ => EvalM.getContext)
    (hmodify : ∀ g, A.Aligned fun _ => EvalM.modifyContext g)
    (hadmits : ∀ {env mode} {r : ι → Reporting}, A.Admits env mode r →
      ∀ r' : Reporting, A.Admits env mode fun _ => r')
    (hfound : ∀ {env mode} {r : ι → Reporting}, A.Admits env mode r →
      ∀ {name : String} {found : Found} {e : Expr} {v : Variability},
        env.lookup name = some found → found.declared.binding = .expression e v none →
        A.Admits found.env mode r)
    (heval : ∀ {env mode} {r : ι → Reporting}, A.Admits env mode r →
      ∀ k {e}, A.Meets e → A.Aligned fun i => (s i).evalAfter k ⟨env, mode, r i⟩ e)
    (hsplice : ∀ {env mode} {r : ι → Reporting}, A.Admits env mode r →
      ∀ code, A.Aligned fun i => (s i).splice ⟨env, mode, r i⟩ code) :
    A.Stepwise ev limit s := by
  have hfunctions : A.Aligned fun _ => EvalM.getFunctions := A.map hget (·.functions)
  refine stepwise_of_rescues hstays.keeps hrescues hreports heval hsplice ?_ ?_
  · intro env mode r hr name found e v hlookup hbinding
    have he := ((A.admits_keepsTo hr).lookup hlookup hbinding).1
    exact force_of_eval hget hmodify (heval (hfound hr hlookup hbinding) 0 he)
  · intro env mode r hr call values
    exact A.delegate_of_executes halike (hadmits hr) hreports hfunctions heval hstays.executes
      (hstays.bodies · env call values mode) r

end Alignment

end ModelicaFold
