import ModelicaFold.Proofs.Runs.Entry

/-!
# Rules as scripts

A rule evaluates and splices through the steps below it and asks an executor for the outcome of a
call; otherwise it only reads and changes the context and the log. A `Script` is such a computation
as data. Every rule and every public call is one (`Evaluator.exists_scripts`), whatever the steps
below and the executor do, so that a script tells in which order a rule asks for which steps. An
executor that runs bodies through the evaluator that asks it is a script as well, whose only requests
are public calls (`Evaluator.Follows`).
-/

namespace ModelicaFold

open Outcome

/-- A computation that may make requests. -/
inductive Script (R : Type → Type) : Type → Type 1 where
  | pure {α : Type} (a : α) : Script R α
  | throw {α : Type} (f : Failure) : Script R α
  | getContext : Script R Context
  | modifyContext (f : Context → Context) : Script R Unit
  | modifyLog (f : Log → Log) : Script R Unit
  | request {α : Type} (r : R α) : Script R α
  | bind {α β : Type} (x : Script R α) (k : α → Script R β) : Script R β
  | attempt {α : Type} (x : Script R α) : Script R (Except Failure α)
  | reporting {α : Type} (r : Reporting) (x : Script R α) : Script R α

/-- The step that a script stands for where its requests are answered. -/
def Script.run {R : Type → Type} (answer : {α : Type} → R α → EvalM α) {α : Type} :
    Script R α → EvalM α
  | .pure a => Pure.pure a
  | .throw f => EvalM.throw f
  | .getContext => EvalM.getContext
  | .modifyContext f => EvalM.modifyContext f
  | .modifyLog f => EvalM.modifyLog f
  | .request r => answer r
  | .bind x k => x.run answer >>= fun a => (k a).run answer
  | .attempt x => (x.run answer).attempt
  | .reporting r x => (x.run answer).reporting r

/-- An executor of functions of the model. -/
abbrev Executor := Reentry → Env → Expr → List Value → Mode → EvalM Value

/-- The evaluator with another executor. -/
def Evaluator.withExecutor (ev : Evaluator) (execute : Executor) : Evaluator :=
  { ev with call := execute }

/-- Another executor leaves the settings of an evaluator as they are. -/
@[simp] theorem Evaluator.config_withExecutor (ev : Evaluator) (execute : Executor) :
    (ev.withExecutor execute).config = ev.config := rfl

/-- What a rule may ask for: an evaluation some levels further down, the splicing of code, and the
outcome of a call. -/
inductive StepRequest : Type → Type where
  | eval (after : Nat) (req : Request) (e : Expr) : StepRequest Value
  | splice (req : Request) (code : Code) : StepRequest Code
  | execute (env : Env) (call : Expr) (values : List Value) (mode : Mode) : StepRequest Value

/-- What an executor may ask for: the evaluation of a body. -/
inductive BodyRequest : Type → Type where
  | evaluate (env : Env) (e : Expr) (mode : Mode) (reporting : Reporting) : BodyRequest Value

/-- Evaluation as steps hand it to an executor. -/
def Steps.reentry (s : Steps) : Reentry := fun env e mode r =>
  (s.evalInner ⟨env, mode, r⟩ e).reporting r

def Steps.answer (s : Steps) (execute : Executor) {α : Type} : StepRequest α → EvalM α
  | .eval after req e => s.evalAfter after req e
  | .splice req code => s.splice req code
  | .execute env call values mode => execute s.reentry env call values mode

def Reentry.answer (reenter : Reentry) {α : Type} : BodyRequest α → EvalM α
  | .evaluate env e mode r => reenter env e mode r

/-- What an executor does with a call, as a script. -/
abbrev Conduct := Env → Expr → List Value → Mode → Script BodyRequest Value

/-- The executor of an evaluator does what scripts say. -/
def Evaluator.Follows (ev : Evaluator) (conduct : Conduct) : Prop :=
  ∀ reenter env call values mode,
    ev.call reenter env call values mode = (conduct env call values mode).run reenter.answer

/-! ## Every rule is a script -/

/-- A step that depends on the steps below and on an executor only through what a script asks of
them. -/
def IsScript {α : Type} (x : Steps × Executor → EvalM α) : Prop :=
  ∃ script : Script StepRequest α, x = fun i => script.run (i.1.answer i.2)

namespace IsScript

variable {α β : Type} {x : Steps × Executor → EvalM α}

/-- A sequence of scripts is a script. -/
theorem bind (hx : IsScript x) {k : Steps × Executor → α → EvalM β}
    (hk : ∀ a, IsScript fun i => k i a) : IsScript fun i => x i >>= k i := by
  obtain ⟨first, rfl⟩ := hx
  choose next hnext using hk
  refine ⟨.bind first next, funext fun i => congrArg _ (funext fun a => ?_)⟩
  exact congrFun (hnext a) i

/-- A script that reports its failures is a script. -/
theorem reporting (hx : IsScript x) (r : Reporting) : IsScript fun i => (x i).reporting r := by
  obtain ⟨script, rfl⟩ := hx
  exact ⟨.reporting r script, rfl⟩

/-- A failure may be handled in a way that depends on it. -/
theorem handle (hx : IsScript x) {k : Steps × Executor → Except Failure α → EvalM β}
    (hk : ∀ outcome, IsScript fun i => k i outcome) :
    IsScript fun i => (x i).attempt >>= k i := by
  obtain ⟨script, rfl⟩ := hx
  exact bind ⟨.attempt script, rfl⟩ hk

end IsScript

/-- Steps that are scripts, as an alignment of all steps below and all executors. -/
def scripted : Alignment (Steps × Executor) where
  Aligned := IsScript
  Alike f := ∃ g, f = fun _ => g
  Admits _ _ r := ∃ r₀, r = fun _ => r₀
  Meets _ := True
  Iterates := True
  isFatal_eq := by
    rintro _ ⟨g, rfl⟩ i j
    rfl
  alike_moreTelling := by
    rintro _ _ ⟨f, rfl⟩ ⟨g, rfl⟩
    exact ⟨EvalM.moreTelling f g, rfl⟩
  alike_of c := ⟨Failure.of c, rfl⟩
  admits_bindValues h _ _ _ _ := h
  iterates _ := trivial
  admits_keepsTo _ := Env.keepsTo_all _
  pure a := ⟨.pure a, rfl⟩
  throw := by
    rintro α _ ⟨f, rfl⟩
    exact ⟨.throw f, rfl⟩
  bind hx hk := .bind hx hk
  modifyLog {g} _ := ⟨.modifyLog g, rfl⟩

/-- Scripts may catch failures and go on. -/
theorem scripted_rescues : scripted.Rescues :=
  scripted.rescues_of_handle fun {_ _ x k} hx hok herror => by
    refine hx.handle fun outcome => ?_
    cases outcome with
    | ok a => exact hok a
    | error f => exact herror (fun _ => f) ⟨f, rfl⟩

/-- Scripts may hand failures over as diagnostics. -/
theorem scripted_reports : scripted.Reports := by
  rintro α env mode _ x ⟨r, rfl⟩ hx
  exact hx.reporting r

/-- The requests of a rule are scripts. -/
theorem scripted_eval {env : Env} {mode : Mode} {r : Steps × Executor → Reporting}
    (hr : scripted.Admits env mode r) (k : Nat) (e : Expr) :
    IsScript fun i => i.1.evalAfter k ⟨env, mode, r i⟩ e := by
  obtain ⟨r, rfl⟩ := hr
  exact ⟨.request (.eval k ⟨env, mode, r⟩ e), rfl⟩

/-- The steps of an evaluator that cannot execute calls are scripts. -/
theorem scripted_stepwise (ev : Evaluator) :
    scripted.Stepwise (ev.withExecutor fun _ _ _ _ _ => EvalM.fail .notConstant)
      (fun _ => ev.config.recursionLimit) Prod.fst := by
  refine Alignment.stepwise_of_rescues (Evaluator.keepsTo_all _) scripted_rescues
    scripted_reports (fun hr k e _ => scripted_eval hr k e) ?_ ?_ ?_
  · rintro env mode _ ⟨r, rfl⟩ code
    exact ⟨.request (.splice ⟨env, mode, r⟩ code), rfl⟩
  · intro env mode r hr name found e v _ _
    have hfound : scripted.Admits found.env mode r := hr
    exact Alignment.force_of_eval (A := scripted) ⟨.getContext, rfl⟩
      (fun f => ⟨.modifyContext f, rfl⟩) (scripted_eval hfound 0 e)
  · intro env mode r hr call values
    exact scripted.bind (scripted.count fun _ => rfl) fun _ => scripted.fail _

section

variable (ev : Evaluator) (req : Request)

/-- A call of a function of the model asks for the outcome of the call, once. -/
theorem scripted_callFunction (call : Expr) (path : Path) (args : List Expr) :
    IsScript fun i => i.1.callFunction (ev.withExecutor i.2) req call path args := by
  have hr : scripted.Admits req.env req.mode fun _ => req.reporting := ⟨req.reporting, rfl⟩
  refine Alignment.callFunction_of_rescues (A := scripted) (fun k e _ => scripted_eval hr k e) hr
    scripted_rescues scripted_reports (fun _ _ => trivial) fun values => ?_
  refine scripted.bind (scripted.count fun _ => rfl) fun _ => ?_
  exact ⟨.request (.execute req.env call values req.mode), rfl⟩

/-- Every rule is a script. -/
theorem scripted_rule (e : Expr) :
    IsScript fun i => i.1.rule (ev.withExecutor i.2) req e := by
  have hr : scripted.Admits req.env req.mode fun _ => req.reporting := ⟨req.reporting, rfl⟩
  have hrule : scripted.Aligned fun i =>
      i.1.rule (ev.withExecutor fun _ _ _ _ _ => EvalM.fail .notConstant) req e :=
    (scripted_stepwise ev).rule hr trivial
  -- but for calls of functions of the model a rule does not look at the executor
  cases e with
  | call path args ty builtin impure =>
    simp only [Steps.rule, Steps.call_eq] at hrule ⊢
    cases hsmooth : Steps.smoothZero? path args builtin with
    | some e =>
      simp only [hsmooth] at hrule
      exact hrule
    | none =>
      simp only [hsmooth] at hrule
      cases builtin with
      | true =>
        simp only [Evaluator.config_withExecutor, reduceIte]
        cases hbuiltin : Builtin.rule? path.last ev.config.flags.metamodelica with
        | none => exact scripted.fail _
        | some rule =>
          have hmeets : scripted.Meets (.call path args ty true impure) := trivial
          have hcall := (scripted_stepwise ev).callBuiltin hr hmeets hbuiltin
          have hsame : ∀ i : Steps × Executor,
              i.1.applyRule (ev.withExecutor i.2) req args rule
                = i.1.applyRule (ev.withExecutor fun _ _ _ _ _ => EvalM.fail .notConstant) req args
                    rule := fun i => Steps.applyRule_congr hbuiltin rfl
          simp only [Steps.callBuiltin, hsame]
          exact hcall
      | false =>
        cases impure with
        | true => exact hrule
        | false => exact scripted_callFunction ev req _ path args
  | _ => exact hrule

/-- Splicing the parts of quoted code is a script. -/
theorem scripted_spliceParts (code : Code) :
    IsScript fun i => i.1.spliceParts (ev.withExecutor i.2) req code := by
  have hr : scripted.Admits req.env req.mode fun _ => req.reporting := ⟨req.reporting, rfl⟩
  exact (scripted_stepwise ev).spliceParts hr code

end

/-! ## Public calls -/

/-- What may be asked of an evaluator from outside. -/
inductive PublicCall where
  | ask (entry : Entry)
  | fold (req : Request) (e : Expr) (v : Variability)

def PublicCall.Result : PublicCall → Type
  | .ask entry => entry.Result
  | .fold _ _ _ => Expr

/-- A public call, given the steps at the depth at which public calls start. -/
def PublicCall.run (ev : Evaluator) (s : Steps) : (call : PublicCall) → EvalM call.Result
  | .ask (.expression req e) => (s.eval req e).reporting req.reporting
  | .ask (.expressions req es) => es.mapM fun e => (s.eval req e).reporting req.reporting
  | .ask (.reference req parts) => (s.reference ev req parts .unknown).reporting req.reporting
  | .ask (.dimension req d) => EvalM.reporting req.reporting do
    let n ← s.dimension req d
    EvalM.ofOutcome (inRange "dimension size" n)
  | .ask (.quoted req code) => (s.splice req code).reporting req.reporting
  | .fold req e v =>
    if !v.isEvaluable && !req.mode.readsVariables then return ev.simplify e
    else do
      match ← ((s.eval req e).reporting req.reporting).attempt with
      | .ok value => return value.toExpr?.getD (ev.simplify e)
      | .error _ => return ev.simplify e

/-- Evaluation starts with all its levels. -/
theorem PublicCall.run_start (ev : Evaluator) (entry : Entry) :
    (PublicCall.ask entry).run ev ev.start = entry.run ev := by
  cases entry <;> rfl

/-- The public call that folds is the folding of the evaluator. -/
theorem PublicCall.run_start_fold (ev : Evaluator) (req : Request) (e : Expr) (v : Variability) :
    (PublicCall.fold req e v).run ev ev.start = ev.fold req e v := rfl

/-- Every public call is a script. -/
theorem scripted_publicCall (ev : Evaluator) (call : PublicCall) :
    IsScript fun i => call.run (ev.withExecutor i.2) i.1 := by
  have hadmits : ∀ req : Request, scripted.Admits req.env req.mode fun _ => req.reporting :=
    fun req => ⟨req.reporting, rfl⟩
  have heval : ∀ (req : Request) e, IsScript fun i => (i.1.eval req e).reporting req.reporting :=
    fun req e => (scripted_eval (hadmits req) 0 e).reporting _
  have h := scripted_stepwise ev
  cases call with
  | ask entry =>
    cases entry with
    | expression req e => exact heval req e
    | expressions req es => exact scripted.mapM fun e _ => heval req e
    | reference req parts =>
      exact IsScript.reporting (h.reference (hadmits req) (fun _ _ => trivial) .unknown) _
    | dimension req d =>
      refine IsScript.reporting (scripted.bind ?_ fun n => ?_) _
      · exact Alignment.dimension (A := scripted) (fun k e _ => scripted_eval (hadmits req) k e)
          fun _ _ => ⟨scripted_rescues, trivial⟩
      · exact scripted.ofOutcome (ordinary_inRange "dimension size" n)
    | quoted req code => exact IsScript.reporting (h.splice (hadmits req) code) _
  | fold req e v =>
    have hsimplified := scripted.pure (ev.simplify e)
    refine scripted.ite (fun _ => hsimplified) fun _ => (heval req e).handle fun outcome => ?_
    cases outcome with
    | ok value => exact scripted.pure (value.toExpr?.getD (ev.simplify e))
    | error f => exact hsimplified

/-! ## The scripts of an evaluator -/

/-- Scripts for the rules and the public calls of an evaluator. They stand for these whatever the
steps below and the executor do, so that they make the requests that a rule makes. -/
structure Evaluator.Scripts (ev : Evaluator) where
  rule : Request → Expr → Script StepRequest Value
  splice : Request → Code → Script StepRequest Code
  publicCall : (call : PublicCall) → Script StepRequest call.Result
  rule_run : ∀ (s : Steps) (execute : Executor) req e,
    (rule req e).run (s.answer execute) = s.rule (ev.withExecutor execute) req e
  splice_run : ∀ (s : Steps) (execute : Executor) req code,
    (splice req code).run (s.answer execute) = s.spliceParts (ev.withExecutor execute) req code
  publicCall_run : ∀ (s : Steps) (execute : Executor) call,
    (publicCall call).run (s.answer execute) = call.run (ev.withExecutor execute) s

/-- Every evaluator has scripts for its rules and public calls. -/
theorem Evaluator.exists_scripts (ev : Evaluator) : Nonempty ev.Scripts := by
  choose rule hrule using scripted_rule ev
  choose splice hsplice using scripted_spliceParts ev
  choose publicCall hpublic using scripted_publicCall ev
  exact ⟨rule, splice, publicCall, fun s execute req e => (congrFun (hrule req e) (s, execute)).symm,
    fun s execute req code => (congrFun (hsplice req code) (s, execute)).symm,
    fun s execute call => (congrFun (hpublic call) (s, execute)).symm⟩

end ModelicaFold
