import ModelicaFold.Proofs.Memory.Transparency
import ModelicaFold.Proofs.Runs.Success

/-!
# The context only grows

A successful evaluation returns the context it began with and what it has come to remember: values
of variables that are bound to expressions outside of scopes of iterators, each under the key of its
declaration (`Env.Adds`). Nothing is lost where failures are caught, and nothing that a failing
attempt came to remember is kept. The executor of functions is outside of the evaluator; it only adds
to the context if the evaluations that it starts do (`Evaluator.CallsAdd`).
-/

namespace ModelicaFold

namespace Env

/-- A declaration of an environment that evaluation meets is one of the environment that it started
in: scopes of values declare none. -/
theorem Extends.declares {start env : Env} (h : start.Extends env) {scope : Env} {name : String}
    {e : Expr} (hdecl : env.Declares scope name e) : start.Declares scope name e := by
  induction h with
  | seen hframes => exact ⟨hdecl.seen.trans hframes, hdecl.kind, hdecl.bound⟩
  | @bindValues env _ scopeName kind bindings ih =>
    refine ih ⟨?_, hdecl.kind, hdecl.bound⟩
    have hseen := hdecl.seen
    rw [frames.eq_1 (env.bindValues scopeName kind bindings), outer_bindValues] at hseen
    rcases List.suffix_cons_iff.mp hseen with hself | houter
    · -- the new scope itself, in which every binding is a value
      obtain ⟨declared, _, _, hlookup, hbinding⟩ := hdecl.bound
      rw [(List.cons.inj hself).1] at hlookup
      obtain ⟨v, hv⟩ := innermost_bindValues env scopeName kind bindings
        (mem_of_lookup_eq_some hlookup)
      rw [hbinding] at hv
      cases hv
    · exact houter

/-! ## Additions to a context -/

/-- One context has become another one by remembering values of declarations of an environment. -/
structure Adds (start : Env) (C D : Context) : Prop where
  within : C.Within D
  new : ∀ ⦃key : String⦄ ⦃v : Value⦄, C.constant? key = none → D.constant? key = some v →
    ∃ scope name e, start.Declares scope name e ∧ key = scope.key name

namespace Adds

variable {start env : Env} {C D E : Context}

/-- A context adds nothing to itself. -/
theorem refl (start : Env) (C : Context) : start.Adds C C := by
  refine ⟨.refl C, fun key v hnone hsome => ?_⟩
  rw [hnone] at hsome
  cases hsome

/-- Additions to additions are additions. -/
theorem trans (h : start.Adds C D) (h' : start.Adds D E) : start.Adds C E := by
  refine ⟨h.within.trans h'.within, fun key v hnone hsome => ?_⟩
  cases hkey : D.constant? key with
  | some w => exact h.new hnone hkey
  | none => exact h'.new hkey hsome

/-- Remembering a value under the key of a declaration is an addition. -/
theorem remember {scope : Env} {name : String} {e : Expr} (hdecl : start.Declares scope name e)
    (C : Context) (v : Value) : start.Adds C (C.remember (scope.key name) v) := by
  refine ⟨C.within_remember _ v, fun key w hnone hsome => ?_⟩
  by_cases hkey : key = scope.key name
  · exact ⟨scope, name, e, hdecl, hkey⟩
  · rw [Context.constant?_remember_of_ne hkey, hnone] at hsome
    cases hsome

/-- What is added where evaluation goes is added where it starts. -/
theorem of_extends (henv : start.Extends env) (h : env.Adds C D) : start.Adds C D := by
  refine ⟨h.within, fun key v hnone hsome => ?_⟩
  obtain ⟨scope, name, e, hdecl, hkey⟩ := h.new hnone hsome
  exact ⟨scope, name, e, henv.declares hdecl, hkey⟩

end Adds

end Env

/-! ## Steps that only add to the context -/

/-- Whenever a step succeeds, the context has only come to remember values of declarations of an
environment. -/
def EvalM.AddsOnly {α : Type} (start : Env) (x : EvalM α) : Prop :=
  ∀ ⦃ctx ctx' : Context⦄ ⦃log log' : Log⦄ ⦃a : α⦄,
    x.Gives ctx log a ctx' log' → start.Adds ctx ctx'

namespace EvalM.AddsOnly

variable {α β : Type} {start env : Env} {x : EvalM α}

/-- A step that leaves the context as it is. -/
theorem of_keeps (h : ∀ {ctx ctx' log log' a}, x.Gives ctx log a ctx' log' → ctx = ctx') :
    x.AddsOnly start := by
  intro ctx ctx' log log' a hx
  rw [h hx]
  exact .refl start ctx'

/-- A computation without effects adds nothing to the context. -/
theorem ofOutcome (o : Outcome α) : (EvalM.ofOutcome o).AddsOnly start :=
  .of_keeps fun h => (gives_ofOutcome.mp h).2.1

/-- Asking for the context adds nothing to it. -/
theorem getContext : EvalM.getContext.AddsOnly start :=
  .of_keeps fun h => by cases h; rfl

/-- A change of the log adds nothing to the context. -/
theorem modifyLog (g : Log → Log) : (EvalM.modifyLog g).AddsOnly start :=
  .of_keeps fun h => by cases h; rfl

/-- A sequence only adds to the context if its parts do. -/
theorem bind {k : α → EvalM β} (hx : x.AddsOnly start) (hk : ∀ a, (k a).AddsOnly start) :
    (x >>= k).AddsOnly start := by
  intro ctx ctx' log log' b h
  obtain ⟨a, ctx₁, log₁, ha, hb⟩ := gives_bind.mp h
  exact (hx ha).trans (hk a hb)

/-- A failing attempt leaves nothing behind. -/
theorem attempt (hx : x.AddsOnly start) : x.attempt.AddsOnly start := by
  intro ctx ctx' log log' outcome h
  unfold Gives EvalM.attempt at h
  rcases hrun : x ctx log with ⟨f | ⟨a, ctx₁⟩, log₁⟩
  · rw [hrun] at h
    cases h
    exact .refl start ctx
  · rw [hrun] at h
    cases h
    exact hx hrun

/-- Reporting a failure adds nothing to the context. -/
theorem reporting (hx : x.AddsOnly start) (r : Reporting) : (x.reporting r).AddsOnly start := by
  intro ctx ctx' log log' a h
  unfold Gives EvalM.reporting at h
  rcases hrun : x ctx log with ⟨f | ⟨b, ctx₁⟩, log₁⟩
  · rw [hrun] at h
    cases h
  · rw [hrun] at h
    cases h
    exact hx hrun

/-- A refusal adds nothing to the context. -/
theorem refuse (ev : Evaluator) : (ev.refuse : EvalM α).AddsOnly start :=
  bind (modifyLog _) fun _ => ofOutcome (.error _)

/-- A step that only adds to the context does so also where evaluation starts. -/
theorem of_extends (henv : start.Extends env) (hx : x.AddsOnly env) : x.AddsOnly start :=
  fun _ _ _ _ _ h => (hx h).of_extends henv

end EvalM.AddsOnly

/-- An executor of functions that only adds to the context if the evaluations that it starts do. -/
def Evaluator.CallsAdd (ev : Evaluator) : Prop :=
  ∀ reenter : Reentry,
    (∀ env e mode reporting, (reenter env e mode reporting).AddsOnly env) →
    ∀ env call values mode, (ev.call reenter env call values mode).AddsOnly env

/-- The steps of one run that only adds to the context, as an alignment. Evaluation starts in an
environment and meets those that extend it. -/
def addingAlignment (start : Env) : Alignment Unit where
  Aligned x := (x ()).AddsOnly start
  Alike _ := True
  Admits env _ _ := start.Extends env
  Meets _ := True
  Iterates := True
  isFatal_eq _ _ _ := rfl
  alike_moreTelling _ _ := trivial
  alike_of _ := trivial
  admits_bindValues h name kind bindings _ := h.bindValues name kind bindings
  iterates _ := trivial
  admits_keepsTo {env _ _} _ := env.keepsTo_all
  pure a := .ofOutcome (.ok a)
  throw _ := .ofOutcome (.error _)
  bind := .bind
  modifyLog {g} _ := .modifyLog g

namespace addingAlignment

variable {start : Env}

/-- Steps that only add to the context may catch failures and go on. -/
theorem rescues : (addingAlignment start).Rescues :=
  Alignment.rescues_of_handle _ fun hx hok herror => by
    refine .bind (.attempt hx) fun outcome => ?_
    cases outcome with
    | ok a => exact hok a
    | error f => exact herror (fun _ => f) trivial

/-- Steps that only add to the context may hand failures over as diagnostics. -/
theorem reports : (addingAlignment start).Reports := fun _ hx => .reporting hx _

end addingAlignment

/-! ## Every step -/

section

variable {s : Steps}
  (heval : ∀ {start env : Env}, start.Extends env → ∀ mode r k e,
    (s.evalAfter k ⟨env, mode, r⟩ e).AddsOnly start)
  {start env : Env} (henv : start.Extends env) (mode : Mode) (r : Reporting)

include heval henv

/-- The value of a declaration is remembered under its key, that of an iterator is not. -/
theorem Steps.addsOnly_force {name : String} {found : Found} {e : Expr} {v : Variability}
    (hfound : env.lookup name = some found) (hbinding : found.declared.binding = .expression e v none) :
    (s.force ⟨env, mode, r⟩ found name e).AddsOnly start := by
  refine .bind .getContext fun ctx => ?_
  cases if found.isIterator then none else ctx.constant? (Context.key found.scope name) with
  | some w => exact .ofOutcome (.ok w)
  | none =>
    simp only
    split
    · exact .ofOutcome (.error _)
    · refine .bind (heval (henv.found hfound hbinding) mode r 0 e) fun w => ?_
      cases hiterator : found.isIterator with
      | true => exact .ofOutcome (.ok w)
      | false =>
        obtain ⟨hdecl, hkey⟩ := henv.declared hfound hbinding hiterator
        refine .bind (fun ctx ctx' log log' _ h => ?_) fun _ => .ofOutcome (.ok w)
        cases h
        rw [hkey]
        exact .remember hdecl ctx w

/-- An executor is asked with evaluation that only adds to the context, wherever it starts. -/
theorem Steps.addsOnly_delegate {ev : Evaluator} (hcall : ev.CallsAdd) (call : Expr)
    (values : List Value) : (s.delegate ev ⟨env, mode, r⟩ call values).AddsOnly start := by
  refine .bind (.modifyLog _) fun _ => .of_extends henv ?_
  exact hcall _ (fun env e mode r => .reporting (heval (.refl env) mode r 1 e) r) env call values mode

end

/-- With any number of levels left every step only adds to the context, whatever environment
evaluation starts in. -/
theorem stepwise_adding {ev : Evaluator} (hcall : ev.CallsAdd) (n : Nat) (start : Env) :
    (addingAlignment start).Stepwise ev (fun _ => ev.config.recursionLimit)
      fun _ => ev.steps n := by
  have hsteps : ∀ {s : Steps},
      (∀ {start env : Env}, start.Extends env → ∀ mode r k e,
        (s.evalAfter k ⟨env, mode, r⟩ e).AddsOnly start) →
      (∀ {start env : Env}, start.Extends env → ∀ mode r code,
        (s.splice ⟨env, mode, r⟩ code).AddsOnly start) →
      ∀ start, (addingAlignment start).Stepwise ev (fun _ => ev.config.recursionLimit)
        fun _ => s := by
    intro s heval hsplice start
    refine Alignment.stepwise_of_rescues ev.keepsTo_all addingAlignment.rescues
      addingAlignment.reports (fun henv k e _ => heval henv _ _ k e)
      (fun henv code => hsplice henv _ _ code) ?_ fun henv call values => ?_
    · intro env mode r henv name found e v hfound hbinding
      exact Steps.addsOnly_force heval henv mode (r ()) hfound hbinding
    · exact Steps.addsOnly_delegate heval henv _ _ hcall call values
  induction n generalizing start with
  | zero => exact hsteps (fun _ _ _ _ _ => .refuse ev) (fun _ _ _ _ => .refuse ev) start
  | succ n ih =>
    refine hsteps (fun henv mode r k e => ?_) (fun henv mode r code => ?_) start
    · have hr : (addingAlignment _).Admits _ mode fun _ => r := henv
      exact (ih _).evalAfter_succ hr k trivial
    · have hr : (addingAlignment _).Admits _ mode fun _ => r := henv
      exact (ih _).splice_succ hr code

/-- The context only grows: a successful evaluation remembers what was remembered before, with the
same values, and reaches the same functions; all that is new is remembered under the key of a
variable that the environment binds to an expression in a scope other than one of iterators. -/
theorem context_only_grows (ev : Evaluator) (hcall : ev.CallsAdd) (entry : Entry)
    {ctx ctx' : Context} {log log' : Log} {result : entry.Result}
    (hrun : (entry.run ev).Gives ctx log result ctx' log') :
    ctx.functions = ctx'.functions
      ∧ (∀ key v, ctx.constant? key = some v → ctx'.constant? key = some v)
      ∧ ∀ key v, ctx.constant? key = none → ctx'.constant? key = some v →
        ∃ scope name e, entry.request.env.Declares scope name e
          ∧ key = Context.key scope.innermost.name name := by
  have hsteps := stepwise_adding hcall (ev.config.recursionLimit + 1) entry.request.env
  have hadds : (entry.run ev).AddsOnly entry.request.env :=
    hsteps.run_of_rescues addingAlignment.rescues addingAlignment.reports (fun _ _ => trivial)
      (.refl _)
  obtain ⟨hwithin, hnew⟩ := hadds hrun
  exact ⟨hwithin.functions, fun key v h => hwithin.constants h, fun key v hnone h => hnew hnone h⟩

/-! ## Executors that evaluate bodies -/

/-- An executor that evaluates bodies only adds to the context if evaluation does. -/
theorem Execution.addsOnly {reenter : Reentry}
    (hreenter : ∀ env e mode reporting, (reenter env e mode reporting).AddsOnly env) (env : Env)
    (mode : Mode) (execution : Execution) : (execution.run reenter env mode).AddsOnly env := by
  induction execution with
  | finish outcome => exact .ofOutcome outcome
  | body scope parameters e reporting next ih =>
    have henv := (Env.Extends.refl env).bindValues scope .functionScope parameters
    exact .bind (.of_extends henv (hreenter _ e mode reporting)) ih

/-- An executor that evaluates bodies adds nothing of its own. -/
theorem Evaluator.ExecutesBodies.callsAdd {ev : Evaluator} (h : ev.ExecutesBodies) :
    ev.CallsAdd := by
  obtain ⟨plan, hplan⟩ := h
  intro reenter hreenter env call values mode
  rw [hplan]
  refine .bind (.of_keeps fun h => ?_) fun functions => Execution.addsOnly hreenter env mode _
  cases h
  rfl

/-- The call `f(3)` succeeds where nothing is remembered yet; its body comes to remember the
variable `p`, and all that is new is the value of a declaration. -/
theorem context_only_grows_addsP :
    ∃ ctx' log',
      ((Entry.addsP (.call (.ident "f") [.integer 3] .unknown false false)).run
          Setting.addsP.evaluator).Gives .empty (.start .unlimited) (Value.integer 5) ctx' log'
        ∧ ctx'.constant? "p" = some (.integer 2)
        ∧ ∀ key v, ctx'.constant? key = some v →
          ∃ scope name e, Setting.addsP.env.Declares scope name e
            ∧ key = Context.key scope.innermost.name name := by
  have hcall : Setting.addsP.evaluator.ExecutesBodies :=
    ⟨fun _ _ _ values _ => Execution.addsP values, fun _ _ _ _ _ => rfl⟩
  have hrun : ∃ log', ((Entry.addsP (.call (.ident "f") [.integer 3] .unknown false false)).run
      Setting.addsP.evaluator).Gives .empty (.start .unlimited) (Value.integer 5)
        ⟨[("p", .integer 2)], .empty⟩ log' := ⟨_, rfl⟩
  obtain ⟨log', hrun⟩ := hrun
  refine ⟨_, log', hrun, rfl, fun key v h => ?_⟩
  exact (context_only_grows _ hcall.callsAdd _ hrun).2.2 key v rfl h

end ModelicaFold
