import ModelicaFold.Proofs.Memory.Transparency
import ModelicaFold.Proofs.Runs.Views

/-!
# What a stricter configuration evaluates

A configuration is more permissive than another if varying variables may be read as well, or if the
functions of the extension are built in as well. Where no sizes are asked for and no code is quoted,
what succeeds under the stricter one succeeds under the more permissive one, with the same value and
the same context (`success_stable`): each difference lets an evaluation go on that fails otherwise,
and only the rules for sizes turn a failure into something else.
-/

namespace ModelicaFold

open Outcome

/-- No sizes are asked for, and no code is quoted, in an expression or anywhere inside it. -/
inductive Expr.Unmeasured : Expr → Prop where
  | intro {e : Expr} (hmeasured : e.measured? = none) (hcode : ∀ fragment, e ≠ .code fragment)
      (hinside : ∀ part ∈ e.inside, part.Unmeasured) : Unmeasured e

namespace Expr.Unmeasured

variable {e : Expr} (h : e.Unmeasured)

include h

/-- An unmeasured expression asks for no size. -/
theorem measured : e.measured? = none := by
  cases h
  assumption

/-- An unmeasured expression is no quoted code. -/
theorem not_code : ∀ fragment, e ≠ .code fragment := by
  cases h
  assumption

/-- What is inside an unmeasured expression is unmeasured. -/
theorem inside : ∀ part ∈ e.inside, part.Unmeasured := by
  cases h
  assumption

end Expr.Unmeasured

/-- The evaluator with the functions of the extension built in, or not. -/
def Evaluator.withExtension (ev : Evaluator) (enabled : Bool) : Evaluator :=
  { ev with config.flags.metamodelica := enabled }

/-! ## Runs of which one is stricter -/

/-- Where a run succeeds so does another one, with the same value and context, whatever has been
logged. -/
def EvalM.Allows {α : Type} (x y : EvalM α) : Prop :=
  ∀ ⦃ctx a ctx' log⦄, (x ctx log).1 = .ok (a, ctx') → ∀ log', (y ctx log').1 = .ok (a, ctx')

namespace EvalM.Allows

variable {α β : Type} {x y : EvalM α}

/-- A step that gives what it gives whatever has been logged. -/
theorem of_ok (a : Context → α) (change : Context → Context) (note : Log → Log) :
    Allows (α := α) (fun ctx log => (.ok (a ctx, change ctx), note log))
      fun ctx log => (.ok (a ctx, change ctx), note log) :=
  fun _ _ _ _ h _ => h

/-- A run that fails allows anything. -/
theorem throw (f : Failure) (y : EvalM α) : (EvalM.throw f).Allows y := nofun

/-- A sequence allows another one if its parts do. -/
theorem bind (hxy : x.Allows y) {k l : α → EvalM β} (hkl : ∀ a, (k a).Allows (l a)) :
    (x >>= k).Allows (y >>= l) := by
  intro ctx b ctx' log hrun log'
  cases hfirst : (x ctx log).1 with
  | error f =>
    rw [bind_of_error hfirst] at hrun
    cases hrun
  | ok done =>
    obtain ⟨a, ctx₁⟩ := done
    rw [bind_of_ok hfirst] at hrun
    rw [bind_of_ok (hxy hfirst log')]
    exact hkl a hrun _

/-- Reporting failures does not change what is allowed. -/
theorem reporting (hxy : x.Allows y) (r r' : Reporting) :
    (x.reporting r).Allows (y.reporting r') := by
  intro ctx a ctx' log hrun log'
  cases hfirst : (x ctx log).1 with
  | error f =>
    obtain ⟨g, hg, -⟩ := reporting_of_error hfirst r
    rw [hg] at hrun
    cases hrun
  | ok done =>
    obtain ⟨a', ctx₁⟩ := done
    rw [reporting_of_ok hfirst] at hrun
    cases hrun
    exact reporting_of_ok (hxy hfirst log') r'

/-- A failure that is looked at but not made up for. -/
theorem attempt (hxy : x.Allows y) {k l : Except Failure α → EvalM β}
    (hok : ∀ a, (k (.ok a)).Allows (l (.ok a)))
    (herror : ∀ f, ∃ g, k (.error f) = EvalM.throw g) :
    (x.attempt >>= k).Allows (y.attempt >>= l) := by
  intro ctx b ctx' log hrun log'
  cases hfirst : (x ctx log).1 with
  | error f =>
    obtain ⟨g, hg⟩ := herror f
    rw [bind_apply, attempt_of_error hfirst] at hrun
    simp only [hg] at hrun
    cases hrun
  | ok done =>
    obtain ⟨a, ctx₁⟩ := done
    rw [bind_apply, attempt_of_ok hfirst] at hrun
    rw [bind_apply, attempt_of_ok (hxy hfirst log')]
    exact hok a hrun _

end EvalM.Allows

/-- A stricter and a more permissive run, which ask for no sizes and quote no code, as an
alignment. -/
def permissive : Alignment Bool where
  Aligned x := (x false).Allows (x true)
  Alike f := ∀ b b', (f b).cause.isFatal = (f b').cause.isFatal
  Admits env _ _ := env.KeepsTo Expr.Unmeasured
  Meets := Expr.Unmeasured
  Iterates := True
  isFatal_eq h := h
  alike_moreTelling {f g} hf hg b b' := by
    rw [EvalM.isFatal_moreTelling, EvalM.isFatal_moreTelling, hf b b', hg b b']
  alike_of _ _ _ := rfl
  admits_bindValues h name kind bindings _ := h.bindValues name kind bindings
  iterates _ := trivial
  admits_keepsTo h := h
  pure a := .of_ok (fun _ => a) id id
  throw {_ f} _ := .throw (f false) _
  bind hx hk := .bind hx hk
  modifyLog {g} _ := .of_ok (fun _ => ()) id g

/-- Steps of which one is stricter may hand failures over as diagnostics. -/
theorem permissive_reports : permissive.Reports :=
  fun _ hx => hx.reporting _ _

/-- The mode, and whether the functions of the extension are built in, in a stricter and a more
permissive run. -/
structure Leniency where
  mode : Bool → Mode
  extended : Bool → Bool
  mode_mono : (mode false).readsVariables = true → (mode true).readsVariables = true
  extended_mono : extended false = true → extended true = true

namespace Leniency

variable (l : Leniency)

def evaluator (ev : Evaluator) (b : Bool) : Evaluator := ev.withExtension (l.extended b)

/-- The extension is enabled as the leniency says. -/
theorem metamodelica_evaluator (ev : Evaluator) (b : Bool) :
    (l.evaluator ev b).config.flags.metamodelica = l.extended b := rfl

/-- Requests in the mode of each run. -/
def view (b : Bool) : View := .inMode fun _ => l.mode b

/-- The steps of each run. -/
def steps (ev : Evaluator) (n : Nat) (b : Bool) : Steps := (l.evaluator ev b).steps n

/-- The functions that are built in for the stricter run are so for the other. -/
theorem rule?_eq {name : String} {rule : Builtin.Rule}
    (h : Builtin.rule? name (l.extended false) = some rule) :
    Builtin.rule? name (l.extended true) = some rule := by
  unfold Builtin.rule? at h ⊢
  cases hbase : Builtin.baseTable.lookup name with
  | some base =>
    rw [hbase] at h
    exact h
  | none =>
    simp only [hbase, Option.ite_none_right_eq_some] at h ⊢
    exact ⟨l.extended_mono h.1, h.2⟩

/-- What may be read in the stricter run may be read in both. -/
theorem mayRead_of_strict {env : Env} {r : Bool → Reporting} {found : Found}
    {variability : Variability}
    (hstrict : Request.mayRead ⟨env, l.mode false, r false⟩ found variability = true) (b : Bool) :
    Request.mayRead ⟨env, l.mode b, r b⟩ found variability = true := by
  cases b with
  | false => exact hstrict
  | true =>
    have hmode := l.mode_mono
    revert hstrict
    simp only [Request.mayRead, Bool.or_eq_true]
    grind

end Leniency

/-- The executor follows a plan that does not depend on the mode, and neither it nor the simplifier
brings in an expression in which sizes are asked for or code is quoted. -/
structure Evaluator.BringsUnmeasured (ev : Evaluator) (plan : Plan) : Prop where
  executes : ev.Executes plan
  plan_mode : ∀ functions env call values mode mode',
    plan functions env call values mode = plan functions env call values mode'
  bodies : ∀ functions env call values mode,
    (plan functions env call values mode).KeepsTo Expr.Unmeasured
  simplify : ∀ {e : Expr}, e.Unmeasured → (ev.simplify e).Unmeasured

section

variable (l : Leniency) {ev : Evaluator} {s : Bool → Steps} {env : Env} {mode : Mode}
  {r : Bool → Reporting}

/-! ## Variables -/

section

variable (hr : permissive.Admits env mode r)
  (h : permissive.Evaluates (l.evaluator ev false) (fun _ => ev.config.recursionLimit)
    fun b => (s b).via (l.view b))

include hr h

/-- If a variable without a binding may be read in the stricter run, both give it the default of its
type or fail alike. -/
theorem unbound_permissive (found : Found) (name : String) (ty : Ty) :
    permissive.Aligned fun b =>
      (s b).unbound (l.evaluator ev false) ⟨env, l.mode b, r b⟩ found name ty := by
  by_cases hstrict : (!found.declared.variability.isEvaluable
      && !(l.mode false).readsVariables) = true
  · have hfails : (s false).unbound (l.evaluator ev false) ⟨env, l.mode false, r false⟩ found
        name ty = EvalM.fail .notConstant := if_pos hstrict
    simp only [permissive, hfails]
    exact .throw _ _
  · have hr' : permissive.Admits env (l.mode false) r := hr
    refine h.unbound_of_views hr' (fun _ => found) (fun _ => rfl) (fun _ => rfl) (fun b => ?_) ?_
    · cases b with
      | false => rfl
      | true =>
        have hmode := l.mode_mono
        revert hstrict hmode
        show _ → _ → (!_ && !(l.mode true).readsVariables) = _
        cases found.declared.variability.isEvaluable <;> cases (l.mode false).readsVariables
          <;> simp
    · have hordinary : ∀ m : Mode, (Failure.of
          (if m.reportsUnbound then .unbound name else .notConstant)).cause.isFatal = false :=
        fun m => by cases m <;> rfl
      exact fun b b' => (hordinary _).trans (hordinary _).symm

/-- A variable that may be read in the stricter run is read in the same way in the other. -/
theorem readVariable_permissive (name : String) (ty : Ty) :
    permissive.Aligned fun b =>
      (s b).readVariable (l.evaluator ev false) ((l.view b).see ⟨env, mode, r b⟩) name ty := by
  simp only [Steps.readVariable, View.see, Leniency.view, View.inMode, id_eq]
  cases hfound : env.lookup name with
  | none => exact permissive.fail _
  | some found =>
    simp only
    cases hbinding : found.declared.binding with
    | value v => exact permissive.pure v
    | unbound => exact unbound_permissive l hr h found name ty
    | expression e variability cached =>
      by_cases hstrict : Request.mayRead ⟨env, l.mode false, r false⟩ found variability = true
      · simp only [l.mayRead_of_strict hstrict]
        cases cached with
        | some v => exact permissive.pure v
        | none => exact h.force hr hfound hbinding
      · simp only [permissive, hstrict]
        exact .throw _ _

/-- Evaluation by a rule does in the more permissive run what it does in the stricter one. -/
theorem rule_permissive {plan : Plan} (hbrings : ev.BringsUnmeasured plan) {e : Expr}
    (he : e.Unmeasured) :
    permissive.Aligned fun b => (s b).rule (l.evaluator ev b) ⟨env, l.mode b, r b⟩ e := by
  have hcommon : permissive.Aligned fun b =>
      (s b).rule (l.evaluator ev false) ⟨env, l.mode b, r b⟩ e :=
    h.rule_of_views_unquoted hr hbrings.executes
      (fun b functions call values => hbrings.plan_mode functions env call values (l.mode b) mode)
      he he.not_code fun _ _ _ _ => readVariable_permissive l hr h _ _
  cases e with
  | call path args ty builtin impure =>
    simp only [Steps.rule, Steps.call_eq] at hcommon ⊢
    cases hsmooth : Steps.smoothZero? path args builtin with
    | some e =>
      simp only [hsmooth] at hcommon
      exact hcommon
    | none =>
      simp only [hsmooth] at hcommon
      cases builtin with
      | false => exact hcommon
      | true =>
        simp only [if_true, l.metamodelica_evaluator] at hcommon ⊢
        cases hrule : Builtin.rule? path.last (l.extended false) with
        | none =>
          simp only [permissive, hrule]
          exact .throw _ _
        | some rule =>
          have hboth : ∀ b, Builtin.rule? path.last (l.extended b) = some rule := by
            intro b
            cases b with
            | false => exact hrule
            | true => exact l.rule?_eq hrule
          have hsame : ∀ b, (s b).applyRule (l.evaluator ev b) ⟨env, l.mode b, r b⟩ args rule
              = (s b).applyRule (l.evaluator ev false) ⟨env, l.mode b, r b⟩ args rule :=
            fun b => Steps.applyRule_congr hrule rfl
          simp only [hboth, Steps.callBuiltin, hsame] at hcommon ⊢
          exact hcommon
  | _ => exact hcommon

end

/-! ## Calls of functions of the model -/

/-- A call fails if its executor does, so that it is not made up for. -/
theorem callFunction_permissive {plan : Plan} (hbrings : ev.BringsUnmeasured plan)
    {s : Bool → Steps}
    (heval : ∀ {env} {r : Bool → Reporting}, permissive.Admits env mode r → ∀ k {e}, e.Unmeasured →
      permissive.Aligned fun b => (s b).evalAfter k ⟨env, mode, r b⟩ e)
    (hr : permissive.Admits env mode r) {call : Expr} {path : Path} {args : List Expr}
    (hargs : ∀ e ∈ args, e.Unmeasured) :
    permissive.Aligned fun b => (s b).callFunction ev ⟨env, mode, r b⟩ call path args := by
  have hdelegate : ∀ values, permissive.Aligned fun b =>
      (s b).delegate (ev.withLimit ev.config.recursionLimit) ⟨env, mode, r b⟩ call values :=
    fun values => permissive.delegate_of_executes (fun _ _ _ => rfl) (fun _ => hr)
      permissive_reports (.of_ok (·.functions) id id) heval hbrings.executes
      (hbrings.bodies · env call values mode) r
  refine permissive.bind (Alignment.arguments (heval hr) hr permissive_reports hargs)
    fun values => ?_
  simp only
  cases Builtin.External.function? env path with
  | none => exact hdelegate values
  | some f =>
    refine permissive.bind (permissive.count fun _ => rfl) fun _ => ?_
    cases f values with
    | ok v => exact permissive.pure v
    | error known =>
      refine EvalM.Allows.attempt (hdelegate values) permissive.pure fun f => ?_
      by_cases hfatal : f.cause.isFatal = true
      · exact ⟨_, if_pos hfatal⟩
      · exact ⟨_, if_neg hfatal⟩

/-! ## Evaluation -/

/-- With any number of levels left the steps of the more permissive run do what those of the
stricter one do. -/
theorem evaluates_permissive {plan : Plan} (hbrings : ev.BringsUnmeasured plan) (n : Nat) :
    permissive.Evaluates (l.evaluator ev false) (fun _ => ev.config.recursionLimit)
      fun b => (l.steps ev n b).via (l.view b) := by
  have hsteps : ∀ {s : Bool → Steps},
      (∀ {env mode} {r : Bool → Reporting}, permissive.Admits env mode r → ∀ k {e}, e.Unmeasured →
        permissive.Aligned fun b => (s b).evalAfter k ⟨env, mode, r b⟩ e) →
      permissive.Evaluates (l.evaluator ev false) (fun _ => ev.config.recursionLimit) s := by
    intro s heval
    refine ⟨Expr.Unmeasured.inside, hbrings.simplify, heval, ?_, ?_, ?_⟩
    · intro env mode r hr name found e variability hfound hbinding
      obtain ⟨he, hfoundEnv⟩ := hr.lookup hfound hbinding
      have hadmits : permissive.Admits found.env mode r := hfoundEnv
      exact Alignment.force_of_eval (A := permissive) (.of_ok id id id)
        (fun g => .of_ok (fun _ => ()) g id) (heval hadmits 0 he)
    · intro env mode r hr whole e hwhole hmeasured
      rw [hwhole.measured] at hmeasured
      cases hmeasured
    · intro env mode r hr path args ty hcall
      exact callFunction_permissive hbrings heval hr hcall.inside
  induction n with
  | zero =>
    exact hsteps fun _ _ _ _ => .bind (.of_ok (fun _ => ()) id _) fun _ => .throw _ _
  | succ n ih =>
    refine hsteps fun {env mode r} hr k e he => ?_
    cases k with
    | zero =>
      refine permissive.bind (permissive.count fun _ => rfl) fun _ => ?_
      exact rule_permissive l hr ih hbrings he
    | succ k => exact ih.evalAfter hr k he

end

/-- What is evaluated in the stricter run is evaluated in the more permissive one. -/
theorem Leniency.allows_evaluate (l : Leniency) {ev : Evaluator} {plan : Plan}
    (hbrings : ev.BringsUnmeasured plan) {env : Env} (henv : env.KeepsTo Expr.Unmeasured) {e : Expr}
    (he : e.Unmeasured) (r r' : Reporting) :
    ((l.evaluator ev false).evaluate ⟨env, l.mode false, r⟩ e).Allows
      ((l.evaluator ev true).evaluate ⟨env, l.mode true, r'⟩ e) := by
  have hsteps := evaluates_permissive l hbrings (ev.config.recursionLimit + 1)
  have hadmits : permissive.Admits env .explicit fun b => bif b then r' else r := henv
  exact EvalM.Allows.reporting (hsteps.eval hadmits he) r r'

/-- Success is stable under a more permissive configuration. Where no sizes are asked for and no code
is quoted, in the expression and in the bindings, defaults and bodies that evaluation meets, what
succeeds in explicit mode succeeds in implicit mode, and what succeeds without the functions of the
extension succeeds with them: each time with the same value and the same context. -/
theorem success_stable (ev : Evaluator) {plan : Plan} (hbrings : ev.BringsUnmeasured plan)
    {env : Env} (henv : env.KeepsTo Expr.Unmeasured) {e : Expr} (he : e.Unmeasured)
    (r : Reporting) (ctx : Context) (log : Log) (v : Value) (ctx' : Context) :
    ((ev.evaluate ⟨env, .explicit, r⟩ e ctx log).1 = .ok (v, ctx') →
        (ev.evaluate ⟨env, .implicit, r⟩ e ctx log).1 = .ok (v, ctx'))
      ∧ ∀ mode,
        ((ev.withExtension false).evaluate ⟨env, mode, r⟩ e ctx log).1 = .ok (v, ctx') →
        ((ev.withExtension true).evaluate ⟨env, mode, r⟩ e ctx log).1 = .ok (v, ctx') := by
  constructor
  · intro h
    let l : Leniency := ⟨fun b => bif b then .implicit else .explicit,
      fun _ => ev.config.flags.metamodelica, nofun, id⟩
    exact l.allows_evaluate hbrings henv he r r h log
  · intro mode h
    let l : Leniency := ⟨fun _ => mode, id, id, nofun⟩
    exact l.allows_evaluate hbrings henv he r r h log

/-- An expression with nothing inside is unmeasured if it asks for no size and is no code. -/
theorem Expr.unmeasured_of_inside {e : Expr} (hmeasured : e.measured? = none)
    (hcode : ∀ fragment, e ≠ .code fragment) (h : e.inside = []) : e.Unmeasured :=
  .intro hmeasured hcode (h ▸ nofun)

/-- An operator on unmeasured operands is unmeasured. -/
theorem Expr.Unmeasured.binary {x y : Expr} (hx : x.Unmeasured) (hy : y.Unmeasured)
    (op : BinaryOp) : (Expr.binary x op y).Unmeasured :=
  .intro rfl nofun (List.forall_mem_cons.mpr ⟨hx, List.forall_mem_singleton.mpr hy⟩)

/-- Adding `p` by a plan brings only unmeasured expressions. -/
theorem Setting.bringsUnmeasured_addsP :
    Setting.addsP.evaluator.BringsUnmeasured fun _ _ _ values _ => Execution.addsP values := by
  have hname : ∀ name, (Expr.reference [.mk name []] .unknown).Unmeasured :=
    fun _ => Expr.unmeasured_of_inside rfl nofun rfl
  refine ⟨fun _ _ _ _ _ => rfl, fun _ _ _ _ _ _ => rfl, fun _ _ _ values _ => ?_, id⟩
  unfold Execution.addsP
  split
  · exact .body _ _ _ ((hname "x").binary (hname "p") _) fun v => .finish _
  · exact .finish _

/-- The call `f(3)` gives 5 and leaves the value of `p` in implicit mode, and with the functions of
the extension, since it does in explicit mode and without them. -/
theorem success_stable_addsP :
    (Setting.addsP.evaluator.evaluate ⟨Setting.addsP.env, .implicit, .silent⟩
        (.call (.ident "f") [.integer 3] .unknown false false) .empty (.start .unlimited)).1
        = .ok (.integer 5, ⟨[("p", .integer 2)], .empty⟩)
      ∧ ((Setting.addsP.evaluator.withExtension true).evaluate
          ⟨Setting.addsP.env, .explicit, .silent⟩
          (.call (.ident "f") [.integer 3] .unknown false false) .empty (.start .unlimited)).1
        = .ok (.integer 5, ⟨[("p", .integer 2)], .empty⟩) := by
  have hinteger : ∀ n, (Expr.integer n).Unmeasured :=
    fun _ => Expr.unmeasured_of_inside rfl nofun rfl
  have henv : Setting.addsP.env.KeepsTo Expr.Unmeasured := by
    intro frame hframe
    obtain rfl := List.mem_singleton.mp hframe
    refine ⟨fun hmem hbound => ?_, nofun⟩
    cases List.mem_singleton.mp hmem
    cases hbound
    exact (hinteger 1).binary (hinteger 1) _
  have hcall : (Expr.call (.ident "f") [.integer 3] .unknown false false).Unmeasured :=
    .intro rfl nofun (List.forall_mem_singleton.mpr (hinteger 3))
  have hstable := success_stable _ Setting.bringsUnmeasured_addsP henv hcall .silent .empty
    (.start .unlimited) (.integer 5) ⟨[("p", .integer 2)], .empty⟩
  exact ⟨hstable.1 rfl, hstable.2 .explicit rfl⟩

end ModelicaFold
