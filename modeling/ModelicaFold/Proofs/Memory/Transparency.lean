import ModelicaFold.Proofs.Memory.Agreement
import ModelicaFold.Proofs.Runs.Entry

/-!
# Remembered values never change a result

Two runs of one evaluation with the same number of levels, one from a context that remembers less
than the other: where the first has to evaluate a binding, the second may find its value. Both
values are that of fresh evaluation, and what the first run remembers on the way the second has
remembered already (`Setting.force_remembering`). So the run from a context that earlier evaluations
have left gives what the run from a context that remembers nothing gives
(`Setting.remembered_transparent`), unless the limit refuses a step of the latter.
-/

namespace ModelicaFold

open Filter

namespace Setting

/-- The run from a context that remembers more follows the run from one that remembers less. -/
def remembering (σ : Setting) : Following Unit where
  almostAll := pure ()
  neBot := pure_neBot
  Admits := σ.Admits
  Leads := σ.Faithful
  Follows C D := C.Within D ∧ σ.Faithful D
  Grows C _ C' D' := C.Within C' ∧ C'.Within D' ∧ σ.Faithful D'
  admits_bindValues := Admits.bindValues
  functions_eq h := h.1.functions.symm
  refl h := ⟨.refl _, h⟩
  trans h h' := ⟨h.1.trans h'.1, h'.2⟩
  follows h := h.2

variable {σ : Setting}

/-! ## Values that are remembered on one side only -/

section

variable {s : Steps} (hs : σ.Evaluates s) {env : Env} (henv : σ.env.Extends env) {C D : Context}
  (hC : σ.Faithful C) (hwithin : C.Within D) {r : Reporting} {e : Expr} {v : Value}
  (hv : σ.HasValue D env e v) {log : Log}

include hs henv hC hwithin hv

/-- Only the limit keeps an expression that has a value from being evaluated. -/
theorem Evaluates.isFatal_of_hasValue {f : Failure}
    (hrun : (s.eval ⟨env, σ.mode, r⟩ e C log).1 = .error f) : f.cause.isFatal = true := by
  have hvalue := hv (fun _ => .silent) fun _ => log
  rw [← hwithin.functions] at hvalue
  rcases (hs.agreesFrom henv hC (fun _ => .silent) fun _ => log).error hrun with hfatal | hfails
  · exact hfatal
  · obtain ⟨n, ⟨g, hg, -⟩, found, hfound, -⟩ := (hfails.and hvalue).exists
    exact absurd (hg.symm.trans hfound) nofun

/-- An evaluation of an expression gives its value, and remembers only what is remembered where
this is the value. -/
theorem Evaluates.within_of_hasValue {w : Value} {C' : Context}
    (hrun : (s.eval ⟨env, σ.mode, r⟩ e C log).1 = .ok (w, C')) : w = v ∧ C'.Within D := by
  have hvalue := hv (fun _ => .silent) fun _ => log
  rw [← hwithin.functions] at hvalue
  have hfresh := ((hs.agreesFrom henv hC (fun _ => .silent) fun _ => log).ok hrun).2
  obtain ⟨n, ⟨F', hF', hgrow⟩, found, hfound, hfoundD⟩ := (hfresh.and hvalue).exists
  cases hF'.symm.trans hfound
  exact ⟨rfl, hgrow.new.trans (Context.merge_within hwithin hfoundD)⟩

end

/-! ## Forced bindings -/

section

variable {s : Steps} (hs : σ.Evaluates s)
  (hboth : ∀ ⦃env : Env⦄, σ.env.Extends env → ∀ (r : Option Unit → Reporting) (e : Expr),
    σ.remembering.Agrees fun i => s.eval ⟨env, σ.mode, r i⟩ e)
  {env : Env} (henv : σ.env.Extends env) (r : Option Unit → Reporting) {name : String}
  {found : Found} {e : Expr} {variability : Variability} (hfound : env.lookup name = some found)
  (hbinding : found.declared.binding = .expression e variability none)

include hs henv hfound hbinding

/-- Where less is remembered the binding has been evaluated; where more is remembered it has the
same value, whether this is known already or not. -/
theorem force_follows (hkeys : σ.env.KeysDistinct) (hiterator : found.isIterator = false)
    (hrefers : e.refersTo name = false) {C C' D D' : Context} (hC : σ.Faithful C)
    (hD : σ.remembering.Follows C D) {r r' : Reporting} {log log' : Log} {v : Value}
    (hrun : (s.eval ⟨found.env, σ.mode, r⟩ e C log).1 = .ok (v, C'))
    (hrun' : (s.eval ⟨found.env, σ.mode, r'⟩ e D log').1 = .ok (v, D'))
    (hD' : σ.remembering.Follows C' D') :
    ∃ D'' : Context, (s.force ⟨env, σ.mode, r'⟩ found name e D log').1 = .ok (v, D'')
      ∧ σ.remembering.Grows C D (C'.remember (found.env.key name) v) D'' := by
  have henv' := henv.found hfound hbinding
  obtain ⟨hdecl, hkey⟩ := henv.declared hfound hbinding hiterator
  obtain ⟨hwithin, hfaithful⟩ := hD
  obtain ⟨hwithin', hfaithful'⟩ := hD'
  obtain ⟨-, hCC', hv⟩ := hs.hasValue henv' hC hrun
  have hgrows := hCC'.trans (C'.within_remember (found.env.key name) v)
  cases hknown : D.constant? (Context.key found.scope name) with
  | some w =>
    obtain ⟨-, hw⟩ := hfaithful hdecl (hkey ▸ hknown)
    obtain ⟨rfl, hnew⟩ := hs.within_of_hasValue henv' hC hwithin hw hrun
    exact ⟨D, Steps.force_known hiterator hknown, hgrows,
      Context.remember_within hnew (hkey ▸ hknown), hfaithful⟩
  | none =>
    have hv' := hv.mono hwithin'
    refine ⟨_, Steps.force_of_ok hiterator hknown hrefers hrun', hgrows, ?_, ?_⟩
    · rw [hkey]
      refine Context.remember_within (hwithin'.trans (D'.within_remember _ _)) ?_
      exact Context.constant?_remember_self fun w => hfaithful'.constant?_eq hdecl hv'
    · rw [hkey]
      exact hfaithful'.remember hkeys hdecl hrefers hv'

include hboth

/-- A binding that is not remembered where less is remembered. -/
theorem force_new_remembering (hkeys : σ.env.KeysDistinct) (hiterator : found.isIterator = false)
    {C : Context} (hC : σ.Faithful C)
    (hnone : C.constant? (Context.key found.scope name) = none) {D : Unit → Context}
    (hD : ∀ᶠ j in σ.remembering.almostAll, σ.remembering.Follows C (D j)) (log : Log)
    (logs : Unit → Log) :
    σ.remembering.AgreesFrom (fun i => s.force ⟨env, σ.mode, r i⟩ found name e) C log D logs := by
  have henv' := henv.found hfound hbinding
  obtain ⟨hdecl, hkey⟩ := henv.declared hfound hbinding hiterator
  cases hrefers : e.refersTo name with
  | true =>
    refine .of_error (Steps.force_self hiterator hnone hrefers) (.inr ?_)
    filter_upwards [hD] with j ⟨_, hfaithful⟩
    cases hknown : (D j).constant? (Context.key found.scope name) with
    | some v =>
      -- a faithful context remembers no value of a binding in which the variable itself occurs
      obtain ⟨hother, -⟩ := hfaithful hdecl (hkey ▸ hknown)
      rw [hrefers] at hother
      cases hother
    | none => exact ⟨_, Steps.force_self hiterator hknown hrefers, rfl⟩
  | false =>
    have heval := hboth henv' r e C log D logs hC hD
    cases hrun : (s.eval ⟨found.env, σ.mode, r none⟩ e C log).1 with
    | error f =>
      refine .of_error (Steps.force_of_error hiterator hnone hrefers hrun) ?_
      by_cases hfatal : f.cause.isFatal = true
      · exact .inl hfatal
      refine .inr ?_
      filter_upwards [hD, (heval.error hrun).resolve_left hfatal] with
        j ⟨hwithin, hfaithful⟩ ⟨g, hg, hcause⟩
      cases hknown : (D j).constant? (Context.key found.scope name) with
      | some v =>
        obtain ⟨-, hv⟩ := hfaithful hdecl (hkey ▸ hknown)
        exact absurd (hs.isFatal_of_hasValue henv' hC hwithin hv hrun) hfatal
      | none => exact ⟨g, Steps.force_of_error hiterator hknown hrefers hg, hcause⟩
    | ok done =>
      obtain ⟨v, C'⟩ := done
      obtain ⟨hC', -, hv⟩ := hs.hasValue henv' hC hrun
      have hforce : (s.force ⟨env, σ.mode, r none⟩ found name e C log).1
          = .ok (v, C'.remember (found.env.key name) v) := by
        rw [← hkey]
        exact Steps.force_of_ok hiterator hnone hrefers hrun
      refine .of_ok hforce (hC'.remember hkeys hdecl hrefers hv) ?_
      filter_upwards [hD, (heval.ok hrun).2] with j hj ⟨D', hrun', hgrows⟩
      exact force_follows hs henv hfound hbinding hkeys hiterator hrefers hC hj hrun hrun'
        (σ.remembering.follows hgrows)

/-- A binding is forced to the same value whether more or less is remembered. -/
theorem force_remembering (hkeys : σ.env.KeysDistinct) :
    σ.remembering.Agrees fun i => s.force ⟨env, σ.mode, r i⟩ found name e := by
  cases hiterator : found.isIterator with
  | true =>
    simp only [Steps.force_iterator hiterator]
    exact σ.remembering.alignment.ite (fun _ => σ.remembering.alignment.fail _) fun _ =>
      hboth (henv.found hfound hbinding) r e
  | false =>
    intro C log D logs hC hD
    cases hknown : C.constant? (Context.key found.scope name) with
    | some v =>
      refine .of_ok (Steps.force_known hiterator hknown) hC ?_
      filter_upwards [hD] with j hj
      exact ⟨D j, Steps.force_known hiterator (hj.1.constants hknown), σ.remembering.refl hj⟩
    | none =>
      exact force_new_remembering hs hboth henv r hfound hbinding hkeys hiterator hC hknown hD
        log logs

end

/-! ## Every level -/

/-- With any number of levels left every step does the same whether more or less is remembered. -/
theorem stepwise_remembering (hkeys : σ.env.KeysDistinct) (hcall : σ.evaluator.ExecutesBodies)
    (n : Nat) :
    σ.remembering.alignment.Stepwise σ.evaluator σ.limit fun _ => σ.evaluator.steps n := by
  induction n with
  | zero =>
    refine σ.remembering.stepwise hcall (fun _ _ _ _ => .refused rfl) (fun _ _ _ => .refused rfl) ?_
    rintro env mode ⟨henv, rfl⟩ r name found e variability hfound hbinding
    exact force_remembering (evaluates_steps hkeys hcall 0) (fun _ _ _ _ => .refused rfl) henv r
      hfound hbinding hkeys
  | succ n ih =>
    have heval : ∀ {env mode}, σ.remembering.Admits env mode → ∀ (r : Option Unit → Reporting) k e,
        σ.remembering.Agrees fun i => (σ.evaluator.steps (n + 1)).evalAfter k ⟨env, mode, r i⟩ e :=
      fun hr r k e => ih.evalAfter_succ hr k trivial
    refine σ.remembering.stepwise hcall heval (fun hr r code => ih.splice_succ hr code) ?_
    rintro env mode ⟨henv, rfl⟩ r name found e variability hfound hbinding
    exact force_remembering (evaluates_steps hkeys hcall (n + 1))
      (fun _ henv r e => heval ⟨henv, rfl⟩ r 0 e) henv r hfound hbinding hkeys

/-! ## Runs of evaluations -/

/-- An entry point is asked in the environment and mode of a setting, with any reporting. -/
structure Asks (σ : Setting) (entry : Entry) : Prop where
  env_eq : entry.request.env = σ.env
  mode_eq : entry.request.mode = σ.mode

/-- The contexts in which a run of evaluations ends that starts with nothing remembered. Each
evaluation starts from the context that the one before it has returned; one that fails returns
none. -/
inductive Reached (σ : Setting) (functions : FunctionTable) : Context → Prop where
  | start : Reached σ functions (.ofFunctions functions)
  | next {C C' : Context} (h : Reached σ functions C) {entry : Entry} (hentry : σ.Asks entry)
      {log log' : Log} {result : entry.Result}
      (hrun : entry.run σ.evaluator C log = (.ok (result, C'), log')) : Reached σ functions C'

/-- An entry point does the same whether more or less is remembered. -/
theorem run_remembering (hkeys : σ.env.KeysDistinct) (hcall : σ.evaluator.ExecutesBodies)
    {entry : Entry} (hentry : σ.Asks entry) :
    σ.remembering.Agrees fun _ => entry.run σ.evaluator := by
  have hsteps : σ.remembering.alignment.Stepwise σ.evaluator σ.limit
      fun i => (σ.evaluator.withLimit (σ.limit i)).start :=
    stepwise_remembering hkeys hcall (σ.evaluator.config.recursionLimit + 1)
  have hextends : σ.env.Extends entry.request.env := hentry.env_eq ▸ .refl σ.env
  exact hsteps.run_of_rescues σ.remembering.alignment_rescues σ.remembering.alignment_reports
    (fun _ _ => trivial) ⟨hextends, hentry.mode_eq⟩

/-- An evaluation from a faithful context leaves one. -/
theorem Faithful.run (hkeys : σ.env.KeysDistinct) (hcall : σ.evaluator.ExecutesBodies)
    {C C' : Context} (hC : σ.Faithful C) {entry : Entry} (hentry : σ.Asks entry) {log : Log}
    {result : entry.Result} (hrun : (entry.run σ.evaluator C log).1 = .ok (result, C')) :
    σ.Faithful C' ∧ C.Within C' := by
  have hagrees := run_remembering hkeys hcall hentry C log (fun _ => C) (fun _ => log) hC
    (.of_forall fun _ => ⟨.refl C, hC⟩)
  obtain ⟨hC', hothers⟩ := hagrees.ok hrun
  obtain ⟨_, _, _, hgrows⟩ := hothers.exists
  exact ⟨hC', hgrows.1⟩

/-- An evaluation from a faithful context follows the one that starts with nothing remembered. -/
theorem Faithful.followsStart (hkeys : σ.env.KeysDistinct) (hcall : σ.evaluator.ExecutesBodies)
    {C : Context} (hC : σ.Faithful C) {entry : Entry} (hentry : σ.Asks entry) (log log' : Log) :
    σ.remembering.AgreesFrom (fun _ => entry.run σ.evaluator) (.ofFunctions C.functions) log
      (fun _ => C) fun _ => log' :=
  run_remembering hkeys hcall hentry _ log _ _ (faithful_ofFunctions C.functions)
    (.of_forall fun _ => ⟨.ofFunctions C, hC⟩)

/-- What a run of evaluations remembers is what fresh evaluation gives. -/
theorem Reached.faithful (hkeys : σ.env.KeysDistinct) (hcall : σ.evaluator.ExecutesBodies)
    {functions : FunctionTable} {C : Context} (h : σ.Reached functions C) :
    σ.Faithful C ∧ C.functions = functions := by
  induction h with
  | start => exact ⟨faithful_ofFunctions functions, rfl⟩
  | @next C C' _ entry hentry log log' result hrun ih =>
    obtain ⟨hC', hwithin⟩ := ih.1.run hkeys hcall hentry (congrArg Prod.fst hrun)
    exact ⟨hC', hwithin.functions.symm.trans ih.2⟩

end Setting

/-- The value that a step gives from a context, or the cause of its failure. -/
def EvalM.answer {α : Type} (x : EvalM α) (ctx : Context) (log : Log) : Except Cause α :=
  match (x ctx log).1 with
  | .ok (a, _) => .ok a
  | .error f => .error f.cause

/-- A step that gives a value answers with it. -/
theorem EvalM.answer_of_ok {α : Type} {x : EvalM α} {ctx ctx' : Context} {log : Log} {a : α}
    (h : (x ctx log).1 = .ok (a, ctx')) : x.answer ctx log = .ok a := by
  rw [answer, h]

/-- A step that fails answers with the cause. -/
theorem EvalM.answer_of_error {α : Type} {x : EvalM α} {ctx : Context} {log : Log} {f : Failure}
    (h : (x ctx log).1 = .error f) : x.answer ctx log = .error f.cause := by
  rw [answer, h]

/-- Only the recursion limit is a fatal cause. -/
theorem Cause.eq_recursionLimit_of_isFatal {c : Cause} (h : c.isFatal = true) :
    ∃ limit, c = .recursionLimit limit := by
  cases c with
  | recursionLimit limit => exact ⟨limit, rfl⟩
  | _ => cases h

/-- Remembered values never change a result: from the context in which a run of evaluations ends,
an evaluation in the same environment and mode gives the value, or fails for the cause, that it
does from a context that remembers nothing, unless the limit refuses a step of the latter. -/
theorem Setting.remembered_transparent (σ : Setting) (hkeys : σ.env.KeysDistinct)
    (hcall : σ.evaluator.ExecutesBodies) {functions : FunctionTable} {C : Context}
    (hC : σ.Reached functions C) {entry : Entry} (hentry : σ.Asks entry) (log log' : Log)
    (hlimit : ∀ limit, (entry.run σ.evaluator).answer (.ofFunctions functions) log
      ≠ .error (.recursionLimit limit)) :
    (entry.run σ.evaluator).answer C log'
      = (entry.run σ.evaluator).answer (.ofFunctions functions) log := by
  obtain ⟨hfaithful, rfl⟩ := hC.faithful hkeys hcall
  have hagrees := hfaithful.followsStart hkeys hcall hentry log log'
  cases hrun : (entry.run σ.evaluator (.ofFunctions C.functions) log).1 with
  | ok done =>
    obtain ⟨result, C'⟩ := done
    obtain ⟨-, hothers⟩ := hagrees.ok hrun
    obtain ⟨_, _, hrun', -⟩ := hothers.exists
    rw [EvalM.answer_of_ok hrun, EvalM.answer_of_ok hrun']
  | error f =>
    rw [EvalM.answer_of_error hrun] at hlimit ⊢
    rcases hagrees.error hrun with hfatal | hothers
    · obtain ⟨limit, hf⟩ := Cause.eq_recursionLimit_of_isFatal hfatal
      exact absurd (congrArg Except.error hf) (hlimit limit)
    · obtain ⟨_, g, hrun', hcause⟩ := hothers.exists
      rw [EvalM.answer_of_error hrun', hcause]

/-- An executor of one function, which adds the variable `p` to its argument. -/
def Execution.addsP : List Value → Execution
  | [v] =>
    .body "f" [("x", .unknown, v)]
      (.binary (.reference [.mk "x" []] .unknown) (.arith .add .scalars)
        (.reference [.mk "p" []] .unknown))
      .silent fun v => .finish (.ok v)
  | _ => .finish (Cause.fail .notConstant)

/-- A variable `p` with the binding `1 + 1`, and a function that adds it to its argument. -/
def Setting.addsP : Setting where
  evaluator :=
    { Evaluator.alone ⟨8, .none⟩ with
      call := fun reenter env _ values mode =>
        EvalM.getFunctions >>= fun _ => (Execution.addsP values).run reenter env mode }
  env := Env.empty.define "p"
    ⟨.integer, .constant,
      .expression (.binary (.integer 1) (.arith .add .scalars) (.integer 1)) .constant none⟩
  mode := .explicit

/-- Evaluating an expression in the environment with the variable `p`. -/
def Entry.addsP (e : Expr) : Entry := .expression ⟨Setting.addsP.env, .explicit, .silent⟩ e

/-- After `p` has been evaluated the call `f(3)` still gives 5, although its body then finds the
value of `p`. -/
theorem Setting.remembered_transparent_addsP :
    Setting.addsP.Reached .empty ⟨[("p", .integer 2)], .empty⟩
      ∧ ((Entry.addsP (.call (.ident "f") [.integer 3] .unknown false false)).run
          Setting.addsP.evaluator).answer ⟨[("p", .integer 2)], .empty⟩ (.start .unlimited)
        = .ok (.integer 5) := by
  have hreached : Setting.addsP.Reached .empty ⟨[("p", .integer 2)], .empty⟩ := by
    have hrun : ∃ log, (Entry.addsP (.reference [.mk "p" []] .unknown)).run
        Setting.addsP.evaluator .empty (.start .unlimited)
          = (.ok (Value.integer 2, ⟨[("p", .integer 2)], .empty⟩), log) := ⟨_, rfl⟩
    obtain ⟨log, hrun⟩ := hrun
    exact .next .start ⟨rfl, rfl⟩ hrun
  refine ⟨hreached, ?_⟩
  have hkeys : Setting.addsP.env.KeysDistinct := Env.keysDistinct_of_outer_eq_nil rfl
  have hcall : Setting.addsP.evaluator.ExecutesBodies :=
    ⟨fun _ _ _ values _ => Execution.addsP values, fun _ _ _ _ _ => rfl⟩
  exact Setting.remembered_transparent Setting.addsP hkeys hcall hreached ⟨rfl, rfl⟩
    (.start .unlimited) _ fun limit h => by cases h

end ModelicaFold
