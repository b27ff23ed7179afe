import ModelicaFold.Proofs.Deferral.Calls

/-!
# Deferral is sound

A value that has no placeholder was found without the variables that are deferred: the expression
has the same value when they get theirs (`deferral_sound`). This holds unless an operation looks at
a placeholder without a need for its value, that is, unless wary evaluation ends early.

* Wary evaluation does the same as evaluation, or ends as at the recursion limit
  (`Evaluator.waryEvaluate_eq`). Both are steps of the same rules, and `limitAlignment` runs them
  side by side.
* Wary evaluation leads evaluation where values are filled in (`Evaluator.leads_waryEvaluate`), by
  induction on the number of levels that are left.
* Expressions that demand nothing of their operands never end it early
  (`Evaluator.waryEvaluate_of_undemanding`).

At the end there is an expression with a deferred parameter that does not matter
(`deferral_sound_second`), and one that answers for the placeholder what it would not answer for the
value (`isMember_overlooks_placeholder`).
-/

namespace ModelicaFold

open EvalM

/-! ## Wary evaluation is evaluation that may end early -/

namespace SameUnlessRefused

variable {limit : Nat} {α : Type} {x y : Bool → EvalM α}

/-- Steps that are equal to those of a comparison are compared as these are. -/
theorem of_eq (h : SameUnlessRefused limit y) (htrue : x true = y true)
    (hfalse : x false = y false) : SameUnlessRefused limit x := fun ctx log => by
  rw [htrue, hfalse]
  exact h ctx log

/-- To insist on something ends a run or changes nothing. -/
theorem insist {x y : Bool → EvalM Value} {ev : Evaluator} {P : Value → Prop}
    (h : SameUnlessRefused ev.config.recursionLimit y) (htrue : x true = y true)
    (hfalse : x false = ev.insist P (y false)) : SameUnlessRefused ev.config.recursionLimit x := by
  intro ctx log
  rw [htrue, hfalse]
  rcases ev.insist_apply P (y false) ctx log with ⟨heq, -, -⟩ | hlimit
  · rw [heq]
    exact h ctx log
  · exact .inr hlimit

end SameUnlessRefused

section

variable {ev : Evaluator} (hcall : ev.PassesFailuresOn)

include hcall

/-- Steps that insist on what is demanded of operands. -/
theorem stepwise_guarded {s s' : Steps} (demands : Demands)
    (h : (limitAlignment ev.config.recursionLimit).Stepwise ev (fun _ => ev.config.recursionLimit)
      fun b => bif b then s else s') :
    (limitAlignment ev.config.recursionLimit).Stepwise ev (fun _ => ev.config.recursionLimit)
      fun b => bif b then s else s'.guarded ev demands := by
  refine stepwise_of_evalAfter _ hcall (fun {env mode r} hr k e => ?_)
    fun {env mode r} hr code => ?_
  · -- only one of the two insists, and only on expressions that something is demanded of
    have heval : SameUnlessRefused ev.config.recursionLimit fun b =>
        (bif b then s else s').evalAfter k ⟨env, mode, r b⟩ e := h.evalAfter hr k trivial
    by_cases he : ∃ d, (e, d) ∈ demands
    · exact heval.insist rfl (if_pos he)
    · exact heval.of_eq rfl (if_neg he)
  · have hsplice : SameUnlessRefused ev.config.recursionLimit fun b =>
        (bif b then s else s').splice ⟨env, mode, r b⟩ code := h.splice hr code
    exact hsplice.of_eq rfl rfl

/-- Every step of wary evaluation is that of evaluation, unless it ends early. -/
theorem stepwise_warySteps (n : Nat) :
    (limitAlignment ev.config.recursionLimit).Stepwise ev (fun _ => ev.config.recursionLimit)
      fun b => bif b then ev.steps n else ev.warySteps n := by
  induction n with
  | zero =>
    exact stepwise_of_evalAfter _ hcall (fun _ _ _ => .refused ev rfl) fun _ _ => .refused ev rfl
  | succ n ih =>
    refine stepwise_of_evalAfter _ hcall (fun {env mode r} hr k e => ?_)
      fun {env mode r} hr code => ?_
    · cases k with
      | zero =>
        -- both apply the rule, the second one to steps that insist on the demands of `e`
        have hrule : SameUnlessRefused ev.config.recursionLimit fun b =>
            EvalM.count (fun c => { c with expressions := c.expressions + 1 }) >>= fun _ =>
              (bif b then ev.steps n else (ev.warySteps n).guarded ev (e.demands env)).rule ev
                ⟨env, mode, r b⟩ e :=
          .bind (.const fun _ _ => rfl) fun _ =>
            (stepwise_guarded hcall (e.demands env) ih).rule hr trivial
        exact hrule.of_eq rfl rfl
      | succ k =>
        have heval : SameUnlessRefused ev.config.recursionLimit fun b =>
            (bif b then ev.steps n else ev.warySteps n).evalAfter k ⟨env, mode, r b⟩ e :=
          ih.evalAfter hr k trivial
        exact heval.of_eq rfl rfl
    · have hsplice : SameUnlessRefused ev.config.recursionLimit fun b =>
          (bif b then ev.steps n else ev.warySteps n).spliceParts ev ⟨env, mode, r b⟩ code :=
        ih.spliceParts hr code
      exact hsplice.of_eq rfl rfl

end

/-! ## Steps that lead -/

namespace Evaluator

variable {ev : Evaluator} {plan : Plan} {start : Env} (hev : ev.Respects plan start)

include hev

/-- With any number of levels left wary steps lead the steps of evaluation where values are filled
in. -/
theorem lead_warySteps (n : Nat) : (ev.warySteps n).Lead start (ev.steps n) := by
  induction n with
  | zero => exact ⟨fun _ _ _ => leads_refuse ev _, fun _ _ => leads_refuse ev _⟩
  | succ n ih =>
    refine ⟨fun {req req'} hreq k e => ?_, fun {req req'} hreq code => ?_⟩
    · cases k with
      | zero =>
        refine (leads_count _).bind_eq fun _ => ?_
        exact (Steps.lead_guarded ih).rule hreq hev e (Steps.insists_guarded ih hreq)
      | succ k => exact ih.evalAfter hreq k e
    · exact ih.spliceParts hreq (hev.elaborate hreq.meets hreq.env) code

/-- Wary evaluation leads evaluation where values are filled in. -/
theorem leads_waryEvaluate {req req' : Request} (hreq : req.Filled start req') (e : Expr) :
    Leads (Value.Filled true) (ev.waryEvaluate req e) (ev.evaluate req' e) :=
  ((lead_warySteps hev _).eval hreq e).reporting req.reporting req'.reporting

end Evaluator

/-! ## Expressions that look at no placeholder

Here evaluation only ever meets expressions of a set, and none of them demands anything. At every
level wary steps then are the steps of evaluation.
-/

/-- Runs that are the same, and meet expressions of a set only, as an alignment. -/
def identical (M : Expr → Prop) : Alignment Bool where
  Aligned := SameRun
  Alike := SameFailure
  Admits env _ r := env.KeepsTo M ∧ r true = r false
  Meets := M
  Iterates := ∃ e, M e
  isFatal_eq := SameFailure.isFatal_eq
  alike_moreTelling := SameFailure.moreTelling
  alike_of := SameFailure.of
  admits_bindValues h name kind bindings _ := ⟨h.1.bindValues name kind bindings, h.2⟩
  iterates h := ⟨_, h⟩
  admits_keepsTo h := h.1
  pure a := .const (pure a)
  throw := SameRun.throw
  bind := SameRun.bind
  modifyLog _ := .const _

/-- Identical steps may catch failures and go on. -/
theorem identical_rescues (M : Expr → Prop) : (identical M).Rescues := by
  intro α β x k hx hok herror hfatal
  exact SameRun.rescue hx hok (fun f hf => herror (fun _ => f) rfl fun _ => hf) hfatal

section

variable {M : Expr → Prop} {ev : Evaluator} {plan : Plan} (hstays : ev.StaysWithin plan M)
  (hM : ∀ e, M e → ∀ env, e.demands env = [])

include hstays

/-- Steps that do the same on some expressions are identical step by step. -/
theorem stepwise_identical {s s' : Steps}
    (heval : ∀ {env mode r}, env.KeepsTo M → ∀ k {e}, M e →
      s.evalAfter k ⟨env, mode, r⟩ e = s'.evalAfter k ⟨env, mode, r⟩ e)
    (hsplice : ∀ {env mode r}, env.KeepsTo M → ∀ code,
      s.splice ⟨env, mode, r⟩ code = s'.splice ⟨env, mode, r⟩ code) :
    (identical M).Stepwise ev (fun _ => ev.config.recursionLimit)
      fun b => bif b then s else s' := by
  refine Alignment.stepwise_of_executes hstays (identical_rescues M) ?_ (fun _ => rfl) rfl
    (fun _ => rfl) (fun hr _ => ⟨hr.1, rfl⟩) ?_ ?_ ?_
  · intro α env mode r x hr hx
    show (x true).reporting (r true) = (x false).reporting (r false)
    rw [show x true = x false from hx, hr.2]
  · exact fun hr _ _ _ _ hfound hbinding => ⟨(hr.1.lookup hfound hbinding).2, hr.2⟩
  · intro env mode r hr k e he
    show s.evalAfter k ⟨env, mode, r true⟩ e = s'.evalAfter k ⟨env, mode, r false⟩ e
    rw [hr.2]
    exact heval hr.1 k he
  · intro env mode r hr code
    show s.splice ⟨env, mode, r true⟩ code = s'.splice ⟨env, mode, r false⟩ code
    rw [hr.2]
    exact hsplice hr.1 code

include hM

/-- Where no expression demands anything, wary evaluation does the same as evaluation. -/
theorem stepwise_undemanding (n : Nat) :
    (identical M).Stepwise ev (fun _ => ev.config.recursionLimit)
      fun b => bif b then ev.warySteps n else ev.steps n := by
  induction n with
  | zero => exact stepwise_identical hstays (fun _ _ _ _ => rfl) fun _ _ => rfl
  | succ n ih =>
    refine stepwise_identical hstays (fun {env mode r} hr k e he => ?_)
      fun {env mode r} hr code => ?_
    · have hadmits : (identical M).Admits env mode fun _ => r := ⟨hr, rfl⟩
      cases k with
      | zero =>
        have hrule : (ev.warySteps n).rule ev ⟨env, mode, r⟩ e
            = (ev.steps n).rule ev ⟨env, mode, r⟩ e := ih.rule hadmits he
        simp only [Evaluator.warySteps, Evaluator.steps, hM e he env, Steps.guarded_nil, hrule]
      | succ k => exact ih.evalAfter hadmits k he
    · have hadmits : (identical M).Admits env mode fun _ => r := ⟨hr, rfl⟩
      exact ih.spliceParts hadmits code

/-- Where nothing is demanded wary evaluation is evaluation. -/
theorem Evaluator.waryEvaluate_of_undemanding {req : Request} (henv : req.env.KeepsTo M) {e : Expr}
    (he : M e) : ev.waryEvaluate req e = ev.evaluate req e := by
  have hadmits : (identical M).Admits req.env req.mode fun _ => req.reporting := ⟨henv, rfl⟩
  have heval : (ev.warySteps (ev.config.recursionLimit + 1)).eval req e = ev.start.eval req e :=
    (stepwise_undemanding hstays hM (ev.config.recursionLimit + 1)).eval hadmits he
  exact congrArg (EvalM.reporting req.reporting) heval

end

/-! ## Soundness -/

/-- A step that gives a value has not failed at the limit. -/
theorem EvalM.Gives.not_atLimit {α : Type} {x : EvalM α} {C D : Context} {log log' : Log} {a : α}
    (h : x.Gives C log a D log') (limit : Nat) : ¬AtLimit limit (x C log).1 := by
  rw [h]
  rintro ⟨f, hf, -⟩
  cases hf

/-- The value of a call of a built-in function, from the values of its arguments. -/
theorem Evaluator.gives_builtin {ev : Evaluator} {req : Request} {path : Path} {args : List Expr}
    {ty : Ty} {impure : Bool} {f : Builtin.Function} {vs : List Value} {v : Value} {C D : Context}
    (hsmooth : path.last ≠ "smooth")
    (hrule : Builtin.rule? path.last ev.config.flags.metamodelica = some (.ofValues f))
    (hargs : ∀ log, ∃ log', ((ev.steps ev.config.recursionLimit).evalAll req args).Gives C log vs D
      log') (hf : f vs = .ok v) (log : Log) :
    ∃ log', (ev.evaluate req (.call path args ty true impure)).Gives C log v D log' := by
  have hnone : Steps.smoothZero? path args true = none :=
    Option.eq_none_iff_forall_ne_some.mpr fun e he => hsmooth (Steps.smoothZero?_eq_some.mp he).2.2
  have hcall := (ev.steps ev.config.recursionLimit).call_eq req ev (.call path args ty true impure)
    path args true impure
  simp only [hnone, hrule, if_true] at hcall
  obtain ⟨log', hargs⟩ := hargs { log with counters :=
    { log.counters with
      expressions := log.counters.expressions + 1
      builtinCalls := log.counters.builtinCalls + 1 } }
  refine ⟨log', gives_reporting.mpr (gives_bind.mpr ⟨(), C, _, rfl, ?_⟩)⟩
  rw [show (ev.steps ev.config.recursionLimit).rule ev req (.call path args ty true impure) = _
    from hcall]
  refine gives_bind.mpr ⟨(), C, _, rfl, gives_bind.mpr ⟨vs, D, log', hargs, ?_⟩⟩
  exact gives_ofOutcome.mpr ⟨hf, rfl, rfl⟩

/-- Wary evaluation that does not end at the limit is evaluation. -/
theorem Evaluator.waryEvaluate_eq {ev : Evaluator} (hcall : ev.PassesFailuresOn) {req : Request}
    {e : Expr} {C : Context} {log : Log}
    (h : ¬AtLimit ev.config.recursionLimit (ev.waryEvaluate req e C log).1) :
    ev.waryEvaluate req e C log = ev.evaluate req e C log := by
  have hadmits : (limitAlignment ev.config.recursionLimit).Admits req.env req.mode
    fun _ => req.reporting := rfl
  have heval : SameUnlessRefused ev.config.recursionLimit fun b =>
      ((bif b then ev.steps (ev.config.recursionLimit + 1)
        else ev.warySteps (ev.config.recursionLimit + 1)).eval req e).reporting req.reporting :=
    .handing (keepsCause_report req.reporting) ((stepwise_warySteps hcall _).eval hadmits trivial)
  rcases heval C log with ⟨-, hsame⟩ | hlimit
  · exact hsame.symm
  · exact absurd hlimit h

/-- Deferral is sound: a value without placeholders stays the same when deferred variables get
values, unless the evaluation looks at a placeholder where it does not need its value. -/
theorem deferral_sound {ev : Evaluator} {plan : Plan} {env env' : Env} (hev : ev.Respects plan env)
    (henv : env.Filled env env') {mode : Mode} {r : Reporting} {e : Expr} {C D : Context}
    {log log' : Log} {v : Value} (hrun : (ev.evaluate ⟨env, mode, r⟩ e).Gives C log v D log')
    (hv : v.Complete)
    (hwary : ¬AtLimit ev.config.recursionLimit (ev.waryEvaluate ⟨env, mode, r⟩ e C log).1)
    (r' : Reporting) (log₀ : Log) :
    ∃ D' log₁, (ev.evaluate ⟨env', mode, r'⟩ e).Gives C log₀ v D' log₁ := by
  have hcall : ev.PassesFailuresOn := Evaluator.ExecutesBodies.passesFailuresOn ⟨plan, hev.executes⟩
  have hreq : Request.Filled env ⟨env, mode, r⟩ ⟨env', mode, r'⟩ := ⟨.refl env, henv, rfl⟩
  -- the second run starts from the same context, where nothing is filled in yet
  obtain ⟨w, D', log₁, hrun', hvw, -⟩ := Evaluator.leads_waryEvaluate hev hreq e C log v D log'
    ((Evaluator.waryEvaluate_eq hcall hwary).trans hrun) C (.refl C) log₀
  rw [hvw.eq_of_complete hv] at hrun'
  exact ⟨D', log₁, hrun'⟩

/-! ## A deferred parameter -/

/-- An evaluator without neighbours that defers unbound variables and has the functions on lists. -/
def Evaluator.deferringLists : Evaluator :=
  .alone ⟨Config.defaultLimit, { Flags.none with metamodelica := true, deferUnbound := true }⟩

/-- A scope with an Integer parameter `k`. -/
def Env.withParameter (binding : Binding) : Env :=
  Env.empty.define "k" ⟨.integer, .parameter, binding⟩

/-- A reference to the parameter `k`. -/
def Expr.parameter : Expr := .reference [.mk "k" []] .integer

/-- The deferred parameter is filled in with a value. -/
theorem Env.filled_withParameter (n : Int) :
    (Env.withParameter .unbound).Filled (.withParameter .unbound)
      (.withParameter (.value (.integer n))) :=
  (Env.Filled.refl _ Env.empty).define "k" (.given .parameter (fun _ _ => rfl) (.inr rfl))

/-- The expression `{k, 2}[2]`. -/
def Expr.second : Expr :=
  .subscripted (.array .unknown false [.parameter, .integer 2]) [.index (.integer 2)]

/-- The expressions that the evaluation of `{k, 2}[2]` meets. -/
def Expr.InSecond (e : Expr) : Prop :=
  e ∈ [.second, .array .unknown false [.parameter, .integer 2], .parameter, .integer 2]

/-- Selecting the second element demands nothing. -/
theorem Expr.InSecond.demands_eq_nil {e : Expr} (h : e.InSecond) (env : Env) :
    e.demands env = [] := by
  simp only [InSecond, List.mem_cons, List.not_mem_nil, or_false] at h
  rcases h with rfl | rfl | rfl | rfl
  all_goals rfl

/-- Evaluation by itself stays within what is met when selecting the second element. -/
theorem Evaluator.staysWithin_inSecond (config : Config) :
    (Evaluator.alone config).StaysWithin (fun _ _ _ _ _ => .finish (Cause.fail .notConstant))
      Expr.InSecond := by
  refine ⟨fun _ _ _ _ _ => rfl, fun _ _ _ _ _ => .finish _, ?_, id, nofun⟩
  intro e he part hpart
  simp only [Expr.InSecond, List.mem_cons, List.not_mem_nil, or_false] at he ⊢
  rcases he with rfl | rfl | rfl | rfl
  · have hpart : part ∈ [.array .unknown false [.parameter, .integer 2], .integer 2] := hpart
    simp only [List.mem_cons, List.not_mem_nil, or_false] at hpart
    tauto
  · have hpart : part ∈ [.parameter, .integer 2] := hpart
    simp only [List.mem_cons, List.not_mem_nil, or_false] at hpart
    tauto
  · exact absurd hpart List.not_mem_nil
  · exact absurd hpart List.not_mem_nil

/-- The environment of the parameter keeps to what is met when selecting the second element. -/
theorem Env.keepsTo_inSecond : (Env.withParameter .unbound).KeepsTo Expr.InSecond := by
  intro frame hframe
  obtain rfl := List.mem_singleton.mp hframe
  refine ⟨fun hvar hbinding => ?_, fun hclass => absurd hclass List.not_mem_nil⟩
  cases List.mem_singleton.mp hvar
  cases hbinding

/-- The second element of `{k, 2}` stays the same when `k` is 5. -/
theorem deferral_sound_second :
    ∃ log, (Evaluator.deferringLists.evaluate ⟨.withParameter .unbound, .explicit, .silent⟩
        .second).Gives .empty (.start .standard) (.integer 2) .empty log
      ∧ ∃ D log₁, (Evaluator.deferringLists.evaluate
        ⟨.withParameter (.value (.integer 5)), .explicit, .silent⟩ .second).Gives .empty
          (.start .standard) (.integer 2) D log₁ := by
  let req : Request := ⟨.withParameter .unbound, .explicit, .silent⟩
  have hrun : ∃ log, (Evaluator.deferringLists.evaluate req .second).Gives .empty (.start .standard)
    (.integer 2) .empty log := ⟨_, rfl⟩
  obtain ⟨log, hrun⟩ := hrun
  have hwary : Evaluator.deferringLists.waryEvaluate req .second
      = Evaluator.deferringLists.evaluate req .second :=
    Evaluator.waryEvaluate_of_undemanding (Evaluator.staysWithin_inSecond _)
      (fun _ h => h.demands_eq_nil) Env.keepsTo_inSecond List.mem_cons_self
  have hlimit : ¬AtLimit Evaluator.deferringLists.config.recursionLimit
      (Evaluator.deferringLists.waryEvaluate req .second .empty (.start .standard)).1 := by
    rw [hwary]
    exact hrun.not_atLimit _
  have hrespects := Evaluator.respects_alone Evaluator.deferringLists.config req.env
  exact ⟨log, hrun, deferral_sound hrespects (Env.filled_withParameter 5) hrun
    (Value.complete_atom rfl rfl) hlimit .silent _⟩

/-! ### A placeholder that is looked at -/

/-- A value is a member of a list if it equals one of the elements, both without boxes. -/
theorem Builtin.listMember_eq (v : Value) (elements : List Value) :
    Builtin.listMember [v, .listOf elements]
      = .ok (.bool (elements.any fun element => element.unboxed == v.unboxed)) := by
  show Except.ok (Value.bool (elements.toArray.any fun element => element.unboxed == v.unboxed)) = _
  rw [List.any_toArray]

/-- The expression `listMember(k, {1, 2})`. -/
def Expr.isMember : Expr :=
  .call (.ident "listMember") [.parameter, .list [.integer 1, .integer 2]] .boolean true false

/-- Whether `k` is a member of `{1, 2}` is decided for the placeholder of `k`, and otherwise for the
value 1. -/
theorem isMember_overlooks_placeholder :
    (Env.withParameter .unbound).Filled (.withParameter .unbound)
        (.withParameter (.value (.integer 1)))
      ∧ (Value.bool false).Complete
      ∧ (∃ log, (Evaluator.deferringLists.evaluate ⟨.withParameter .unbound, .explicit, .silent⟩
          .isMember).Gives .empty (.start .standard) (.bool false) .empty log)
      ∧ ∃ log, (Evaluator.deferringLists.evaluate
          ⟨.withParameter (.value (.integer 1)), .explicit, .silent⟩ .isMember).Gives .empty
            (.start .standard) (.bool true) .empty log := by
  unfold Expr.isMember
  refine ⟨Env.filled_withParameter 1, Value.complete_atom rfl rfl, ?_, ?_⟩
  · refine Evaluator.gives_builtin (by decide) rfl ?_
      (Builtin.listMember_eq (.empty "" "k" .integer) [.integer 1, .integer 2]) _
    exact fun _ => ⟨_, rfl⟩
  · refine Evaluator.gives_builtin (by decide) rfl ?_
      (Builtin.listMember_eq (.integer 1) [.integer 1, .integer 2]) _
    exact fun _ => ⟨_, rfl⟩

end ModelicaFold
