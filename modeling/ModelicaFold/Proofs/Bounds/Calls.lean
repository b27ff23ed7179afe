import ModelicaFold.Proofs.Bounds.Rules
import ModelicaFold.Proofs.Runs.Bodies
import ModelicaFold.Proofs.Runs.Calls

/-!
# Calls on ranked values

Built-in functions that read their arguments directly stand in the tables under the names of those
that do not. The executor of functions of the model follows a plan that makes no array without a
dimension (`Plan.KeepsRanked`).
-/

namespace ModelicaFold

open EvalM (Concurs concurs_pure concurs_fail concurs_throw concurs_ofOutcome concurs_ofAccess
  concurs_count concurs_getContext concurs_modifyLog)
open Value (Ranked)

/-! ## Executors -/

/-- Values that an execution brings in are ranked as long as the values of bodies are. -/
inductive Execution.KeepsRanked : Execution → Prop where
  | finish {outcome : Outcome Value} (h : outcome.Ensures Ranked) : KeepsRanked (.finish outcome)
  | body (scope : String) {parameters : List (String × Ty × Value)} (e : Expr)
      (reporting : Reporting) {next : Value → Execution}
      (hparameters : ∀ parameter ∈ parameters, parameter.2.2.Ranked)
      (hnext : ∀ v, v.Ranked → KeepsRanked (next v)) :
      KeepsRanked (.body scope parameters e reporting next)

/-- What an executor makes of calls with ranked arguments in ranked environments. -/
def Plan.KeepsRanked (plan : Plan) : Prop :=
  ∀ functions (env : Env) call (values : List Value) mode, env.Ranked →
    (∀ v ∈ values, v.Ranked) → (plan functions env call values mode).KeepsRanked

/-- An execution that keeps values ranked concurs if evaluation of bodies does. -/
theorem Execution.KeepsRanked.run {execution : Execution} (h : execution.KeepsRanked)
    {reenter reenter' : Reentry} {env : Env} (henv : env.Ranked) {mode : Mode}
    (hreenter : ∀ (env : Env) e r, env.Ranked →
      (reenter env e mode r).Concurs Ranked (reenter' env e mode r)) :
    (execution.run reenter env mode).Concurs Ranked (execution.run reenter' env mode) := by
  induction h with
  | finish h => exact concurs_ofOutcome h
  | body scope e reporting hparameters _ ih =>
    exact (hreenter _ e reporting (henv.bindValues scope .functionScope hparameters)).bind ih

namespace Steps.Concur

variable {s s' : Steps} (h : s.Concur s') {req : Request} (henv : req.env.Ranked)

include h henv

/-- A delegated call concurs if the executor keeps values ranked. -/
theorem delegate {ev : Evaluator} {plan : Plan} (hplan : ev.Executes plan)
    (hkeeps : plan.KeepsRanked) (call : Expr) {values : List Value}
    (hvalues : ∀ v ∈ values, v.Ranked) :
    (s.delegate ev req call values).Concurs Ranked (s'.delegate ev req call values) := by
  refine (concurs_count _).bind fun _ _ => ?_
  simp only [hplan _ req.env call values req.mode]
  have hfunctions : EvalM.getFunctions.Concurs (fun _ => True) EvalM.getFunctions :=
    concurs_getContext.bind fun ctx _ => concurs_pure trivial
  refine hfunctions.bind fun functions _ => ?_
  have hexecution := hkeeps functions req.env call values req.mode henv hvalues
  refine hexecution.run henv fun env e r henv => ?_
  exact (h.evalAfter 1 ⟨env, req.mode, r⟩ e henv).reporting r

/-- The arguments of a call concur. -/
theorem arguments (args : List Expr) :
    (s.arguments req args).Concurs (fun vs => ∀ v ∈ vs, v.Ranked) (s'.arguments req args) :=
  .mapM fun arg _ => (h.eval henv arg).reporting req.reporting

end Steps.Concur

namespace Direct

open Builtin (KeepsRanked keepsRanked_of_rule)

/-! ## Functions of expressions -/

/-- A function with direct accesses concurs with one of the rules. -/
def Form.Concurs (f g : Form) : Prop :=
  ∀ ev ⦃s s' : Steps⦄ ⦃req : Request⦄ args, s.Concur s' → req.env.Ranked →
    (f ev s req args).Concurs Ranked (g ev s' req args)

/-- So many arguments are there as were counted. -/
theorem concurs_takesBetween {args : List Expr} (name : String) (least most : Nat) :
    (EvalM.ofOutcome (Builtin.takesBetween name least most args)).Concurs
      (fun _ => least ≤ args.length ∧ args.length ≤ most)
      (EvalM.ofOutcome (Builtin.takesBetween name least most args)) := by
  refine concurs_ofOutcome (.ite (fun hlength => Outcome.ensures_ok hlength) fun _ => ?_)
  exact .ite (fun _ => Outcome.ensures_fail _) fun _ => Outcome.ensures_fail _

/-- Where at least one argument is counted there is a first one. -/
theorem concurs_takesSome {args : List Expr} (name : String) (most : Nat) :
    (EvalM.ofOutcome (Builtin.takesBetween name 1 most args)).Concurs
      (fun _ => ∃ e more, args = e :: more)
      (EvalM.ofOutcome (Builtin.takesBetween name 1 most args)) :=
  (concurs_takesBetween name 1 most).mono fun _ hlength => List.exists_cons_of_length_pos hlength.1

/-- A division with a tested divisor concurs if the division gives ranked values. -/
theorem concurs_quotient (fault : Fault) (name : String) (zero : String → String → Cause)
    {divide : Value → Value → Outcome Value} (hdivide : ∀ a b, (divide a b).Ensures Ranked) :
    (quotient fault name zero divide).Concurs fun _ => Steps.quotient name zero divide := by
  intro ev s s' req args h henv
  simp only [quotient, Steps.quotient, Steps.quotientOperands, bind_assoc]
  refine (concurs_takesBetween name 2 2).bind fun _ hlength => ?_
  match args with
  | [] => exact absurd hlength.1 (by simp)
  | [_] => exact absurd hlength.1 (by simp)
  | _ :: _ :: _ :: _ => exact absurd hlength.2 (by simp)
  | [x, y] =>
    simp only [Steps.evalAll, List.mapM_cons, List.mapM_nil, bind_assoc, pure_bind]
    refine (h.eval henv x).bind fun a _ => (h.eval henv y).bind fun b _ => ?_
    by_cases hzero : b.isZero = true
    · rw [if_pos hzero, if_pos hzero]
      refine .read (Access.inBounds_item rfl) (.read (Access.inBounds_item rfl) ?_)
      exact concurs_fail _
    · rw [if_neg hzero, if_neg hzero]
      exact concurs_ofOutcome (hdivide a b)

/-- A function of one expression concurs if its rule does. -/
theorem concurs_onlyArg (fault : Fault) (name : String)
    {rule : Evaluator → Steps → Request → Expr → EvalM Value}
    (hrule : ∀ ev ⦃s s' : Steps⦄ ⦃req : Request⦄ e, s.Concur s' → req.env.Ranked →
      (rule ev s req e).Concurs Ranked (rule ev s' req e)) :
    (argument fault name 1 1 0 rule).Concurs fun ev s req args =>
      Steps.onlyArg name args (rule ev s req) := by
  intro ev s s' req args h henv
  refine (concurs_takesSome name 1).bind fun _ hargs => ?_
  obtain ⟨e, more, rfl⟩ := hargs
  exact .read (Access.inBounds_item rfl) (hrule ev e h henv)

/-- The rule for `simplify` concurs. -/
theorem concurs_simplified (fault : Fault) :
    (argument fault "simplify" 1 2 0 fun ev s req e => s.eval req (ev.simplify e)).Concurs
      Steps.simplified := by
  intro ev s s' req args h henv
  refine (concurs_takesSome "simplify" 2).bind fun _ hargs => ?_
  obtain ⟨e, more, rfl⟩ := hargs
  exact .read (Access.inBounds_item rfl) (h.eval henv _)

/-- The rule for `smooth` concurs. -/
theorem concurs_smooth (fault : Fault) :
    (argument fault "smooth" 2 2 1 fun _ s => s.eval).Concurs fun _ => Steps.smooth := by
  intro ev s s' req args h henv
  refine (concurs_takesBetween "smooth" 2 2).bind fun _ hlength => ?_
  match args with
  | [] => exact absurd hlength.1 (by simp)
  | [_] => exact absurd hlength.1 (by simp)
  | _ :: e :: _ => exact .read (Access.inBounds_item rfl) (h.eval henv e)

/-- The rule for `size` concurs. -/
theorem concurs_sizeCall (fault : Fault) : (sizeCall fault).Concurs fun _ => Steps.sizeCall := by
  intro ev s s' req args h henv
  refine (concurs_takesSome "size" 2).bind fun _ hargs => ?_
  obtain ⟨e, more, rfl⟩ := hargs
  refine .read (Access.inBounds_item rfl) ?_
  rw [List.getElem?_cons_succ, ← List.head?_eq_getElem?]
  exact h.size henv e more.head?

/-- Printing an expression concurs. -/
theorem concurs_printed {s s' : Steps} (h : s.Concur s') {req : Request} (henv : req.env.Ranked)
    (e : Expr) : (printed s req e).Concurs Ranked (printed s' req e) := by
  refine (h.eval henv e).bind fun v _ => ?_
  cases v.unboxed with
  | string text =>
    have hprint := concurs_modifyLog (f := (·.print text)) fun _ => rfl
    exact hprint.bind fun _ _ => concurs_pure (Value.ranked_of_parts_eq_nil rfl rfl)
  | _ => exact concurs_fail _

/-! ## The tables -/

/-- The functions of expressions in the table concur with those that read nothing directly. -/
theorem forms_concur (fault : Fault) :
    ∀ entry ∈ forms fault, ∃ g, Builtin.baseTable.lookup entry.1 = some (.ofExprs g)
      ∧ entry.2.Concurs g := by
  simp only [forms, List.forall_mem_cons, List.not_mem_nil, false_implies, implies_true, and_true]
  exact ⟨⟨_, rfl, concurs_quotient fault _ _ Builtin.ensures_integerDivide⟩,
    ⟨_, rfl, concurs_quotient fault _ _ Builtin.ensures_modulo⟩,
    ⟨_, rfl, concurs_onlyArg fault _ fun _ _ _ _ e h henv => h.rank henv e⟩,
    ⟨_, rfl, concurs_onlyArg fault _ fun _ _ _ _ e h henv => h.eval henv e⟩,
    ⟨_, rfl, concurs_onlyArg fault _ fun _ _ _ _ e h henv => concurs_printed h henv e⟩,
    ⟨_, rfl, concurs_quotient fault _ _ Builtin.ensures_remainder⟩,
    ⟨_, rfl, concurs_simplified fault⟩, ⟨_, rfl, concurs_sizeCall fault⟩,
    ⟨_, rfl, concurs_smooth fault⟩⟩

/-- The functions of values in the table do what those do that read nothing directly. -/
theorem functions_keep :
    ∀ entry ∈ functions, ∃ g, Builtin.baseTable.lookup entry.1 = some (.ofValues g)
      ∧ Keeps entry.2 g := by
  simp only [functions, List.forall_mem_cons, List.not_mem_nil, false_implies, implies_true,
    and_true]
  exact ⟨⟨_, rfl, keeps_cat⟩, ⟨_, rfl, keeps_cross⟩, ⟨_, rfl, keeps_diagonal⟩,
    ⟨_, rfl, keeps_matrixOf⟩, ⟨_, rfl, keeps_skew⟩, ⟨_, rfl, keeps_symmetric⟩,
    ⟨_, rfl, keeps_transpose⟩⟩

/-- The scanners in the table do what those do that read nothing directly. -/
theorem scanners_keep :
    ∀ entry ∈ scanners, ∃ g, Builtin.External.table.lookup entry.1 = some g ∧ Keeps entry.2 g := by
  simp only [scanners, List.forall_mem_cons, List.not_mem_nil, false_implies, implies_true,
    and_true]
  exact ⟨⟨_, rfl, External.keeps_substring⟩, ⟨_, rfl, External.keeps_skipWhiteSpace⟩,
    ⟨_, rfl, External.keeps_scanInteger⟩, ⟨_, rfl, External.keeps_scanReal⟩⟩

/-- All functions of expressions read their arguments directly. -/
theorem forms_complete (fault : Fault) : ∀ entry ∈ Builtin.baseTable,
    ((forms fault).lookup entry.1).isSome = true ∨ ∃ f, entry.2 = .ofValues f := by
  simp only [Builtin.baseTable, List.forall_mem_cons, List.not_mem_nil, false_implies,
    implies_true, and_true]
  and_intros
  all_goals first | exact .inr ⟨_, rfl⟩ | exact .inl rfl

/-! ## Calls -/

/-- An external function with a known meaning does what the one does that reads nothing directly. -/
theorem external?_keeps (name : String) :
    Option.Rel Keeps (external? name) (Builtin.External.table.lookup name) := by
  unfold external?
  cases hscanner : scanners.lookup name with
  | some f =>
    obtain ⟨g, hg, hkeeps⟩ := scanners_keep _ (mem_of_lookup_eq_some hscanner)
    rw [hg]
    exact .some hkeeps
  | none =>
    cases Builtin.External.table.lookup name with
    | none => exact .none
    | some g => exact .some fun args => Access.inBounds_of (g args)

/-- The meaning of an external function with direct accesses. -/
theorem function?_keeps (env : Env) (path : Path) :
    Option.Rel Keeps (function? env path) (Builtin.External.function? env path) := by
  unfold function? Builtin.External.function?
  cases env.lookupClass path with
  | none => exact .none
  | some c =>
    cases c with
    | record r => exact .none
    | function f =>
      dsimp only
      cases f.external? with
      | none => exact .none
      | some external => exact external?_keeps external.name

/-- An access in bounds answers with its outcome. -/
theorem answer_eq {x : Access Value} {o : Outcome Value} (h : x.InBounds o) (fault : Fault) :
    answer fault x = pure o := by
  rw [h]
  rfl

section

variable {s s' : Steps} (h : s.Concur s') {req : Request} (henv : req.env.Ranked) (fault : Fault)
  (ev : Evaluator)

include h henv

/-- The rule of a built-in function concurs. -/
theorem concurs_applyRule {name : String} {extended : Bool} {r : Builtin.Rule}
    (hr : Builtin.rule? name extended = some r) (args : List Expr) :
    (applyRule fault s ev req name args r).Concurs Ranked (s'.applyRule ev req args r) := by
  unfold applyRule
  cases hfunction : functions.lookup name with
  | some f =>
    obtain ⟨g, hbase, hkeeps⟩ := functions_keep _ (mem_of_lookup_eq_some hfunction)
    obtain rfl := Builtin.eq_of_rule? hbase hr
    refine (h.evalAll henv args).bind fun values hvalues => ?_
    exact concurs_ofAccess (hkeeps values) (keepsRanked_of_rule hr values hvalues) fault
  | none =>
    cases hform : (forms fault).lookup name with
    | some f =>
      obtain ⟨g, hbase, hconcurs⟩ := forms_concur fault _ (mem_of_lookup_eq_some hform)
      obtain rfl := Builtin.eq_of_rule? hbase hr
      exact hconcurs ev args h henv
    | none =>
      have hvalues : ∃ f, r = .ofValues f := by
        rcases Builtin.mem_of_rule hr with hmem | ⟨f, -, rfl⟩
        · rcases forms_complete fault _ hmem with hsome | hvalues
          · rw [hform] at hsome
            cases hsome
          · exact hvalues
        · exact ⟨f, rfl⟩
      obtain ⟨f, rfl⟩ := hvalues
      refine (h.evalAll henv args).bind fun values hvalues => ?_
      exact concurs_ofOutcome (keepsRanked_of_rule hr values hvalues)

/-- A call of a built-in function concurs. -/
theorem concurs_callBuiltin {name : String} {extended : Bool} {r : Builtin.Rule}
    (hr : Builtin.rule? name extended = some r) (args : List Expr) :
    (callBuiltin fault s ev req name args r).Concurs Ranked (s'.callBuiltin ev req args r) :=
  (concurs_count _).bind fun _ _ => concurs_applyRule h henv fault ev hr args

variable {plan : Plan} (hplan : ev.Executes plan) (hkeeps : plan.KeepsRanked)

include hplan hkeeps

/-- A call of a function of the model concurs. -/
theorem concurs_callFunction (e : Expr) (path : Path) (args : List Expr) :
    (callFunction fault s ev req e path args).Concurs Ranked
      (s'.callFunction ev req e path args) := by
  refine (h.arguments henv args).bind fun values hvalues => ?_
  have hdelegate := h.delegate henv hplan hkeeps e hvalues
  have hmeaning := function?_keeps req.env path
  generalize hknown : Builtin.External.function? req.env path = meaning at hmeaning ⊢
  generalize function? req.env path = direct at hmeaning ⊢
  cases hmeaning with
  | none => exact hdelegate
  | @some f g hkeepsValues =>
    have hranked := Builtin.External.keepsRanked_of_external hknown values hvalues
    refine (concurs_count _).bind fun _ _ => ?_
    rw [answer_eq (hkeepsValues values), pure_bind]
    cases hvalue : g values with
    | ok v => exact concurs_pure (hranked v hvalue)
    | error known =>
      refine hdelegate.attempt.bind fun outcome houtcome => ?_
      cases outcome with
      | ok v => exact concurs_pure (houtcome v rfl)
      | error f => exact .ite (fun _ => concurs_throw f) fun _ => concurs_throw _

/-- The rule for calls concurs. -/
theorem concurs_call (e : Expr) (path : Path) (args : List Expr) (builtin impure : Bool) :
    (call fault s ev req e path args builtin impure).Concurs Ranked
      (s'.call ev req e path args builtin impure) := by
  unfold call Steps.call
  cases Steps.smoothZero? path args builtin with
  | some zero => exact h.eval henv zero
  | none =>
    refine Concurs.firstMatchAfter (.cons ?_ (.cons ?_ (.cons ?_ .nil))) none
    · cases builtin with
      | false => exact .none
      | true =>
        cases hr : Builtin.rule? path.last ev.config.flags.metamodelica with
        | none => exact .none
        | some r => exact .some (concurs_callBuiltin h henv fault ev hr args)
    · cases builtin || impure with
      | true => exact .none
      | false => exact .some (concurs_callFunction h henv fault ev hplan hkeeps e path args)
    · cases impure with
      | true => exact .some (concurs_fail _)
      | false => exact .none

end

end Direct

end ModelicaFold
