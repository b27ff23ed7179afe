import ModelicaFold.Proofs.Runs.Bodies

/-!
# Requests seen in another way

Some properties compare evaluations whose environments or modes differ. A `View` changes the
environment and the mode of every request, and keeps scopes of values, the names that are declared
and the classes. Most rules look at nothing else in a request, so that they do the same with it as
with the steps below changed to see requests so (`Steps.via`). What is left are variables that are
read and functions of the model that are called: a comparison of runs with a view each has to deal
with these two (`Alignment.Stepwise.rule_of_views`).
-/

namespace ModelicaFold

open Outcome

/-- A way to see requests. -/
structure View where
  env : Env → Env
  mode : Mode → Mode
  env_bindValues : ∀ e name kind bindings,
    env (e.bindValues name kind bindings) = (env e).bindValues name kind bindings
  splitReference : ∀ e r, (env e).splitReference r = e.splitReference r
  lookupClass : ∀ e path, (env e).lookupClass path = e.lookupClass path

namespace View

/-- Requests in another mode. -/
def inMode (mode : Mode → Mode) : View where
  env := id
  mode := mode
  env_bindValues _ _ _ _ := rfl
  splitReference _ _ := rfl
  lookupClass _ _ := rfl

variable (V : View)

/-- The request that is seen. -/
def see (req : Request) : Request := ⟨V.env req.env, V.mode req.mode, req.reporting⟩

/-- A scope of values is pushed alike onto what is seen. -/
theorem see_bindValues (req : Request) (name : String) (kind : ScopeKind)
    (bindings : List (String × Ty × Value)) :
    V.see (req.within (req.env.bindValues name kind bindings))
      = (V.see req).within ((V.see req).env.bindValues name kind bindings) := by
  simp only [see, Request.within, V.env_bindValues]

/-- The record that stands for a missing value is the same in what is seen. -/
theorem defaultedRecord?_env (env : Env) (ty : Ty) :
    (V.env env).defaultedRecord? ty = env.defaultedRecord? ty := by
  unfold Env.defaultedRecord?
  cases ty with
  | record path => simp only [V.lookupClass]
  | _ => rfl

/-- External functions with a known meaning are found alike in what is seen. -/
theorem function?_env (env : Env) (path : Path) :
    Builtin.External.function? (V.env env) path = Builtin.External.function? env path := by
  unfold Builtin.External.function?
  rw [V.lookupClass]

end View

/-! ## Rules under a view -/

namespace Steps

/-- Steps that see every request in another way. -/
def via (s : Steps) (V : View) : Steps where
  evalAfter k req e := s.evalAfter k (V.see req) e
  splice req code := s.splice (V.see req) code

variable {s : Steps} {V : View} {req : Request}

/-- A step in a scope of values. -/
theorem evalAfter_via_bindValues (k : Nat) (name : String) (kind : ScopeKind)
    (bindings : List (String × Ty × Value)) (e : Expr) :
    (s.via V).evalAfter k (req.within (req.env.bindValues name kind bindings)) e
      = s.evalAfter k ((V.see req).within ((V.see req).env.bindValues name kind bindings)) e := by
  rw [← V.see_bindValues]
  rfl

/-- Subscripts are applied under a view as to what is seen. -/
theorem applySubscripts_via (subscripts : List Subscript) (v : Value) :
    (s.via V).applySubscripts req subscripts v = s.applySubscripts (V.see req) subscripts v := by
  induction subscripts generalizing v with
  | nil => rfl
  | cons subscript rest ih =>
    cases subscript with
    | index e =>
      simp only [applySubscripts, ih]
      rfl
    | slice e =>
      simp only [applySubscripts, ih]
      rfl
    | whole => simp only [applySubscripts, ih]

/-- Fields are selected under a view as from what is seen. -/
theorem selectFields_via (fields : Reference) (v : Value) :
    (s.via V).selectFields req fields v = s.selectFields (V.see req) fields v := by
  induction fields generalizing v with
  | nil => rfl
  | cons part more ih => simp only [selectFields, applySubscripts_via, ih]

/-- The defaults of record fields are evaluated under a view as in what is seen. -/
theorem defaults_via (scope : String) (bindings : List (String × Ty × Value))
    (fields : List FieldDecl) :
    (s.via V).defaults req (req.env.bindValues scope .classScope bindings) fields
      = s.defaults (V.see req) ((V.see req).env.bindValues scope .classScope bindings) fields := by
  induction fields generalizing bindings with
  | nil => rfl
  | cons field more ih =>
    simp only [defaults, Env.define_bindValues, ih, evalInner, evalAfter_via_bindValues]

/-- A record of defaults is made under a view as in what is seen. -/
theorem defaultRecord_via (record : RecordClass) :
    (s.via V).defaultRecord req record = s.defaultRecord (V.see req) record := by
  have hfields := @defaults_via s V req record.path.text [] record.fields
  exact congrArg (· >>= fun fields =>
    pure (Value.record record.path fields (record.fields.map (·.name)) (-1))) hfields

/-- A guard lets values pass under a view as in what is seen. -/
theorem passes_via (name : String) (ty : Ty) (guard : Expr) :
    (s.via V).passes req name ty guard = s.passes (V.see req) name ty guard := by
  funext v
  exact congrArg (· >>= _) (evalAfter_via_bindValues 1 _ _ _ guard)

/-- The body of a reduction is evaluated under a view as in what is seen. -/
theorem bodyValue_via (iterators : List Iterator) (body : Expr) :
    (s.via V).bodyValue req iterators body = s.bodyValue (V.see req) iterators body := by
  funext values
  exact evalAfter_via_bindValues 0 _ _ _ body

/-- A step of a fold is taken under a view as in what is seen. -/
theorem foldStep_via (info : ReductionInfo) :
    (s.via V).foldStep req info = s.foldStep (V.see req) info := by
  funext acc next
  unfold foldStep
  cases info.fold with
  | none => rfl
  | some fold => exact evalAfter_via_bindValues 1 _ _ _ fold

/-- A reduction is evaluated under a view as in what is seen. -/
theorem reduction_via (info : ReductionInfo) (body : Expr) (iterators : List Iterator) :
    (s.via V).reduction req info body iterators = s.reduction (V.see req) info body iterators := by
  have hsequence : (s.via V).sequence req = s.sequence (V.see req) := by
    funext it
    simp only [sequence, passes_via]
    rfl
  simp only [reduction, hsequence, bodyValue_via, foldStep_via]
  rfl

/-- The rule of a built-in function is applied under a view as in what is seen. -/
theorem applyRule_via {ev : Evaluator} {args : List Expr} {name : String} {extended : Bool}
    {rule : Builtin.Rule} (hrule : Builtin.rule? name extended = some rule) :
    (s.via V).applyRule ev req args rule = s.applyRule ev (V.see req) args rule := by
  cases rule with
  | ofValues f => rfl
  | ofExprs f =>
    rcases Builtin.rule?_ofExprs hrule with
      rfl | rfl | rfl | ⟨-, rfl⟩ | rfl | rfl | ⟨-, rfl⟩ | ⟨-, rfl⟩ | rfl
    all_goals rfl

/-- A call that is not one of a function of the model. -/
theorem call_via {ev : Evaluator} {call : Expr} {path : Path} {args : List Expr}
    {builtin impure : Bool} (h : builtin = true ∨ impure = true) :
    (s.via V).call ev req call path args builtin impure
      = s.call ev (V.see req) call path args builtin impure := by
  simp only [call_eq]
  cases smoothZero? path args builtin with
  | some e => rfl
  | none =>
    simp only
    cases builtin with
    | true =>
      simp only [if_true]
      cases hrule : Builtin.rule? path.last ev.config.flags.metamodelica with
      | none => rfl
      | some rule => exact congrArg (_ >>= fun _ => ·) (applyRule_via hrule)
    | false =>
      obtain rfl : impure = true := h.resolve_left Bool.false_ne_true
      rfl

/-- Most rules look at a request only through the steps below. -/
theorem rule_via {ev : Evaluator} {e : Expr} (hreference : ∀ parts ty, e ≠ .reference parts ty)
    (hcall : ∀ path args ty, e ≠ .call path args ty false false) :
    (s.via V).rule ev req e = s.rule ev (V.see req) e := by
  cases e with
  | reference parts ty => exact absurd rfl (hreference parts ty)
  | call path args ty builtin impure =>
    refine call_via ?_
    cases builtin with
    | true => exact .inl rfl
    | false =>
      cases impure with
      | true => exact .inr rfl
      | false => exact absurd rfl (hcall path args ty)
  | subscripted operand subscripts =>
    simp only [rule, applySubscripts_via]
    rfl
  | reduction info body iterators => exact reduction_via info body iterators
  | _ => rfl

/-- A plan for what is seen, carried out by steps that see requests so. -/
theorem delegate_via {ev : Evaluator} {plan : Plan} (hplan : ev.Executes plan) {call : Expr}
    {values : List Value}
    (hsame : ∀ functions, plan functions (V.env req.env) call values (V.mode req.mode)
      = plan functions req.env call values req.mode) :
    (s.via V).delegate ev req call values = s.delegate ev (V.see req) call values := by
  have hrun : ∀ execution : Execution,
      execution.run (fun env e mode r => ((s.via V).evalInner ⟨env, mode, r⟩ e).reporting r)
          req.env req.mode
        = execution.run (fun env e mode r => (s.evalInner ⟨env, mode, r⟩ e).reporting r)
          (V.env req.env) (V.mode req.mode) := by
    intro execution
    induction execution with
    | finish outcome => rfl
    | body scope parameters e reporting next ih =>
      simp only [Execution.run, ih, ← V.env_bindValues]
      rfl
  unfold delegate
  simp only [hplan _ _ call values, hrun, View.see, hsame]

/-- A function of the model is called under a view as in what is seen, if the executor plans the
same. -/
theorem callFunction_via {ev : Evaluator} {plan : Plan} (hplan : ev.Executes plan) {call : Expr}
    {path : Path} {args : List Expr}
    (hsame : ∀ functions values, plan functions (V.env req.env) call values (V.mode req.mode)
      = plan functions req.env call values req.mode) :
    (s.via V).callFunction ev req call path args
      = s.callFunction ev (V.see req) call path args := by
  have hdelegate := fun values => delegate_via (s := s) hplan (hsame · values)
  have hfunction := V.function?_env req.env path
  simp only [callFunction, hdelegate, View.see, hfunction]
  rfl

/-- Parts of code are spliced under a view as in what is seen, if they are elaborated alike. -/
theorem spliceParts_via {ev : Evaluator} {code : Code}
    (h : ∀ marked, ev.elaborate (V.env req.env) marked = ev.elaborate req.env marked) :
    (s.via V).spliceParts ev req code = s.spliceParts ev (V.see req) code := by
  unfold spliceParts spliceMarked
  cases code.marked? with
  | none => rfl
  | some marked =>
    simp only [View.see, h]
    rfl

end Steps

/-! ## Runs with a view each -/

/-- Constants and parameters may be read in any request. -/
theorem Request.mayRead_of_isEvaluable {v : Variability} (h : v.isEvaluable = true) (req : Request)
    (found : Found) : req.mayRead found v = true := by
  simp [Request.mayRead, h]

namespace Alignment

variable {ι : Type} {A : Alignment ι} {ev : Evaluator} {limit : ι → Nat} {s : ι → Steps}
  {V : ι → View}

namespace Evaluates

variable (h : A.Evaluates ev limit fun i => (s i).via (V i)) {env : Env} {mode : Mode}
  {r : ι → Reporting} (hr : A.Admits env mode r)

include h hr

/-- A variable without a binding, if it may be read in all runs or in none. -/
theorem unbound_of_views (found : ι → Found) {declared : Variable} {scope name : String} {ty : Ty}
    (hdeclared : ∀ i, (found i).declared = declared) (hscope : ∀ i, (found i).scope = scope)
    (hreads : ∀ i, (!declared.variability.isEvaluable && !((V i).mode mode).readsVariables)
      = (!declared.variability.isEvaluable && !mode.readsVariables))
    (hfails : A.Alike fun i => Failure.of
      (if ((V i).mode mode).reportsUnbound then .unbound name else .notConstant)) :
    A.Aligned fun i => (s i).unbound (ev.withLimit (limit i)) ((V i).see ⟨env, mode, r i⟩)
      (found i) name ty := by
  simp only [Steps.unbound, hdeclared, hscope, View.see, hreads, View.defaultedRecord?_env,
    Evaluator.flags_withLimit]
  refine A.ite (fun _ => A.fail _) fun _ => ?_
  cases hrecord : env.defaultedRecord? declared.ty with
  | some record =>
    have hkeeps := A.admits_keepsTo hr
    have haligned := h.defaultRecord hr fun field hfield e => hkeeps.defaultedRecord hrecord hfield
    simp only [Steps.defaultRecord_via] at haligned
    exact haligned
  | none =>
    refine A.ite (fun _ => A.pure _) fun _ => ?_
    have hthrow : A.Aligned fun i => (EvalM.throw (Failure.of
        (if ((V i).mode mode).reportsUnbound then .unbound name else .notConstant)) :
          EvalM Value) := A.throw hfails
    refine (congrArg A.Aligned (funext fun i => ?_)).mp hthrow
    exact apply_ite EvalM.fail _ _ _

/-- A reference is aligned under views if reading its variable is. -/
theorem reference_of_views {parts : Reference}
    (hparts : ∀ e ∈ (Reference.subscripts parts).filterMap Subscript.expr?, A.Meets e) {ty : Ty}
    (hread : ∀ ty', A.Aligned fun i =>
      (s i).readVariable (ev.withLimit (limit i)) ((V i).see ⟨env, mode, r i⟩)
        (Reference.name (env.splitReference parts).1) ty') :
    A.Aligned fun i =>
      (s i).reference (ev.withLimit (limit i)) ((V i).see ⟨env, mode, r i⟩) parts ty := by
  have hsplit : ∀ i, ((V i).see ⟨env, mode, r i⟩).env.splitReference parts
      = env.splitReference parts := fun i => (V i).splitReference env parts
  have haligned := h.reference_of_read hr hparts
    (hread (if (env.splitReference parts).2.isEmpty then ty else .unknown))
  simp only [Steps.applySubscripts_via, funext (Steps.selectFields_via _)] at haligned
  simp only [Steps.reference, hsplit]
  exact haligned

/-- Evaluation by the rule for the form of an expression does the same in all runs, if reading a
variable does and the executor of functions plans the same for what is seen, unless the expression
is quoted code. -/
theorem rule_of_views_unquoted {plan : Plan} (hplan : ev.Executes plan)
    (hsame : ∀ i functions call values, plan functions ((V i).env env) call values ((V i).mode mode)
      = plan functions env call values mode) {e : Expr} (he : A.Meets e)
    (hcode : ∀ fragment, e ≠ .code fragment)
    (hread : ∀ parts ty, e = .reference parts ty → ∀ ty', A.Aligned fun i =>
      (s i).readVariable (ev.withLimit (limit i)) ((V i).see ⟨env, mode, r i⟩)
        (Reference.name (env.splitReference parts).1) ty') :
    A.Aligned fun i => (s i).rule (ev.withLimit (limit i)) ((V i).see ⟨env, mode, r i⟩) e := by
  have hrule : (∀ parts ty, e ≠ .reference parts ty) →
      (∀ path args ty, e ≠ .call path args ty false false) →
      A.Aligned fun i => (s i).rule (ev.withLimit (limit i)) ((V i).see ⟨env, mode, r i⟩) e := by
    intro hreference hnocall
    have haligned := h.rule_of_unquoted hr he hcode
    simp only [Steps.rule_via hreference hnocall] at haligned
    exact haligned
  cases e with
  | reference parts ty =>
    exact h.reference_of_views hr (h.inside he) (hread parts ty rfl)
  | call path args ty builtin impure =>
    cases builtin with
    | true => exact hrule nofun nofun
    | false =>
      cases impure with
      | true => exact hrule nofun nofun
      | false =>
        have hvia : ∀ i, ((s i).via (V i)).callFunction (ev.withLimit (limit i)) ⟨env, mode, r i⟩
            (.call path args ty false false) path args
              = (s i).callFunction (ev.withLimit (limit i)) ((V i).see ⟨env, mode, r i⟩)
                (.call path args ty false false) path args :=
          fun i => Steps.callFunction_via hplan fun functions values => hsame i functions _ values
        have haligned := h.callFunction hr he
        simp only [hvia] at haligned
        have hsmooth : Steps.smoothZero? path args false = none := by
          cases hsmooth : Steps.smoothZero? path args false with
          | none => rfl
          | some e => cases (Steps.smoothZero?_eq_some.mp hsmooth).2.1
        simp only [Steps.rule, Steps.call_eq, hsmooth]
        exact haligned
  | _ => exact hrule (fun _ _ h => by cases h) fun _ _ _ h => by cases h

end Evaluates

namespace Stepwise

variable (h : A.Stepwise ev limit fun i => (s i).via (V i)) {env : Env} {mode : Mode}
  {r : ι → Reporting} (hr : A.Admits env mode r)

include h hr

/-- Evaluation by the rule for the form of an expression does the same in all runs, if reading a
variable does and the executor of functions plans the same for what is seen. -/
theorem rule_of_views {plan : Plan} (hplan : ev.Executes plan)
    (hsame : ∀ i functions call values, plan functions ((V i).env env) call values ((V i).mode mode)
      = plan functions env call values mode) {e : Expr} (he : A.Meets e)
    (hread : ∀ parts ty, e = .reference parts ty → ∀ ty', A.Aligned fun i =>
      (s i).readVariable (ev.withLimit (limit i)) ((V i).see ⟨env, mode, r i⟩)
        (Reference.name (env.splitReference parts).1) ty') :
    A.Aligned fun i => (s i).rule (ev.withLimit (limit i)) ((V i).see ⟨env, mode, r i⟩) e := by
  by_cases hcode : ∃ fragment, e = .code fragment
  · obtain ⟨fragment, rfl⟩ := hcode
    exact h.quote hr fragment
  · exact h.rule_of_views_unquoted hr hplan hsame he (fun fragment heq => hcode ⟨fragment, heq⟩)
      hread

end Stepwise

end Alignment

end ModelicaFold
