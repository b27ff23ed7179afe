import ModelicaFold.Proofs.Memory.Transparency
import ModelicaFold.Proofs.Runs.Views

/-!
# Explicit evaluation does not look at variables that vary

In explicit mode only constants and parameters may be read. What a varying variable is bound to, and
the value it is known to have, is then of no influence: evaluation does the same in two environments
that differ in nothing else (`explicit_noninterference`). Around iterators varying variables may be
read in any mode, so there must be none, neither in the environments nor in reductions on the way.

An environment is compared with one in which the bindings of varying variables are concealed
(`Env.conceal`), where every request is seen in the latter (`View.concealed`).
-/

namespace ModelicaFold

open Outcome

/-! ## Concealed bindings -/

/-- A binding without what is only read where variables that vary may be read. -/
def Binding.conceal : Binding → Binding
  | .expression _ .varying _ => .expression (.integer 0) .varying none
  | b => b

def Variable.conceal (v : Variable) : Variable := { v with binding := v.binding.conceal }

def Frame.conceal (frame : Frame) : Frame :=
  { frame with vars := frame.vars.map fun (name, v) => (name, v.conceal) }

/-- An environment in which the bindings of varying variables cannot be seen. Environments that
differ only in these bindings are the same when concealed. -/
def Env.conceal (env : Env) : Env := ⟨env.innermost.conceal, env.outer.map Frame.conceal⟩

def Found.conceal (found : Found) : Found :=
  { found with declared := found.declared.conceal, env := found.env.conceal }

/-- What may not be read in explicit mode is varying. -/
theorem Variability.eq_varying {v : Variability} (h : v.isEvaluable = false) : v = .varying := by
  cases v with
  | varying => rfl
  | _ => cases h

/-- Concealing leaves constants and parameters as they are. -/
theorem Variable.conceal_of_evaluable {v : Variable} {e : Expr} {variability : Variability}
    {cached : Option Value} (h : v.binding = .expression e variability cached)
    (hevaluable : variability.isEvaluable = true) : v.conceal = v := by
  obtain ⟨ty, declared, binding⟩ := v
  cases h
  cases variability with
  | varying => cases hevaluable
  | _ => rfl

/-- A concealed frame declares the same names, with concealed bindings. -/
theorem Frame.lookup_conceal (frame : Frame) (name : String) :
    frame.conceal.vars.lookup name = (frame.vars.lookup name).map Variable.conceal := by
  unfold Frame.conceal
  induction frame.vars with
  | nil => rfl
  | cons entry more ih =>
    obtain ⟨x, v⟩ := entry
    simp only [List.map_cons, List.lookup_cons]
    cases name == x with
    | true => rfl
    | false => exact ih

namespace Env

/-- The frames of a concealed environment are its frames concealed. -/
theorem frames_conceal (env : Env) : env.conceal.frames = env.frames.map Frame.conceal := rfl

/-- A name is found in the same one of the concealed frames. -/
theorem findVariable_conceal (name : String) (frame : Frame) (outer : List Frame) :
    findVariable name frame.conceal (outer.map Frame.conceal)
      = (findVariable name frame outer).map Found.conceal := by
  induction outer generalizing frame with
  | nil =>
    simp only [List.map_nil, findVariable, Frame.lookup_conceal, Option.map_map]
    rfl
  | cons next more ih =>
    simp only [List.map_cons, findVariable, Frame.lookup_conceal]
    cases frame.vars.lookup name with
    | some v => rfl
    | none => exact ih next

/-- A name is found in the concealed environment where it was found before. -/
theorem lookup_conceal (env : Env) (name : String) :
    env.conceal.lookup name = (env.lookup name).map Found.conceal :=
  findVariable_conceal name env.innermost env.outer

/-- The declared prefix of a reference is the same. -/
theorem declaredPrefix_conceal (env : Env) (r : Reference) (n : Nat) :
    env.conceal.declaredPrefix r n = env.declaredPrefix r n := by
  induction n with
  | zero => rfl
  | succ n ih => simp only [declaredPrefix, lookup_conceal, Option.isSome_map, ih]

/-- Classes are found alike. -/
theorem lookupClass_conceal (env : Env) (path : Path) :
    env.conceal.lookupClass path = env.lookupClass path := by
  have hframes : ∀ frames : List Frame,
      (frames.map Frame.conceal).findSome? (fun frame => frame.classes.lookup path.text)
        = frames.findSome? fun frame => frame.classes.lookup path.text := fun frames => by
    rw [List.findSome?_map]
    rfl
  exact hframes env.frames

/-- A scope of values has nothing to conceal. -/
theorem conceal_bindValues (env : Env) (name : String) (kind : ScopeKind)
    (bindings : List (String × Ty × Value)) :
    (env.bindValues name kind bindings).conceal = env.conceal.bindValues name kind bindings := by
  induction bindings using List.reverseRecOn with
  | nil => rfl
  | append_singleton bindings binding ih =>
    rw [← define_bindValues, ← define_bindValues, ← ih]
    rfl

end Env

/-- Requests in the concealed environment. -/
def View.concealed : View where
  env := Env.conceal
  mode := id
  env_bindValues := Env.conceal_bindValues
  splitReference e r := by simp only [Env.splitReference, Env.declaredPrefix_conceal]
  lookupClass := Env.lookupClass_conceal

/-! ## Expressions without reductions -/

/-- No reduction is among the expressions that may be evaluated with an expression. -/
inductive Expr.WithoutReduction : Expr → Prop where
  | intro {e : Expr} (hself : ∀ info body iterators, e ≠ .reduction info body iterators)
      (hparts : ∀ part ∈ e.parts, part.WithoutReduction) : WithoutReduction e

/-- The parts of an expression without reductions are without reductions. -/
theorem Expr.WithoutReduction.parts {e : Expr} (h : e.WithoutReduction) :
    ∀ part ∈ e.parts, part.WithoutReduction := by
  cases h with
  | intro _ hparts => exact hparts

/-- A reduction is no expression without reductions. -/
theorem Expr.WithoutReduction.not_reduction {info : ReductionInfo} {body : Expr}
    {iterators : List Iterator} (h : (Expr.reduction info body iterators).WithoutReduction) :
    False := by
  cases h with
  | intro hself _ => exact hself _ _ _ rfl

/-- An expression without parts is without reductions. -/
theorem Expr.withoutReduction_of_parts {e : Expr} (h : e.parts = []) : e.WithoutReduction := by
  refine .intro ?_ (h ▸ nofun)
  rintro info body iterators rfl
  simp [Expr.parts, Expr.children] at h

/-- An operator on operands without reductions is without reductions. -/
theorem Expr.WithoutReduction.binary {x y : Expr} (hx : x.WithoutReduction)
    (hy : y.WithoutReduction) (op : BinaryOp) : (Expr.binary x op y).WithoutReduction := by
  refine .intro nofun fun part hpart => ?_
  rcases List.mem_cons.mp hpart with rfl | hpart
  · exact hx
  · obtain rfl := List.mem_singleton.mp hpart
    exact hy

/-- No scope of an environment is one of iterators. -/
def Env.WithoutIterators (env : Env) : Prop :=
  ∀ frame ∈ env.frames, frame.kind ≠ .iteratorScope

/-- Concealing brings in no iterators. -/
theorem Env.WithoutIterators.conceal {env : Env} (h : env.WithoutIterators) :
    env.conceal.WithoutIterators := by
  intro frame hframe
  rw [frames_conceal] at hframe
  obtain ⟨frame', hframe', rfl⟩ := List.mem_map.mp hframe
  exact h frame' hframe'

/-- A scope of values that is not one of iterators brings in none. -/
theorem Env.WithoutIterators.bindValues {env : Env} (h : env.WithoutIterators) (name : String)
    {kind : ScopeKind} (hkind : kind ≠ .iteratorScope) (bindings : List (String × Ty × Value)) :
    (env.bindValues name kind bindings).WithoutIterators := by
  intro frame hframe
  rw [frames, outer_bindValues] at hframe
  rcases List.mem_cons.mp hframe with rfl | hframe
  · rw [kind_bindValues]
    exact hkind
  · exact h frame hframe

/-- A variable that is found is no iterator, and the environment that it is declared in has none. -/
theorem Env.WithoutIterators.lookup {env : Env} (h : env.WithoutIterators) {name : String}
    {found : Found} (hfound : env.lookup name = some found) :
    found.isIterator = false ∧ found.env.WithoutIterators := by
  obtain ⟨hsuffix, -, -, hkind⟩ := findVariable_spec hfound
  refine ⟨?_, fun frame hframe => h frame (hsuffix.subset hframe)⟩
  rw [hkind]
  simpa using h _ (hsuffix.subset List.mem_cons_self)

/-- Without iterators the innermost frame is no scope of iterators. -/
theorem Env.WithoutIterators.inIteratorScope {env : Env} (h : env.WithoutIterators) :
    env.inIteratorScope = false := by
  simpa [Env.inIteratorScope] using h env.innermost List.mem_cons_self

/-- Without iterators varying variables may not be read in explicit mode. -/
theorem Env.WithoutIterators.not_mayRead {env : Env} (h : env.WithoutIterators) {found : Found}
    (hfound : found.isIterator = false) (reporting : Reporting) :
    Request.mayRead ⟨env, .explicit, reporting⟩ found .varying = false := by
  simp [Request.mayRead, h.inIteratorScope, hfound, Variability.isEvaluable, Mode.readsVariables]

/-- Where the neighbouring phases bring in no reductions, and do not look at what is concealed. -/
structure Evaluator.Plain (ev : Evaluator) (plan : Plan) : Prop extends
    ev.StaysWithin plan Expr.WithoutReduction where
  plan_conceal : ∀ functions env call values mode,
    plan functions env.conceal call values mode = plan functions env call values mode
  elaborate_conceal : ∀ env code, ev.elaborate env.conceal code = ev.elaborate env code

/-! ## An environment and the concealed one side by side -/

/-- The concealed environment and the environment itself. -/
def View.either (concealed : Bool) : View := if concealed then .concealed else .inMode id

/-- Runs that are the same, in explicit mode and without iterators, as an alignment. -/
def concealment : Alignment Bool where
  Aligned x := x true = x false
  Alike := SameFailure
  Admits env mode r := mode = .explicit ∧ env.WithoutIterators
    ∧ env.KeepsTo Expr.WithoutReduction ∧ r true = r false
  Meets := Expr.WithoutReduction
  Iterates := False
  isFatal_eq := SameFailure.isFatal_eq
  alike_moreTelling := SameFailure.moreTelling
  alike_of := SameFailure.of
  admits_bindValues h name kind bindings hkind :=
    ⟨h.1, h.2.1.bindValues name hkind bindings, h.2.2.1.bindValues name kind bindings, h.2.2.2⟩
  iterates h := h.not_reduction
  admits_keepsTo h := h.2.2.1
  pure _ := rfl
  throw := SameRun.throw
  bind := SameRun.bind
  modifyLog _ := rfl

/-- Concealment may catch failures and go on. -/
theorem concealment_rescues : concealment.Rescues := by
  intro α β x k hx hok herror hfatal
  exact SameRun.rescue hx hok (fun f hf => herror (fun _ => f) rfl fun _ => hf) hfatal

/-- Concealment may hand failures over as diagnostics. -/
theorem concealment_reports : concealment.Reports := by
  rintro α env mode r x ⟨-, -, -, hr⟩ hx
  show (x true).reporting (r true) = (x false).reporting (r false)
  rw [show x true = x false from hx, hr]

/-- The steps on either side see the environment in their way. -/
def Steps.either (s : Steps) (concealed : Bool) : Steps := s.via (.either concealed)

section

variable {ev : Evaluator} {s : Steps} {env : Env} {mode : Mode} {r : Bool → Reporting}
  (hr : concealment.Admits env mode r)
  (h : concealment.Stepwise ev (fun _ => ev.config.recursionLimit) s.either)

include hr h

/-- A variable without a binding is read alike in both environments. -/
theorem unbound_concealed {found : Found} (hbinding : found.declared.binding = .unbound)
    (name : String) (ty : Ty) :
    s.unbound ev ⟨env.conceal, mode, r true⟩ found.conceal name ty
      = s.unbound ev ⟨env, mode, r false⟩ found name ty := by
  have hsame : found.declared.conceal = found.declared := by
    obtain ⟨⟨ty, variability, binding⟩, scope, isIterator, seen⟩ := found
    cases hbinding
    rfl
  have hdeclared : ∀ b : Bool,
      (if b then found.conceal else found).declared = found.declared := by
    intro b
    cases b with
    | false => rfl
    | true => exact hsame
  have hscope : ∀ b : Bool, (if b then found.conceal else found).scope = found.scope := by
    intro b
    cases b <;> rfl
  have hmode : ∀ b, (View.either b).mode mode = mode := by
    intro b
    cases b <;> rfl
  have haligned : concealment.Aligned fun b =>
      s.unbound ev ((View.either b).see ⟨env, mode, r b⟩) (if b then found.conceal else found) name
        ty :=
    h.unbound_of_views hr _ hdeclared hscope (fun b => by rw [hmode]) rfl
  exact haligned

/-- A variable is read without a look at what is concealed: where it is not readable this is found
out first. -/
theorem readVariable_concealed (name : String) (ty : Ty) :
    concealment.Aligned fun b =>
      s.readVariable ev ((View.either b).see ⟨env, mode, r b⟩) name ty := by
  obtain ⟨rfl, hiterators, -⟩ := id hr
  show s.readVariable ev ⟨env.conceal, .explicit, r true⟩ name ty
    = s.readVariable ev ⟨env, .explicit, r false⟩ name ty
  simp only [Steps.readVariable, Env.lookup_conceal]
  cases hfound : env.lookup name with
  | none => rfl
  | some found =>
    have hconcealed : found.conceal.declared.binding = found.declared.binding.conceal := rfl
    simp only [Option.map_some, hconcealed]
    cases hbinding : found.declared.binding with
    | value v => simp only [Binding.conceal]
    | unbound => exact unbound_concealed hr h hbinding name ty
    | expression e variability cached =>
      cases hevaluable : variability.isEvaluable with
      | false =>
        obtain rfl : variability = .varying := Variability.eq_varying hevaluable
        obtain ⟨hiterator, -⟩ := hiterators.lookup hfound
        have hitself := hiterators.not_mayRead hiterator (r false)
        have hconcealed : Request.mayRead ⟨env.conceal, .explicit, r true⟩ found.conceal .varying
            = false := hiterators.conceal.not_mayRead hiterator (r true)
        simp only [Binding.conceal, hitself, hconcealed]
        rfl
      | true =>
        have hsame := Variable.conceal_of_evaluable hbinding hevaluable
        have hsame' : (Binding.expression e variability cached).conceal
            = .expression e variability cached := by
          rw [← hbinding]
          exact congrArg Variable.binding hsame
        simp only [hsame', Request.mayRead_of_isEvaluable hevaluable]
        cases cached with
        | some v => rfl
        | none => exact h.force hr hfound hbinding

end

section

variable {ev : Evaluator} {plan : Plan} (hplain : ev.Plain plan)

include hplain

/-- Steps that see the environment or the concealed one do the same if evaluation and splicing
do. -/
theorem stepwise_either {s : Steps}
    (heval : ∀ {env mode} {r : Bool → Reporting}, concealment.Admits env mode r → ∀ k {e},
      e.WithoutReduction → concealment.Aligned fun b => (s.either b).evalAfter k ⟨env, mode, r b⟩ e)
    (hsplice : ∀ {env mode} {r : Bool → Reporting}, concealment.Admits env mode r → ∀ code,
      concealment.Aligned fun b => (s.either b).splice ⟨env, mode, r b⟩ code) :
    concealment.Stepwise ev (fun _ => ev.config.recursionLimit) s.either := by
  refine Alignment.stepwise_of_executes hplain.toStaysWithin concealment_rescues
    concealment_reports (fun _ => rfl) rfl (fun _ => rfl) ?_ ?_ heval hsplice
  · rintro env mode r ⟨hmode, hiterators, hkeeps, -⟩ r'
    exact ⟨hmode, hiterators, hkeeps, rfl⟩
  · rintro env mode r ⟨hmode, hiterators, hkeeps, hr⟩ name found e v hfound hbinding
    exact ⟨hmode, (hiterators.lookup hfound).2, (hkeeps.lookup hfound hbinding).2, hr⟩

/-- With any number of levels left every step does the same in the concealed environment. -/
theorem stepwise_concealed (n : Nat) :
    concealment.Stepwise ev (fun _ => ev.config.recursionLimit) (ev.steps n).either := by
  induction n with
  | zero => exact stepwise_either hplain (fun _ _ _ _ => rfl) fun _ _ => rfl
  | succ n ih =>
    refine stepwise_either hplain (fun {env mode r} hr k e he => ?_) fun {env mode r} hr code => ?_
    · cases k with
      | zero =>
        have hsame : ∀ b functions call values,
            plan functions ((View.either b).env env) call values ((View.either b).mode mode)
              = plan functions env call values mode := by
          intro b functions call values
          cases b with
          | false => rfl
          | true => exact hplain.plan_conceal functions env call values mode
        refine concealment.bind (concealment.count fun _ => rfl) fun _ => ?_
        exact ih.rule_of_views hr hplain.executes hsame he fun _ _ _ _ =>
          readVariable_concealed hr ih _ _
      | succ k => exact ih.evalAfter hr k he
    · have hsplice := ih.spliceParts hr code
      have hvia : ∀ b, ((ev.steps n).either b).spliceParts ev ⟨env, mode, r b⟩ code
          = (ev.steps n).spliceParts ev ((View.either b).see ⟨env, mode, r b⟩) code := by
        intro b
        cases b with
        | false => exact Steps.spliceParts_via fun _ => rfl
        | true => exact Steps.spliceParts_via fun marked => hplain.elaborate_conceal env marked
      exact (hvia true).symm.trans (hsplice.trans (hvia false))

end

/-- Explicit evaluation does not look at variables that vary: it does the same, log included, in two
environments that differ only in what varying variables are bound to, without iterators and without
reductions among the expressions that are met. -/
theorem explicit_noninterference (ev : Evaluator) {plan : Plan} (hplain : ev.Plain plan)
    {env env' : Env} (hsame : env.conceal = env'.conceal) (hiterators : env.WithoutIterators)
    (hiterators' : env'.WithoutIterators) (hkeeps : env.KeepsTo Expr.WithoutReduction)
    (hkeeps' : env'.KeepsTo Expr.WithoutReduction) {e : Expr} (he : e.WithoutReduction)
    (reporting : Reporting) (ctx : Context) (log : Log) :
    ev.evaluate ⟨env, .explicit, reporting⟩ e ctx log
      = ev.evaluate ⟨env', .explicit, reporting⟩ e ctx log := by
  have hconcealed : ∀ {env : Env}, env.WithoutIterators → env.KeepsTo Expr.WithoutReduction →
      ev.start.eval ⟨env.conceal, .explicit, reporting⟩ e
        = ev.start.eval ⟨env, .explicit, reporting⟩ e := by
    intro env hiterators hkeeps
    have hr : concealment.Admits env .explicit fun _ => reporting :=
      ⟨rfl, hiterators, hkeeps, rfl⟩
    exact (stepwise_concealed hplain (ev.config.recursionLimit + 1)).eval hr he
  unfold Evaluator.evaluate
  rw [← hconcealed hiterators hkeeps, hsame, hconcealed hiterators' hkeeps']

/-- The setting with the variable `p`, and a varying variable `v` next to it. -/
def Setting.addsPNextTo (binding : Expr) (cached : Option Value) : Env :=
  Setting.addsP.env.define "v" ⟨.integer, .varying, .expression binding .varying cached⟩

/-- The environment with a binding next to `p` keeps to expressions without reductions if the
binding is one. -/
theorem Setting.keepsTo_addsPNextTo {binding : Expr} (hbinding : binding.WithoutReduction)
    (cached : Option Value) :
    (Setting.addsPNextTo binding cached).KeepsTo Expr.WithoutReduction := by
  have hone : (Expr.integer 1).WithoutReduction := Expr.withoutReduction_of_parts rfl
  intro frame hframe
  obtain rfl := List.mem_singleton.mp hframe
  refine ⟨fun hmem hbound => ?_, nofun⟩
  rcases List.mem_cons.mp hmem with heq | hmem
  · cases heq
    cases hbound
    exact hbinding
  · cases List.mem_singleton.mp hmem
    cases hbound
    exact hone.binary hone _

/-- Adding `p` by a plan meets no reductions and no iterators. -/
theorem Setting.plain_addsP :
    Setting.addsP.evaluator.Plain fun _ _ _ values _ => Execution.addsP values := by
  have hleaf : ∀ name, (Expr.reference [.mk name []] .unknown).WithoutReduction :=
    fun _ => Expr.withoutReduction_of_parts rfl
  refine ⟨⟨fun _ _ _ _ _ => rfl, fun _ _ _ values _ => ?_,
    ⟨Expr.WithoutReduction.parts, id, nofun⟩⟩, fun _ _ _ _ _ => rfl, fun _ _ => rfl⟩
  unfold Execution.addsP
  split
  · exact .body _ _ _ ((hleaf "x").binary (hleaf "p") _) fun v => .finish _
  · exact .finish _

/-- The call `f(3)` adds `p` to its argument in the same way whether `v` is bound to 1 or to `p`,
which is taken to be 7. -/
theorem explicit_noninterference_addsP :
    Setting.addsP.evaluator.evaluate
        ⟨Setting.addsPNextTo (.integer 1) none, .explicit, .silent⟩
        (.call (.ident "f") [.integer 3] .unknown false false) .empty (.start .standard)
      = Setting.addsP.evaluator.evaluate
        ⟨Setting.addsPNextTo (.reference [.mk "p" []] .unknown) (some (.integer 7)), .explicit,
          .silent⟩
        (.call (.ident "f") [.integer 3] .unknown false false) .empty (.start .standard) := by
  have hinteger : ∀ n, (Expr.integer n).WithoutReduction :=
    fun _ => Expr.withoutReduction_of_parts rfl
  have hiterators : ∀ {binding cached}, (Setting.addsPNextTo binding cached).WithoutIterators := by
    intro binding cached frame hframe
    obtain rfl := List.mem_singleton.mp hframe
    nofun
  have hcall : (Expr.call (.ident "f") [.integer 3] .unknown false false).WithoutReduction := by
    refine .intro nofun fun part hpart => ?_
    obtain rfl := List.mem_singleton.mp hpart
    exact hinteger 3
  have hsame : (Setting.addsPNextTo (.integer 1) none).conceal
      = (Setting.addsPNextTo (.reference [.mk "p" []] .unknown) (some (.integer 7))).conceal := rfl
  exact explicit_noninterference _ Setting.plain_addsP hsame hiterators hiterators
    (Setting.keepsTo_addsPNextTo (hinteger 1) none)
    (Setting.keepsTo_addsPNextTo (Expr.withoutReduction_of_parts rfl) _) hcall .silent .empty
    (.start .standard)

end ModelicaFold
