import ModelicaFold.Proofs.Memory.Agreement
import ModelicaFold.Proofs.Runs.Views

/-!
# Expressions over constants and parameters

The mode decides whether a varying variable may be read, and how the failure to read an unbound one
is reported. Where the expressions that are met refer to constants and parameters only, it is left
with the latter: in both modes evaluation has the same outcome, but for the causes of failures that
are not fatal (`Evaluator.endSame_eval`). Bindings have the same values in both modes then
(`Evaluator.modesAgree_of_fixed`).
-/

namespace ModelicaFold

open Filter Outcome

/-- Bindings have the same values in both modes. -/
def Evaluator.ModesAgree (ev : Evaluator) (env : Env) : Prop :=
  ∀ ⦃scope : Env⦄ ⦃name : String⦄ ⦃e : Expr⦄, env.Declares scope name e →
    ∀ (mode mode' : Mode) (D : Context) (v : Value),
      (Setting.mk ev env mode).HasValue D scope e v → (Setting.mk ev env mode').HasValue D scope e v

/-! ## Steps in both modes -/

/-- How steps end in the two modes that begin with the same context. -/
inductive EndSame {α : Type} (x : Mode → EvalM α) (ctx : Context) (logs : Mode → Log) : Prop where
  | ok (a : α) (ctx' : Context) (h : ∀ mode, (x mode ctx (logs mode)).1 = .ok (a, ctx'))
  | error (f : Mode → Failure) (h : ∀ mode, (x mode ctx (logs mode)).1 = .error (f mode))
      (hf : ∀ mode mode', (f mode).cause.isFatal = (f mode').cause.isFatal)

/-- Steps that come to others which end the same. -/
theorem EndSame.of_eq {α : Type} {x y : Mode → EvalM α} {ctx ctx' : Context}
    {logs logs' : Mode → Log} (h : EndSame y ctx' logs')
    (hstep : ∀ mode, x mode ctx (logs mode) = y mode ctx' (logs' mode)) : EndSame x ctx logs := by
  cases h with
  | ok a ctx'' h => exact .ok a ctx'' fun mode => by rw [hstep, h]
  | error f h hf => exact .error f (fun mode => by rw [hstep, h]) hf

/-- Where steps succeed in one mode they do in the other. -/
theorem EndSame.of_ok {α : Type} {x : Mode → EvalM α} {ctx : Context} {logs : Mode → Log}
    (h : EndSame x ctx logs) {mode : Mode} {a : α} {ctx' : Context}
    (hrun : (x mode ctx (logs mode)).1 = .ok (a, ctx')) (mode' : Mode) :
    (x mode' ctx (logs mode')).1 = .ok (a, ctx') := by
  cases h with
  | ok b ctx'' h => rw [h mode', ← h mode, hrun]
  | error f h _ =>
    rw [h mode] at hrun
    cases hrun

/-- Steps that do the same in both modes, but for the log and the causes of failures that are not
fatal. -/
def SameInModes {α : Type} (x : Mode → EvalM α) : Prop :=
  ∀ ctx logs, EndSame x ctx logs

namespace SameInModes

variable {α β : Type} {x : Mode → EvalM α}

/-- A step that only looks at the context. -/
theorem of_ok (a : Context → α) (change : Context → Context) (note : Log → Log) :
    SameInModes fun _ => (fun ctx log => (.ok (a ctx, change ctx), note log) : EvalM α) :=
  fun ctx _ => .ok (a ctx) (change ctx) fun _ => rfl

/-- A failure ends the same in both modes if it is as fatal in both. -/
theorem throw {f : Mode → Failure}
    (hf : ∀ mode mode', (f mode).cause.isFatal = (f mode').cause.isFatal) :
    SameInModes fun mode => (EvalM.throw (f mode) : EvalM α) :=
  fun _ _ => .error f (fun _ => rfl) hf

/-- A sequence ends the same in both modes if its parts do. -/
theorem bind {k : Mode → α → EvalM β} (hx : SameInModes x)
    (hk : ∀ a, SameInModes fun mode => k mode a) : SameInModes fun mode => x mode >>= k mode := by
  intro ctx logs
  cases hx ctx logs with
  | ok a ctx' h =>
    have hnext := hk a ctx' fun mode => (x mode ctx (logs mode)).2
    exact hnext.of_eq fun mode => EvalM.bind_of_ok (h mode) _
  | error f h hf => exact .error f (fun mode => by rw [EvalM.bind_of_error (h mode)]) hf

/-- A failure may be handled in any way that is the same in both modes. -/
theorem handle {k : Mode → Except Failure α → EvalM β} (hx : SameInModes x)
    (hok : ∀ a, SameInModes fun mode => k mode (.ok a))
    (herror : ∀ f : Mode → Failure,
      (∀ mode mode', (f mode).cause.isFatal = (f mode').cause.isFatal) →
      SameInModes fun mode => k mode (.error (f mode))) :
    SameInModes fun mode => (x mode).attempt >>= k mode := by
  intro ctx logs
  cases hx ctx logs with
  | ok a ctx' h =>
    have hnext := hok a ctx' fun mode => (x mode ctx (logs mode)).2
    exact hnext.of_eq fun mode => by rw [EvalM.bind_apply, EvalM.attempt_of_ok (h mode)]
  | error f h hf =>
    have hnext := herror f hf ctx fun mode => (x mode ctx (logs mode)).2
    exact hnext.of_eq fun mode => by rw [EvalM.bind_apply, EvalM.attempt_of_error (h mode)]

/-- Reporting failures leaves steps ending the same. -/
theorem reporting (hx : SameInModes x) (r : Mode → Reporting) :
    SameInModes fun mode => (x mode).reporting (r mode) := by
  intro ctx logs
  cases hx ctx logs with
  | ok a ctx' h => exact .ok a ctx' fun mode => EvalM.reporting_of_ok (h mode) (r mode)
  | error f h hf =>
    have hreport := fun mode => EvalM.reporting_of_error (h mode) (r mode)
    choose g hg hcause using hreport
    exact .error g hg fun mode mode' => by rw [hcause, hcause, hf mode mode']

/-- A step that ends the same in both modes does so without remembered values. -/
theorem afresh (hx : SameInModes x) : SameInModes fun mode => (x mode).afresh := by
  intro ctx logs
  cases hx (.ofFunctions ctx.functions) logs with
  | ok a found h => exact .ok a (ctx.merge found) fun mode => EvalM.afresh_of_ok (h mode)
  | error f h hf => exact .error f (fun mode => EvalM.afresh_of_error (h mode)) hf

end SameInModes

/-! ## References to constants and parameters -/

/-- A variable that has a value, or may be given one, in every mode. -/
def Variable.isFixed (v : Variable) : Bool :=
  match v.binding with
  | .value _ => true
  | .unbound => v.variability.isEvaluable
  | .expression _ variability _ => variability.isEvaluable

/-- The expressions that an environment declares are in a set, and the references in this set are to
variables that are fixed, wherever they are declared. -/
structure Env.Fixes (env : Env) (M : Expr → Prop) : Prop where
  keeps : env.KeepsTo M
  fixed : ∀ {parts : Reference} {ty : Ty}, M (.reference parts ty) → ∀ n, ∀ frame ∈ env.frames,
    ∀ declared, frame.vars.lookup (Reference.name (parts.take n)) = some declared →
      declared.isFixed = true

/-- The declared part of a reference is a prefix of it. -/
theorem Env.splitReference_eq_take (env : Env) (r : Reference) :
    ∃ n, (env.splitReference r).1 = r.take n := by
  unfold Env.splitReference
  split
  · rename_i n _
    exact ⟨n, rfl⟩
  · exact ⟨r.length, List.take_length.symm⟩

/-- Runs in both modes that meet references to fixed variables only, as an alignment. -/
def inBothModes (start : Env) (M : Expr → Prop) : Alignment Mode where
  Aligned := SameInModes
  Alike f := ∀ mode mode', (f mode).cause.isFatal = (f mode').cause.isFatal
  Admits env _ _ := start.Extends env ∧ env.KeepsTo M
  Meets := M
  Iterates := True
  isFatal_eq h := h
  alike_moreTelling {f g} hf hg mode mode' := by
    rw [EvalM.isFatal_moreTelling, EvalM.isFatal_moreTelling, hf mode mode', hg mode mode']
  alike_of _ _ _ := rfl
  admits_bindValues h name kind bindings _ :=
    ⟨h.1.bindValues name kind bindings, h.2.bindValues name kind bindings⟩
  iterates _ := trivial
  admits_keepsTo h := h.2
  pure a := .of_ok (fun _ => a) id id
  throw := .throw
  bind := .bind
  modifyLog {g} _ := .of_ok (fun _ => ()) id g

/-- Steps in both modes may catch failures and go on. -/
theorem inBothModes_rescues (start : Env) (M : Expr → Prop) : (inBothModes start M).Rescues :=
  (inBothModes start M).rescues_of_handle SameInModes.handle

/-- Steps in both modes may hand failures over as diagnostics. -/
theorem inBothModes_reports (start : Env) (M : Expr → Prop) : (inBothModes start M).Reports :=
  fun _ hx => SameInModes.reporting hx _

section

variable {start : Env} {M : Expr → Prop} (hfixes : start.Fixes M) {ev : Evaluator}

section

variable {s : Steps} {env : Env} {mode : Mode} {r : Mode → Reporting}
  (hr : (inBothModes start M).Admits env mode r)
  (h : (inBothModes start M).Stepwise ev (fun _ => ev.config.recursionLimit)
    fun mode => s.via (.inMode fun _ => mode))

include hfixes hr h

/-- A fixed variable is read in the same way in both modes. -/
theorem readVariable_inBothModes {parts : Reference} {ty : Ty} (hparts : M (.reference parts ty))
    (ty' : Ty) : SameInModes fun m =>
      s.readVariable ev ((View.inMode fun _ => m).see ⟨env, mode, r m⟩)
        (Reference.name (env.splitReference parts).1) ty' := by
  obtain ⟨n, hn⟩ := env.splitReference_eq_take parts
  rw [hn]
  simp only [Steps.readVariable, View.see, View.inMode, id_eq]
  cases hfound : env.lookup (Reference.name (parts.take n)) with
  | none => exact (inBothModes start M).fail _
  | some found =>
    simp only
    have hfixed : (∀ v, found.declared.binding ≠ .value v) → found.declared.isFixed = true := by
      intro hvalue
      obtain ⟨hsuffix, hlookup, -⟩ := hr.1.lookup hfound hvalue
      exact hfixes.fixed hparts n _ (hsuffix.subset List.mem_cons_self) _ hlookup
    cases hbinding : found.declared.binding with
    | value v => exact (inBothModes start M).pure v
    | unbound =>
      have hevaluable := hfixed fun v hv => by rw [hbinding] at hv; cases hv
      simp only [Variable.isFixed, hbinding] at hevaluable
      refine h.unbound_of_views hr (fun _ => found) (fun _ => rfl) (fun _ => rfl) (fun m => ?_) ?_
      · rw [hevaluable]
        rfl
      · intro m m'
        cases m <;> cases m' <;> rfl
    | expression e variability cached =>
      have hevaluable := hfixed fun v hv => by rw [hbinding] at hv; cases hv
      simp only [Variable.isFixed, hbinding] at hevaluable
      simp only [Request.mayRead_of_isEvaluable hevaluable]
      cases cached with
      | some v => exact (inBothModes start M).pure v
      | none => exact h.force hr hfound hbinding

end

/-- The neighbouring phases do not look at the mode, and bring in expressions of a set only. -/
structure Evaluator.Modeless (ev : Evaluator) (plan : Plan) (M : Expr → Prop) : Prop extends
    ev.StaysWithin plan M where
  plan_mode : ∀ functions env call values mode mode',
    plan functions env call values mode = plan functions env call values mode'

variable {plan : Plan} (hmodeless : ev.Modeless plan M)

include hmodeless

/-- The steps in either mode do the same if evaluation and splicing do. -/
theorem stepwise_inMode {s : Steps}
    (heval : ∀ {env mode} {r : Mode → Reporting}, (inBothModes start M).Admits env mode r →
      ∀ k {e}, M e → SameInModes fun m => s.evalAfter k ⟨env, m, r m⟩ e)
    (hsplice : ∀ {env mode} {r : Mode → Reporting}, (inBothModes start M).Admits env mode r →
      ∀ code, SameInModes fun m => s.splice ⟨env, m, r m⟩ code) :
    (inBothModes start M).Stepwise ev (fun _ => ev.config.recursionLimit)
      fun m => s.via (.inMode fun _ => m) :=
  Alignment.stepwise_of_executes hmodeless.toStaysWithin (inBothModes_rescues start M)
    (inBothModes_reports start M) (fun _ _ _ => rfl) (.of_ok id id id)
    (fun g => .of_ok (fun _ => ()) g id) (fun hr _ => hr)
    (fun hr _ _ _ _ hfound hbinding =>
      ⟨hr.1.found hfound hbinding, (hr.2.lookup hfound hbinding).2⟩)
    heval hsplice

include hfixes

/-- With any number of levels left every step of fresh evaluation does the same in both modes. -/
theorem stepwise_inBothModes (n : Nat) :
    (inBothModes start M).Stepwise ev (fun _ => ev.config.recursionLimit)
      fun m => (ev.freshSteps n).via (.inMode fun _ => m) := by
  induction n with
  | zero =>
    have hrefuse : ∀ {α : Type}, SameInModes fun _ => (ev.refuse : EvalM α) := fun {α} =>
      .bind (.of_ok (fun _ => ()) id _) fun _ => (inBothModes start M).fail _
    exact stepwise_inMode hmodeless (fun _ _ _ _ => hrefuse) fun _ _ => hrefuse
  | succ n ih =>
    refine stepwise_inMode hmodeless (fun {env mode r} hr k e he => ?_)
      fun {env mode r} hr code => ?_
    · cases k with
      | zero =>
        refine SameInModes.afresh (.bind ((inBothModes start M).count fun _ => rfl) fun _ => ?_)
        refine ih.rule_of_views hr hmodeless.executes (fun m functions call values =>
          hmodeless.plan_mode functions env call values m mode) he ?_
        rintro parts ty rfl ty'
        exact readVariable_inBothModes hfixes hr ih he ty'
      | succ k => exact ih.evalAfter hr k he
    · have hsplice := ih.spliceParts hr code
      have hvia : ∀ m, ((ev.freshSteps n).via (.inMode fun _ => m)).spliceParts ev
          ⟨env, mode, r m⟩ code = (ev.freshSteps n).spliceParts ev ⟨env, m, r m⟩ code :=
        fun m => Steps.spliceParts_via fun _ => rfl
      exact (congrArg SameInModes (funext hvia)).mp hsplice

/-- Fresh evaluation in the two modes ends the same. -/
theorem Evaluator.endSame_eval (n : Nat) {env : Env} (hextends : start.Extends env)
    (hkeeps : env.KeepsTo M) {e : Expr} (he : M e) (r : Reporting) (ctx : Context) (log : Log) :
    EndSame (fun mode => (ev.freshSteps n).eval ⟨env, mode, r⟩ e) ctx fun _ => log := by
  have hadmits : (inBothModes start M).Admits env .explicit fun _ => r := ⟨hextends, hkeeps⟩
  exact (stepwise_inBothModes hfixes hmodeless n).eval hadmits he ctx fun _ => log

/-- Bindings have the same values in both modes where constants and parameters only are referred
to. -/
theorem Evaluator.modesAgree_of_fixed : ev.ModesAgree start := by
  intro scope name e hdecl mode mode' D v hv r logs
  obtain ⟨declared, variability, cached, hlookup, hbinding⟩ := hdecl.bound
  have hkeeps : scope.KeepsTo M := fun frame hframe =>
    hfixes.keeps frame (hdecl.seen.subset hframe)
  have he : M e := (hkeeps scope.innermost List.mem_cons_self).binding
    (mem_of_lookup_eq_some hlookup) hbinding
  filter_upwards [hv r logs] with n ⟨found, hrun, hwithin⟩
  have hends := endSame_eval hfixes hmodeless n (.seen hdecl.seen) hkeeps he (r n)
    (.ofFunctions D.functions) (logs n)
  exact ⟨found, hends.of_ok hrun mode', hwithin⟩

end

end ModelicaFold
