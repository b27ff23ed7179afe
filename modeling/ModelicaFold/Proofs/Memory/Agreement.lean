import ModelicaFold.Proofs.Memory.Fresh
import ModelicaFold.Proofs.Runs.Following

/-!
# Evaluation agrees with fresh evaluation

Evaluation from a faithful context leads, and fresh evaluation follows it, at any number of levels
and from contexts that remember no more. Forcing a binding agrees because what a faithful context
remembers is what fresh evaluation gives, and it leaves a faithful context because the binding that
it evaluates, at whatever depth, agrees with fresh evaluation (`Setting.force_agrees`). By induction
on the number of levels left every step agrees (`Setting.stepwise_fresh`).
-/

namespace ModelicaFold

open Filter

/-- What holds from some number on holds of all successors from some number on. -/
theorem eventually_succ {p : Nat → Prop} :
    (∀ᶠ n in atTop, p n) ↔ ∀ᶠ n in atTop, p (n + 1) := by
  rw [← eventually_map (m := fun n => n + 1), map_add_atTop_eq_nat]

namespace EvalM

variable {α : Type} {x : EvalM α} {ctx : Context} {log : Log}

/-- A step that succeeds without remembered values does so afresh and remembers what it found. -/
theorem afresh_of_ok {a : α} {found : Context}
    (h : (x (.ofFunctions ctx.functions) log).1 = .ok (a, found)) :
    (x.afresh ctx log).1 = .ok (a, ctx.merge found) := by
  rw [afresh, run_eq h]

/-- A step that fails without remembered values fails afresh. -/
theorem afresh_of_error {f : Failure}
    (h : (x (.ofFunctions ctx.functions) log).1 = .error f) :
    (x.afresh ctx log).1 = .error f := by
  rw [afresh, run_eq h]

end EvalM

namespace Setting

/-- Fresh evaluation follows evaluation from a faithful context: it remembers no more, but all that
is new. Only enough levels matter. -/
def fresh (σ : Setting) : Following Nat where
  almostAll := atTop
  neBot := atTop_neBot
  Admits := σ.Admits
  Leads := σ.Faithful
  Follows D F := F.Within D
  Grows := Context.Grow
  admits_bindValues := Admits.bindValues
  functions_eq h := h.functions
  refl := .refl
  trans := .trans
  follows h := h.within

variable {σ : Setting} {α : Type}

/-! ## One level further up -/

section

variable {x y : Option Nat → EvalM α}

/-- With one level more on both sides a step agrees that hands on to the level below. -/
theorem agrees_shift (h : σ.fresh.Agrees y) (hnone : x none = y none)
    (hsome : ∀ n, x (some (n + 1)) = y (some n)) : σ.fresh.Agrees x := by
  intro D log F logs hD hF
  have h := h D log (fun n => F (n + 1)) (fun n => logs (n + 1)) hD (eventually_succ.mp hF)
  constructor
  · intro a D' hrun
    rw [hnone] at hrun
    obtain ⟨hD', hfresh⟩ := h.ok hrun
    refine ⟨hD', eventually_succ.mpr ?_⟩
    simp only [hsome]
    exact hfresh
  · intro f hrun
    rw [hnone] at hrun
    refine (h.error hrun).imp_right fun hfresh => eventually_succ.mpr ?_
    simp only [hsome]
    exact hfresh

/-- A step that is taken afresh agrees if the step does that is taken from the context: what the
context remembers is of no influence. -/
theorem agrees_afresh (h : σ.fresh.Agrees y) (hnone : x none = y none)
    (hsome : ∀ n, x (some (n + 1)) = (y (some n)).afresh) : σ.fresh.Agrees x := by
  intro D log F logs hD hF
  have h := h D log (fun _ => .ofFunctions D.functions) (fun n => logs (n + 1)) hD
    (.of_forall fun _ => .ofFunctions D)
  have hwithin := eventually_succ.mp hF
  constructor
  · intro a D' hrun
    rw [hnone] at hrun
    obtain ⟨hD', hfresh⟩ := h.ok hrun
    refine ⟨hD', eventually_succ.mpr ?_⟩
    filter_upwards [hwithin, hfresh] with n hn ⟨found, hrun', hgrow⟩
    have hn' := hn.trans hgrow.left
    have hfound : found.Within ((F (n + 1)).merge found) :=
      Context.within_merge_right hn' hgrow.within
    refine ⟨(F (n + 1)).merge found, ?_, hgrow.left, Context.within_merge _ _,
      Context.merge_within hn' hgrow.within, hgrow.new.trans (Context.merge_within_merge hfound)⟩
    rw [hsome]
    exact EvalM.afresh_of_ok (by rw [hn.functions]; exact hrun')
  · intro f hrun
    rw [hnone] at hrun
    refine (h.error hrun).imp_right fun hfresh => eventually_succ.mpr ?_
    filter_upwards [hwithin, hfresh] with n hn ⟨g, hrun', hcause⟩
    refine ⟨g, ?_, hcause⟩
    rw [hsome]
    exact EvalM.afresh_of_error (by rw [hn.functions]; exact hrun')

end

/-! ## The value of a binding -/

/-- Steps of the run from a faithful context, and the steps of fresh evaluation at each number of
levels. -/
def alongside (σ : Setting) (s : Steps) : Option Nat → Steps
  | none => s
  | some n => σ.evaluator.freshSteps n

/-- Evaluation by steps agrees with fresh evaluation. -/
def Evaluates (σ : Setting) (s : Steps) : Prop :=
  ∀ ⦃env : Env⦄, σ.env.Extends env → ∀ (r : Option Nat → Reporting) (k : Nat) (e : Expr),
    σ.fresh.Agrees fun i => (σ.alongside s i).evalAfter k ⟨env, σ.mode, r i⟩ e

section

variable {s : Steps} (hs : σ.Evaluates s) {env : Env} (henv : σ.env.Extends env) {D : Context}
  (hD : σ.Faithful D) {r : Reporting} {e : Expr} {log : Log}

include hs henv hD

/-- From a faithful context fresh evaluation follows from a context that remembers nothing. -/
theorem Evaluates.agreesFrom (r' : Nat → Reporting) (logs : Nat → Log) :
    σ.fresh.AgreesFrom
      (fun i => (σ.alongside s i).eval ⟨env, σ.mode, i.elim r r'⟩ e) D log
      (fun _ => .ofFunctions D.functions) logs :=
  hs henv (fun i => i.elim r r') 0 e D log _ logs hD (.of_forall fun _ => .ofFunctions D)

/-- A successful evaluation gives the value of an expression, at whatever depth it is made and
whatever a faithful context remembers. -/
theorem Evaluates.hasValue {D' : Context} {v : Value}
    (hrun : (s.eval ⟨env, σ.mode, r⟩ e D log).1 = .ok (v, D')) :
    σ.Faithful D' ∧ D.Within D' ∧ σ.HasValue D' env e v := by
  have h := fun r' logs => (hs.agreesFrom henv hD r' logs).ok hrun
  obtain ⟨hD', hfresh⟩ := h (fun _ => .silent) fun _ => log
  obtain ⟨n, found, -, hgrow⟩ := hfresh.exists
  refine ⟨hD', hgrow.left, fun r' logs => ?_⟩
  filter_upwards [(h r' logs).2] with n ⟨found, hrun', hgrow⟩
  exact ⟨found, hgrow.left.functions ▸ hrun', hgrow.within⟩

end

/-! ## Forced bindings -/

section

variable {s : Steps} (hs : σ.Evaluates s) {env : Env} (henv : σ.env.Extends env)
  {name : String} {found : Found} {e : Expr} {variability : Variability}
  (hfound : env.lookup name = some found)
  (hbinding : found.declared.binding = .expression e variability none)
  (hiterator : found.isIterator = false) {D : Context} (hD : σ.Faithful D) {log : Log}
  {F : Nat → Context} {logs : Nat → Log} (hF : ∀ᶠ n in atTop, (F n).Within D)
  (r : Option Nat → Reporting)

include henv hfound hbinding hiterator hD hF

/-- A remembered value is the one that fresh evaluation gives, which remembers nothing on the way
that is not remembered already. -/
theorem force_known_agrees {v : Value}
    (hv : D.constant? (Context.key found.scope name) = some v) :
    σ.fresh.AgreesFrom (fun i => (σ.alongside s i).force ⟨env, σ.mode, r i⟩ found name e)
      D log F logs := by
  obtain ⟨hdecl, hkey⟩ := henv.declared hfound hbinding hiterator
  obtain ⟨hrefers, hvalue⟩ := hD hdecl (hkey ▸ hv)
  refine .of_ok (Steps.force_known hiterator hv) hD ?_
  filter_upwards [hF, hvalue (fun n => r (some n)) logs] with n hn ⟨new, hfresh, hnew⟩
  cases hknown : (F n).constant? (Context.key found.scope name) with
  | some w =>
    obtain rfl := hn.constant?_eq hknown hv
    exact ⟨F n, Steps.force_known hiterator hknown, .refl hn⟩
  | none =>
    rw [← hn.functions] at hfresh
    refine ⟨_, Steps.force_of_ok hiterator hknown hrefers (Evaluator.eval_freshSteps hfresh),
      .refl D, ?_, ?_, D.within_merge _⟩
    · exact (Context.within_merge _ _).trans (Context.within_remember _ _ _)
    · exact Context.remember_within (Context.merge_within hn hnew) hv

include hs

/-- A binding that is not remembered is evaluated in all runs, and its value is remembered. -/
theorem force_new_agrees (hkeys : σ.env.KeysDistinct)
    (hnone : D.constant? (Context.key found.scope name) = none) :
    σ.fresh.AgreesFrom (fun i => (σ.alongside s i).force ⟨env, σ.mode, r i⟩ found name e)
      D log F logs := by
  have hnew : ∀ᶠ n in atTop, (F n).constant? (Context.key found.scope name) = none := by
    filter_upwards [hF] with n hn
    exact hn.constant?_eq_none hnone
  cases hrefers : e.refersTo name with
  | true =>
    refine .of_error (Steps.force_self hiterator hnone hrefers) (.inr ?_)
    filter_upwards [hnew] with n hn
    exact ⟨_, Steps.force_self hiterator hn hrefers, rfl⟩
  | false =>
    have henv' := henv.found hfound hbinding
    have heval := hs henv' r 0 e D log F logs hD hF
    cases hrun : (s.eval ⟨found.env, σ.mode, r none⟩ e D log).1 with
    | error f =>
      refine .of_error (Steps.force_of_error hiterator hnone hrefers hrun)
        ((heval.error hrun).imp_right fun hfresh => ?_)
      filter_upwards [hnew, hfresh] with n hn ⟨g, hg, hcause⟩
      exact ⟨g, Steps.force_of_error hiterator hn hrefers hg, hcause⟩
    | ok done =>
      obtain ⟨v, D'⟩ := done
      obtain ⟨hdecl, hkey⟩ := henv.declared hfound hbinding hiterator
      obtain ⟨hD', -, hv⟩ := hs.hasValue henv' hD hrun
      refine .of_ok (Steps.force_of_ok hiterator hnone hrefers hrun) ?_ ?_
      · rw [hkey]
        exact hD'.remember hkeys hdecl hrefers hv
      · filter_upwards [hnew, (heval.ok hrun).2] with n hn ⟨F', hrun', hgrow⟩
        refine ⟨_, Steps.force_of_ok hiterator hn hrefers hrun', hgrow.remember hnone ?_⟩
        rw [hkey]
        exact fun w => hD'.constant?_eq hdecl hv

end

/-- Forcing a binding agrees with fresh evaluation. -/
theorem force_agrees (hkeys : σ.env.KeysDistinct) {s : Steps} (hs : σ.Evaluates s) {env : Env}
    (henv : σ.env.Extends env) (r : Option Nat → Reporting) {name : String} {found : Found}
    {e : Expr} {variability : Variability} (hfound : env.lookup name = some found)
    (hbinding : found.declared.binding = .expression e variability none) :
    σ.fresh.Agrees fun i => (σ.alongside s i).force ⟨env, σ.mode, r i⟩ found name e := by
  cases hiterator : found.isIterator with
  | true =>
    simp only [Steps.force_iterator hiterator]
    exact σ.fresh.alignment.ite (fun _ => σ.fresh.alignment.fail _) fun _ =>
      hs (henv.found hfound hbinding) r 0 e
  | false =>
    intro D log F logs hD hF
    cases hknown : D.constant? (Context.key found.scope name) with
    | some v => exact force_known_agrees henv hfound hbinding hiterator hD hF r hknown
    | none => exact force_new_agrees hs henv hfound hbinding hiterator hD hF r hkeys hknown

/-! ## Every level -/

/-- The limit in all runs is that of the evaluator. -/
def limit (σ : Setting) {ι : Type} : ι → Nat := fun _ => σ.evaluator.config.recursionLimit

/-- If evaluation agrees with fresh evaluation, so does every step one level down. -/
theorem stepwise_of_evaluates (hkeys : σ.env.KeysDistinct) (hcall : σ.evaluator.ExecutesBodies)
    {s : Steps} (hs : σ.Evaluates s)
    (hsplice : ∀ ⦃env : Env⦄, σ.env.Extends env → ∀ (r : Option Nat → Reporting) (code : Code),
      σ.fresh.Agrees fun i => (σ.alongside s i).splice ⟨env, σ.mode, r i⟩ code) :
    σ.fresh.alignment.Stepwise σ.evaluator σ.limit (σ.alongside s) := by
  refine σ.fresh.stepwise hcall ?_ ?_ ?_
  · rintro env mode ⟨henv, rfl⟩ r k e
    exact hs henv r k e
  · rintro env mode ⟨henv, rfl⟩ r code
    exact hsplice henv r code
  · rintro env mode ⟨henv, rfl⟩ r name found e variability hfound hbinding
    exact force_agrees hkeys hs henv r hfound hbinding

/-- With any number of levels left every step agrees with fresh evaluation. -/
theorem stepwise_fresh (hkeys : σ.env.KeysDistinct) (hcall : σ.evaluator.ExecutesBodies)
    (n : Nat) :
    σ.fresh.alignment.Stepwise σ.evaluator σ.limit (σ.alongside (σ.evaluator.steps n)) := by
  induction n with
  | zero =>
    exact stepwise_of_evaluates hkeys hcall (fun _ _ _ _ _ => .refused rfl)
      fun _ _ _ _ => .refused rfl
  | succ n ih =>
    -- a follower with `n + 1` levels reports as the step does that it takes with `n` levels
    let below (r : Option Nat → Reporting) (i : Option Nat) : Reporting := r (i.map (· + 1))
    refine stepwise_of_evaluates hkeys hcall (fun env henv r k e => ?_) fun env henv r code => ?_
    · cases k with
      | zero =>
        have hrule := ih.rule (r := below r) (e := e) ⟨henv, rfl⟩ trivial
        have hcount := σ.fresh.alignment.count
          (g := fun c => { c with expressions := c.expressions + 1 }) fun _ => rfl
        exact agrees_afresh (hcount.bind fun _ => hrule) rfl fun _ => rfl
      | succ k =>
        have heval := ih.evalAfter (r := below r) (e := e) ⟨henv, rfl⟩ k trivial
        exact agrees_shift heval rfl fun _ => rfl
    · exact agrees_shift (ih.spliceParts (r := below r) ⟨henv, rfl⟩ code) rfl fun _ => rfl

/-- Evaluation agrees with fresh evaluation at every number of levels. -/
theorem evaluates_steps (hkeys : σ.env.KeysDistinct) (hcall : σ.evaluator.ExecutesBodies)
    (n : Nat) : σ.Evaluates (σ.evaluator.steps n) :=
  fun _ henv _ k e => (stepwise_fresh hkeys hcall n).evalAfter (e := e) ⟨henv, rfl⟩ k trivial

end Setting

end ModelicaFold
