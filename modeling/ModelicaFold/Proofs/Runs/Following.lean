import Mathlib.Order.Filter.Basic
import ModelicaFold.Eval.Rule
import ModelicaFold.Proofs.Runs.Bodies
import ModelicaFold.Proofs.Runs.Outcome

/-!
# A leading run and the runs that follow it

One run of an evaluation leads and others follow it from contexts of their own: unless the limit
refuses a step of the leading run, they succeed with the same value or fail for the same cause. A
`Following` says which contexts the runs may have and how these grow from step to step; for almost
all of the followers, in the sense of a filter, the growth has to be kept up. Agreement with the
leading run is an alignment (`Following.alignment`), whatever the contexts have to do with each
other: only forcing a binding looks into them.
-/

namespace ModelicaFold

open Filter

/-- Contexts of a leading run and of the runs that follow it. -/
structure Following (J : Type) where
  /-- The sets of followers that are almost all of them. -/
  almostAll : Filter J
  neBot : almostAll.NeBot
  /-- Requests that may be made. -/
  Admits : Env → Mode → Prop
  /-- Contexts that the leading run may have. -/
  Leads : Context → Prop
  /-- The context of a follower next to one of the leading run. -/
  Follows : Context → Context → Prop
  /-- What the two contexts may become. -/
  Grows : Context → Context → Context → Context → Prop
  admits_bindValues : ∀ {env mode}, Admits env mode → ∀ name kind bindings,
    Admits (env.bindValues name kind bindings) mode
  functions_eq : ∀ {D F}, Follows D F → F.functions = D.functions
  refl : ∀ {D F}, Follows D F → Grows D F D F
  trans : ∀ {D F D' F' D'' F''}, Grows D F D' F' → Grows D' F' D'' F'' → Grows D F D'' F''
  follows : ∀ {D F D' F'}, Grows D F D' F' → Follows D' F'

namespace Following

attribute [instance] Following.neBot

variable {J : Type} (P : Following J) {α β : Type}

/-- A step of the leading run, which has no index, and of the runs that follow it: how they agree
from some contexts and logs on. -/
structure AgreesFrom (x : Option J → EvalM α) (D : Context) (log : Log) (F : J → Context)
    (logs : J → Log) : Prop where
  ok : ∀ ⦃a : α⦄ ⦃D' : Context⦄, (x none D log).1 = .ok (a, D') →
    P.Leads D' ∧ ∀ᶠ j in P.almostAll, ∃ F' : Context,
      (x (some j) (F j) (logs j)).1 = .ok (a, F') ∧ P.Grows D (F j) D' F'
  error : ∀ ⦃f : Failure⦄, (x none D log).1 = .error f →
    f.cause.isFatal = true
      ∨ ∀ᶠ j in P.almostAll, FailsFor f.cause (x (some j) (F j) (logs j)).1

/-- The runs agree from all contexts that they may have. -/
def Agrees (x : Option J → EvalM α) : Prop :=
  ∀ (D : Context) (log : Log) (F : J → Context) (logs : J → Log), P.Leads D →
    (∀ᶠ j in P.almostAll, P.Follows D (F j)) → P.AgreesFrom x D log F logs

variable {P}

namespace AgreesFrom

variable {x y : Option J → EvalM α} {D D' : Context} {log log' : Log} {F F' : J → Context}
  {logs logs' : J → Log}

/-- Steps agree if they come to steps that agree. -/
theorem of_eq (h : P.AgreesFrom y D' log' F' logs') (heq : x none D log = y none D' log')
    (hgrows : ∀ᶠ j in P.almostAll, x (some j) (F j) (logs j) = y (some j) (F' j) (logs' j)
      ∧ P.Grows D (F j) D' (F' j)) :
    P.AgreesFrom x D log F logs := by
  constructor
  · intro a D'' hrun
    rw [heq] at hrun
    obtain ⟨hleads, hothers⟩ := h.ok hrun
    refine ⟨hleads, ?_⟩
    filter_upwards [hgrows, hothers] with j ⟨heq', hgrow⟩ ⟨F'', hrun', hgrow'⟩
    exact ⟨F'', by rw [heq', hrun'], P.trans hgrow hgrow'⟩
  · intro f hrun
    rw [heq] at hrun
    refine (h.error hrun).imp_right fun hothers => ?_
    filter_upwards [hgrows, hothers] with j ⟨heq', _⟩ hfails
    rwa [heq']

/-- Steps that succeed agree. -/
theorem of_ok {a : α} (hrun : (x none D log).1 = .ok (a, D')) (hleads : P.Leads D')
    (hothers : ∀ᶠ j in P.almostAll, ∃ F' : Context,
      (x (some j) (F j) (logs j)).1 = .ok (a, F') ∧ P.Grows D (F j) D' F') :
    P.AgreesFrom x D log F logs := by
  constructor
  · intro b D'' hb
    rw [hrun] at hb
    cases hb
    exact ⟨hleads, hothers⟩
  · intro f hf
    rw [hrun] at hf
    cases hf

/-- Steps that fail agree. -/
theorem of_error {f : Failure} (hrun : (x none D log).1 = .error f)
    (hothers : f.cause.isFatal = true
      ∨ ∀ᶠ j in P.almostAll, FailsFor f.cause (x (some j) (F j) (logs j)).1) :
    P.AgreesFrom x D log F logs := by
  constructor
  · intro a D' ha
    rw [hrun] at ha
    cases ha
  · intro g hg
    rw [hrun] at hg
    cases hg
    exact hothers

end AgreesFrom

namespace Agrees

variable {x : Option J → EvalM α}

/-- A step that only reads the functions and changes the log. -/
theorem unchanged (a : FunctionTable → α) (g : Log → Log) :
    P.Agrees fun _ => (fun ctx log => (.ok (a ctx.functions, ctx), g log) : EvalM α) := by
  intro D log F logs hD hF
  refine .of_ok rfl hD ?_
  filter_upwards [hF] with j hj
  exact ⟨F j, by rw [P.functions_eq hj], P.refl hj⟩

/-- Failures for one cause agree. -/
theorem throw {f : Option J → Failure} (h : ∀ i j, (f i).cause = (f j).cause) :
    P.Agrees fun i => (EvalM.throw (f i) : EvalM α) := by
  intro D log F logs _ _
  exact .of_error rfl (.inr (.of_forall fun j => ⟨f (some j), rfl, h (some j) none⟩))

/-- A step that the limit refuses. -/
theorem refused {ev : Evaluator} (h : x none = ev.refuse) : P.Agrees x := by
  intro D log F logs _ _
  exact .of_error (by rw [h]; rfl) (.inl rfl)

/-- Sequences agree if their parts do. -/
theorem bind {k : Option J → α → EvalM β} (hx : P.Agrees x)
    (hk : ∀ a, P.Agrees fun i => k i a) : P.Agrees fun i => x i >>= k i := by
  intro D log F logs hD hF
  have h := hx D log F logs hD hF
  cases hrun : (x none D log).1 with
  | error f =>
    refine .of_error (by rw [EvalM.bind_of_error hrun]) ((h.error hrun).imp_right fun hothers => ?_)
    filter_upwards [hothers] with j ⟨g, hg, hcause⟩
    exact ⟨g, by rw [EvalM.bind_of_error hg], hcause⟩
  | ok done =>
    obtain ⟨a, D'⟩ := done
    obtain ⟨hD', hothers⟩ := h.ok hrun
    obtain ⟨F', hF'⟩ := hothers.choice
    refine .of_eq (hk a D' _ F' (fun j => (x (some j) (F j) (logs j)).2) hD' ?_)
      (EvalM.bind_of_ok hrun _) ?_
    · filter_upwards [hF'] with j ⟨_, hgrows⟩
      exact P.follows hgrows
    · filter_upwards [hF'] with j ⟨hrun', hgrows⟩
      exact ⟨EvalM.bind_of_ok hrun' _, hgrows⟩

/-- An attempt succeeds in all runs, with values alike, unless it fails fatally. -/
theorem rescue {k : Option J → Except Failure α → EvalM β} (hx : P.Agrees x)
    (hok : ∀ a, P.Agrees fun i => k i (.ok a))
    (herror : ∀ f : Option J → Failure, (∀ i j, (f i).cause = (f j).cause) →
      (∀ i, (f i).cause.isFatal = false) → P.Agrees fun i => k i (.error (f i)))
    (hfatal : ∀ i (f : Failure), f.cause.isFatal = true → k i (.error f) = EvalM.throw f) :
    P.Agrees fun i => (x i).attempt >>= k i := by
  intro D log F logs hD hF
  have h := hx D log F logs hD hF
  cases hrun : (x none D log).1 with
  | ok done =>
    obtain ⟨a, D'⟩ := done
    obtain ⟨hD', hothers⟩ := h.ok hrun
    obtain ⟨F', hF'⟩ := hothers.choice
    refine .of_eq (hok a D' _ F' (fun j => (x (some j) (F j) (logs j)).2) hD' ?_)
      (by rw [EvalM.bind_apply, EvalM.attempt_of_ok hrun]) ?_
    · filter_upwards [hF'] with j ⟨_, hgrows⟩
      exact P.follows hgrows
    · filter_upwards [hF'] with j ⟨hrun', hgrows⟩
      exact ⟨by rw [EvalM.bind_apply, EvalM.attempt_of_ok hrun'], hgrows⟩
  | error f =>
    have hstep : ((x none).attempt >>= k none) D log = k none (.error f) D (x none D log).2 := by
      rw [EvalM.bind_apply, EvalM.attempt_of_error hrun]
    by_cases hf : f.cause.isFatal = true
    · rw [hfatal none f hf] at hstep
      exact .of_error (by rw [hstep]; rfl) (.inl hf)
    rcases h.error hrun with hf' | hothers
    · exact absurd hf' hf
    obtain ⟨g, hg⟩ := hothers.choice
    -- the few followers that do not fail for the same cause do not matter
    let failures : Option J → Failure := fun i =>
      i.elim f fun j => if (g j).cause = f.cause then g j else f
    have hcause : ∀ i, (failures i).cause = f.cause := by
      intro i
      cases i with
      | none => rfl
      | some j =>
        show (if (g j).cause = f.cause then g j else f).cause = f.cause
        by_cases hj : (g j).cause = f.cause
        · rw [if_pos hj, hj]
        · rw [if_neg hj]
    have hk := herror failures (fun i j => (hcause i).trans (hcause j).symm)
      (fun i => by rw [hcause i]; simpa using hf) D (x none D log).2 F
      (fun j => (x (some j) (F j) (logs j)).2) hD hF
    refine .of_eq hk hstep ?_
    filter_upwards [hg, hF] with j ⟨hrun', hj⟩ hfollows
    have hsame : failures (some j) = g j := if_pos hj
    exact ⟨by rw [EvalM.bind_apply, EvalM.attempt_of_error hrun', hsame], P.refl hfollows⟩

/-- Reporting failures leaves steps agreeing. -/
theorem reporting (hx : P.Agrees x) (r : Option J → Reporting) :
    P.Agrees fun i => (x i).reporting (r i) := by
  intro D log F logs hD hF
  have h := hx D log F logs hD hF
  cases hrun : (x none D log).1 with
  | ok done =>
    obtain ⟨a, D'⟩ := done
    obtain ⟨hD', hothers⟩ := h.ok hrun
    refine .of_ok (EvalM.reporting_of_ok hrun _) hD' ?_
    filter_upwards [hothers] with j ⟨F', hrun', hgrows⟩
    exact ⟨F', EvalM.reporting_of_ok hrun' _, hgrows⟩
  | error f =>
    obtain ⟨g, hg, hcause⟩ := EvalM.reporting_of_error hrun (r none)
    refine .of_error hg ?_
    rw [hcause]
    refine (h.error hrun).imp_right fun hothers => ?_
    filter_upwards [hothers] with j ⟨f', hf', hcause'⟩
    rw [← hcause']
    exact EvalM.reporting_of_error hf' _

end Agrees

/-- Agreement with the leading run, as an alignment. Reporting may differ between the runs. -/
def alignment (P : Following J) : Alignment (Option J) where
  Aligned := P.Agrees
  Alike f := ∀ i j, (f i).cause = (f j).cause
  Admits env mode _ := P.Admits env mode
  Meets _ := True
  isFatal_eq h i j := by rw [h i j]
  alike_moreTelling hf hg := by
    rcases EvalM.moreTelling_of_cause_eq hf hg with h | h
    · exact h.symm ▸ hf
    · exact h.symm ▸ hg
  alike_of _ _ _ := rfl
  Iterates := True
  admits_bindValues h name kind bindings _ := P.admits_bindValues h name kind bindings
  iterates _ := trivial
  admits_keepsTo {env _ _} _ := env.keepsTo_all
  pure a := .unchanged (fun _ => a) id
  throw := .throw
  bind := .bind
  modifyLog _ := .unchanged (fun _ => ()) _

/-- Runs that follow may catch failures and go on. -/
theorem alignment_rescues (P : Following J) : P.alignment.Rescues := Agrees.rescue

/-- Runs that follow may hand failures over as diagnostics. -/
theorem alignment_reports (P : Following J) : P.alignment.Reports :=
  fun _ hx => Agrees.reporting hx _

/-- Steps agree with those of the leading run if evaluation, splicing and forcing do, and if the
executor of functions evaluates bodies. -/
theorem stepwise {ev : Evaluator} (hcall : ev.ExecutesBodies) {limit : Option J → Nat}
    {s : Option J → Steps}
    (heval : ∀ {env mode}, P.Admits env mode → ∀ (r : Option J → Reporting) (k : Nat) (e : Expr),
      P.Agrees fun i => (s i).evalAfter k ⟨env, mode, r i⟩ e)
    (hsplice : ∀ {env mode}, P.Admits env mode → ∀ (r : Option J → Reporting) (code : Code),
      P.Agrees fun i => (s i).splice ⟨env, mode, r i⟩ code)
    (hforce : ∀ {env mode}, P.Admits env mode → ∀ (r : Option J → Reporting) {name : String}
      {found : Found} {e : Expr} {variability : Variability}, env.lookup name = some found →
      found.declared.binding = .expression e variability none →
      P.Agrees fun i => (s i).force ⟨env, mode, r i⟩ found name e) :
    P.alignment.Stepwise ev limit s :=
  Alignment.stepwise_of_rescues ev.keepsTo_all P.alignment_rescues P.alignment_reports
    (fun hr k e _ => heval hr _ k e) (fun hr => hsplice hr _) (fun hr => hforce hr _)
    fun hr call values =>
      P.alignment.delegate_of_executesBodies (fun _ _ _ => rfl) (fun _ => hr) P.alignment_reports
        (.unchanged id id) (fun hr k _ _ => heval hr _ k _) hcall (fun _ => trivial) _ call values

end Following

end ModelicaFold
