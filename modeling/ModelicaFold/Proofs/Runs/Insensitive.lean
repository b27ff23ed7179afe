import ModelicaFold.Proofs.Runs.Bodies
import ModelicaFold.Proofs.Runs.Entry
import ModelicaFold.Proofs.Runs.Outcome
import ModelicaFold.Proofs.Shape.Outcome

/-!
# Outcomes apart from logs

Every step extends the log and none reads it, so that the value and the context or the failure of a
step do not depend on it (`LogInsensitive`). This asks the same of the executor of functions. Without
the log a step is a function from contexts to outcomes (`EvalM.outcome`), and outcomes are computed one
after the other (`LogInsensitive.outcome_bind`).
-/

namespace ModelicaFold

namespace EvalM

variable {α β : Type}

/-- The outcome of a step does not depend on the log. -/
def LogInsensitive (x : EvalM α) : Prop := ∀ ctx log log', (x ctx log).1 = (x ctx log').1

/-- The outcome of a step where nothing has been done before. -/
def outcome (x : EvalM α) (ctx : Context) : Outcome (α × Context) := (x ctx (.start .unlimited)).1

end EvalM

open EvalM (LogInsensitive outcome)

/-- Whether and where a failure is marked as reported does not depend on the log. -/
theorem Log.failure_report (log log' : Log) (r : Reporting) (f : Failure) :
    (log.report r f).1 = (log'.report r f).1 := by
  unfold Log.report
  split <;> rfl

namespace EvalM.LogInsensitive

variable {α β : Type} {x : EvalM α}

/-- A pure step does not depend on the log. -/
theorem pure (a : α) : LogInsensitive (Pure.pure a : EvalM α) := fun _ _ _ => rfl

/-- A failure does not depend on the log. -/
theorem throw (f : Failure) : LogInsensitive (EvalM.throw f : EvalM α) := fun _ _ _ => rfl

/-- A failure with a cause does not depend on the log. -/
theorem fail (c : Cause) : LogInsensitive (EvalM.fail c : EvalM α) := .throw (Failure.of c)

/-- A change of the log does not depend on it. -/
theorem modifyLog (g : Log → Log) : LogInsensitive (EvalM.modifyLog g) := fun _ _ _ => rfl

/-- A computation without effects does not depend on the log. -/
theorem ofOutcome (o : Outcome α) : LogInsensitive (EvalM.ofOutcome o) := by
  cases o with
  | ok a => exact .pure a
  | error f => exact .throw f

/-- A sequence does not depend on the log if its parts do not. -/
theorem bind {k : α → EvalM β} (hx : LogInsensitive x) (hk : ∀ a, LogInsensitive (k a)) :
    LogInsensitive (x >>= k) := by
  intro ctx log log'
  have hsame := hx ctx log log'
  cases h : (x ctx log).1 with
  | error f =>
    rw [h] at hsame
    rw [bind_of_error h, bind_of_error hsame.symm]
  | ok done =>
    obtain ⟨a, ctx'⟩ := done
    rw [h] at hsame
    rw [bind_of_ok h, bind_of_ok hsame.symm]
    exact hk a ctx' _ _

/-- Trying a step does not depend on the log if the step does not. -/
theorem attempt (hx : LogInsensitive x) : LogInsensitive x.attempt := by
  intro ctx log log'
  have hsame := hx ctx log log'
  cases h : (x ctx log).1 with
  | error f =>
    rw [h] at hsame
    rw [attempt_of_error h, attempt_of_error hsame.symm]
  | ok done =>
    obtain ⟨a, ctx'⟩ := done
    rw [h] at hsame
    rw [attempt_of_ok h, attempt_of_ok hsame.symm]

/-- Reporting a failure does not depend on the log if the step does not. -/
theorem reporting (hx : LogInsensitive x) (r : Reporting) : LogInsensitive (x.reporting r) := by
  intro ctx log log'
  have hsame := hx ctx log log'
  cases h : (x ctx log).1 with
  | error f =>
    rw [h] at hsame
    rw [EvalM.reporting, EvalM.reporting, run_eq h, run_eq hsame.symm]
    exact congrArg Except.error (Log.failure_report _ _ r f)
  | ok done =>
    obtain ⟨a, ctx'⟩ := done
    rw [h] at hsame
    rw [reporting_of_ok h, reporting_of_ok hsame.symm]

/-- The outcome of a step is what it gives with any log. -/
theorem outcome_eq (hx : LogInsensitive x) (ctx : Context) (log : Log) :
    (x ctx log).1 = x.outcome ctx :=
  hx ctx log _

/-- The outcome of steps one after the other. -/
theorem outcome_bind {k : α → EvalM β} (hk : ∀ a, LogInsensitive (k a)) (ctx : Context) :
    (x >>= k).outcome ctx = x.outcome ctx >>= fun done => (k done.1).outcome done.2 := by
  unfold outcome
  cases h : (x ctx (.start .unlimited)).1 with
  | error f =>
    rw [bind_of_error h]
    rfl
  | ok done =>
    obtain ⟨a, ctx'⟩ := done
    rw [bind_of_ok h]
    exact hk a ctx' _ _

/-- A sequence gives a value if its first part gives one and the rest does from there. -/
theorem outcome_bind_eq_ok {k : α → EvalM β} (hk : ∀ a, LogInsensitive (k a)) {ctx ctx' : Context}
    {b : β} : (x >>= k).outcome ctx = .ok (b, ctx') ↔
      ∃ a ctx₁, x.outcome ctx = .ok (a, ctx₁) ∧ (k a).outcome ctx₁ = .ok (b, ctx') := by
  rw [outcome_bind hk, Outcome.bind_eq_ok]
  constructor
  · rintro ⟨⟨a, ctx₁⟩, ha, hb⟩
    exact ⟨a, ctx₁, ha, hb⟩
  · rintro ⟨a, ctx₁, ha, hb⟩
    exact ⟨(a, ctx₁), ha, hb⟩

end EvalM.LogInsensitive

namespace EvalM

variable {α : Type} {a : α} {ctx ctx' : Context}

/-- A pure step gives its value and leaves the context as it is. -/
theorem outcome_pure_eq_ok {b : α} :
    (Pure.pure b : EvalM α).outcome ctx = .ok (a, ctx') ↔ b = a ∧ ctx = ctx' := by
  show Except.ok (b, ctx) = .ok (a, ctx') ↔ _
  simp

/-- A computation without effects gives its value and leaves the context as it is. -/
theorem outcome_ofOutcome_eq_ok {o : Outcome α} :
    (EvalM.ofOutcome o).outcome ctx = .ok (a, ctx') ↔ o = .ok a ∧ ctx = ctx' := by
  cases o with
  | error f => exact ⟨nofun, nofun⟩
  | ok b =>
    rw [Except.ok.injEq]
    exact outcome_pure_eq_ok

/-- Only failures are reported. -/
theorem reporting_eq_ok {x : EvalM α} {r : Reporting} {log : Log} :
    (x.reporting r ctx log).1 = .ok (a, ctx') ↔ (x ctx log).1 = .ok (a, ctx') := by
  constructor
  · intro h
    cases hx : (x ctx log).1 with
    | error f =>
      obtain ⟨f', hf, -⟩ := reporting_of_error hx r
      rw [hf] at h
      cases h
    | ok done =>
      obtain ⟨b, ctx₁⟩ := done
      rw [reporting_of_ok hx] at h
      exact h
  · intro h
    exact reporting_of_ok h r

end EvalM

/-! ## Every step -/

/-- A single failure is as fatal as itself. -/
theorem isFatal_eq_of_single {f : Unit → Failure} (_ : True) (i j : Unit) :
    (f i).cause.isFatal = (f j).cause.isFatal := rfl

/-- Single runs from any log, as an alignment. -/
def insensitivity : Alignment Unit where
  Aligned x := LogInsensitive (x ())
  Alike _ := True
  Admits _ _ _ := True
  Meets _ := True
  Iterates := True
  isFatal_eq := isFatal_eq_of_single
  alike_moreTelling _ _ := trivial
  alike_of _ := trivial
  admits_bindValues _ _ _ _ _ := trivial
  iterates _ := trivial
  admits_keepsTo {env _ _} _ := env.keepsTo_all
  pure a := .pure a
  throw _ := .throw _
  bind := .bind
  modifyLog _ := .modifyLog _

/-- Steps that do not depend on the log may catch failures and go on. -/
theorem insensitivity_rescues : insensitivity.Rescues := by
  apply Alignment.rescues_of_handle
  intro α β x k hx hok herror
  refine hx.attempt.bind ?_
  intro outcome
  cases outcome with
  | ok a => exact hok a
  | error f => exact herror (fun _ => f) trivial

/-- Steps that do not depend on the log may hand failures over as diagnostics. -/
theorem insensitivity_reports : insensitivity.Reports := by
  intro α env mode r x _ hx
  exact hx.reporting (r ())

/-- What comes of a call does not depend on the log, unless the evaluations that the executor of
functions starts do. -/
def Evaluator.CallsInsensitively (ev : Evaluator) : Prop :=
  ∀ reenter : Reentry, (∀ env e mode r, LogInsensitive (reenter env e mode r)) →
    ∀ env call values mode, LogInsensitive (ev.call reenter env call values mode)

/-- An executor that runs bodies by a plan does not depend on the log. -/
theorem Evaluator.ExecutesBodies.callsInsensitively {ev : Evaluator} (h : ev.ExecutesBodies) :
    ev.CallsInsensitively := by
  obtain ⟨plan, hplan⟩ := h
  intro reenter hreenter env call values mode
  rw [hplan]
  refine .bind (fun _ _ _ => rfl) fun functions => ?_
  -- the bodies are evaluated one after the other
  induction plan functions env call values mode with
  | finish outcome => exact .ofOutcome outcome
  | body scope parameters e reporting next ih =>
    exact (hreenter (env.bindValues scope .functionScope parameters) e mode reporting).bind ih

namespace Evaluator.CallsInsensitively

variable {ev : Evaluator} (hcall : ev.CallsInsensitively)

include hcall

/-- No step depends on the log. -/
theorem stepwise (n : Nat) :
    insensitivity.Stepwise ev (fun _ => ev.config.recursionLimit) fun _ => ev.steps n := by
  refine Alignment.stepwise_steps (A := insensitivity) ?_ (fun {s} heval hsplice => ?_) n
  · intro α
    exact .bind (.modifyLog _) fun _ => .fail _
  · refine Alignment.stepwise_of_rescues ev.keepsTo_all insensitivity_rescues insensitivity_reports
      heval hsplice ?_ ?_
    · intro env mode r hr name found e v _ _
      have hbinding : insensitivity.Aligned fun i => (s i).eval ⟨found.env, mode, r i⟩ e :=
        heval trivial 0 trivial
      refine Alignment.force_of_eval (A := insensitivity) ?_ ?_ hbinding
      · exact fun _ _ _ => rfl
      · exact fun _ _ _ _ => rfl
    · intro env mode r hr call values
      refine .bind (.modifyLog _) fun _ => ?_
      refine hcall _ ?_ env call values mode
      intro env e mode r
      exact (heval (r := fun _ => r) trivial 1 trivial).reporting r

/-- Evaluating an operand does not depend on the log. -/
theorem eval (n : Nat) (req : Request) (e : Expr) : LogInsensitive ((ev.steps n).eval req e) :=
  (hcall.stepwise n).eval (r := fun _ => req.reporting) trivial trivial

/-- No rule depends on the log. -/
theorem rule (n : Nat) (req : Request) (e : Expr) : LogInsensitive ((ev.steps n).rule ev req e) :=
  (hcall.stepwise n).rule (r := fun _ => req.reporting) trivial trivial

/-- That an expression is counted does not change what comes of it. -/
theorem outcome_eval_succ (n : Nat) (req : Request) (e : Expr) (ctx : Context) :
    ((ev.steps (n + 1)).eval req e).outcome ctx = ((ev.steps n).rule ev req e).outcome ctx :=
  hcall.rule n req e ctx _ _

/-- Applying subscripts does not depend on the log. -/
theorem applySubscripts (n : Nat) (req : Request) (subscripts : List Subscript) (v : Value) :
    LogInsensitive ((ev.steps n).applySubscripts req subscripts v) :=
  (hcall.stepwise n).applySubscripts (r := fun _ => req.reporting) trivial
    (fun _ _ => trivial) v

/-- Selecting fields does not depend on the log. -/
theorem selectFields (n : Nat) (req : Request) (fields : Reference) (v : Value) :
    LogInsensitive ((ev.steps n).selectFields req fields v) :=
  (hcall.stepwise n).selectFields (r := fun _ => req.reporting) trivial
    (fun _ _ _ _ => trivial) v

/-- Reading a variable does not depend on the log. -/
theorem readVariable (n : Nat) (req : Request) (name : String) (ty : Ty) :
    LogInsensitive ((ev.steps n).readVariable ev req name ty) :=
  (hcall.stepwise n).readVariable (r := fun _ => req.reporting) trivial name ty

/-- The rule for references does not depend on the log. -/
theorem reference (n : Nat) (req : Request) (r : Reference) (ty : Ty) :
    LogInsensitive ((ev.steps n).reference ev req r ty) :=
  (hcall.stepwise n).reference (r := fun _ => req.reporting) trivial
    (fun _ _ => trivial) ty

/-- Evaluation does not depend on the log. -/
theorem evaluate (req : Request) (e : Expr) : LogInsensitive (ev.evaluate req e) :=
  (hcall.eval _ req e).reporting req.reporting

/-- Evaluating a reference does not depend on the log. -/
theorem evaluateReference (req : Request) (r : Reference) :
    LogInsensitive (ev.evaluateReference req r) :=
  (hcall.reference _ req r .unknown).reporting req.reporting

end Evaluator.CallsInsensitively

end ModelicaFold
