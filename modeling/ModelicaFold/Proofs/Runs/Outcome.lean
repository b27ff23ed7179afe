import ModelicaFold.Eval.Reference
import ModelicaFold.Proofs.Runs.Alignment

/-!
# Outcomes of steps

The outcome of a composed step from the outcomes of its parts, and the outcome of forcing a binding
in each of its cases. The log plays no part in outcomes; it is only handed on.
-/

namespace ModelicaFold

/-- An outcome that is a failure for a cause. -/
def FailsFor {α : Type} (c : Cause) (outcome : Except Failure α) : Prop :=
  ∃ f, outcome = .error f ∧ f.cause = c

/-- A value is no failure. -/
theorem not_failsFor_ok {α : Type} (c : Cause) (a : α) : ¬FailsFor c (.ok a) :=
  fun ⟨_, h, _⟩ => by cases h

/-- A failure with a cause fails for this cause alone. -/
theorem failsFor_fail {α : Type} {c c' : Cause} : FailsFor c (c'.fail : Outcome α) ↔ c' = c := by
  constructor
  · rintro ⟨f, hf, rfl⟩
    cases hf
    rfl
  · rintro rfl
    exact ⟨_, rfl, rfl⟩

/-- What becomes of a value does not matter to a failure. -/
theorem failsFor_map {α β : Type} {c : Cause} {outcome : Except Failure α} (f : α → β) :
    FailsFor c (outcome.map f) ↔ FailsFor c outcome := by
  cases outcome with
  | ok a => exact iff_of_false (not_failsFor_ok c _) (not_failsFor_ok c a)
  | error failure => exact ⟨fun ⟨_, h, hc⟩ => by cases h; exact ⟨_, rfl, hc⟩,
      fun ⟨_, h, hc⟩ => by cases h; exact ⟨_, rfl, hc⟩⟩

namespace EvalM

variable {α β : Type} {x : EvalM α} {ctx ctx' : Context} {log : Log} {a : α} {f : Failure}

/-- A run is its outcome and its log. -/
theorem run_eq {outcome : Except Failure (α × Context)} (h : (x ctx log).1 = outcome) :
    x ctx log = (outcome, (x ctx log).2) := by
  rw [← h]

/-- After a step that gives a value a sequence goes on with the rest. -/
theorem bind_of_ok (h : (x ctx log).1 = .ok (a, ctx')) (k : α → EvalM β) :
    (x >>= k) ctx log = k a ctx' (x ctx log).2 := by
  rw [bind_apply, run_eq h]

/-- After a step that fails a sequence fails with the same failure. -/
theorem bind_of_error (h : (x ctx log).1 = .error f) (k : α → EvalM β) :
    (x >>= k) ctx log = (.error f, (x ctx log).2) := by
  rw [bind_apply, run_eq h]

/-- Asking for the context gives it and changes nothing. -/
theorem getContext_bind (k : Context → EvalM β) (ctx : Context) (log : Log) :
    (getContext >>= k) ctx log = k ctx ctx log := rfl

/-- Where a step succeeds, trying it gives its value. -/
theorem attempt_of_ok (h : (x ctx log).1 = .ok (a, ctx')) :
    x.attempt ctx log = (.ok (.ok a, ctx'), (x ctx log).2) := by
  rw [attempt, run_eq h]

/-- A failure that is handed over leaves the context it began with. -/
theorem attempt_of_error (h : (x ctx log).1 = .error f) :
    x.attempt ctx log = (.ok (.error f, ctx), (x ctx log).2) := by
  rw [attempt, run_eq h]

/-- Reporting does not change what a step gives. -/
theorem reporting_of_ok (h : (x ctx log).1 = .ok (a, ctx')) (r : Reporting) :
    (x.reporting r ctx log).1 = .ok (a, ctx') := by
  rw [reporting, run_eq h]

/-- Reporting does not change the cause of a failure. -/
theorem reporting_of_error (h : (x ctx log).1 = .error f) (r : Reporting) :
    FailsFor f.cause (x.reporting r ctx log).1 := by
  rw [reporting, run_eq h]
  exact ⟨_, rfl, (x ctx log).2.cause_report r f⟩

end EvalM

/-! ## Forced bindings -/

namespace Steps

variable {s : Steps} {req : Request} {found : Found} {name : String} {e : Expr} {ctx : Context}
  {log : Log}

/-- The binding of an iterator is evaluated each time. -/
theorem force_iterator (h : found.isIterator = true) :
    s.force req found name e =
      if e.refersTo name then EvalM.fail .notConstant else s.eval (req.within found.env) e := by
  funext ctx log
  by_cases hrefers : e.refersTo name = true
  · simp [force, EvalM.getContext_bind, h, hrefers]
  · simp [force, EvalM.getContext_bind, h, hrefers]

/-- A binding that is remembered has the remembered value. -/
theorem force_known (h : found.isIterator = false) {v : Value}
    (hv : ctx.constant? (Context.key found.scope name) = some v) :
    (s.force req found name e ctx log).1 = .ok (v, ctx) := by
  simp [force, EvalM.getContext_bind, h, hv, EvalM.pure_apply]

/-- A binding that is not remembered and refers to itself is not constant. -/
theorem force_self (h : found.isIterator = false)
    (hnone : ctx.constant? (Context.key found.scope name) = none)
    (hrefers : e.refersTo name = true) :
    (s.force req found name e ctx log).1 = .error (Failure.of .notConstant) := by
  simp [force, EvalM.getContext_bind, h, hnone, hrefers, EvalM.fail, EvalM.throw]

/-- The value of a binding that is not remembered yet is remembered. -/
theorem force_of_ok (h : found.isIterator = false)
    (hnone : ctx.constant? (Context.key found.scope name) = none)
    (hrefers : e.refersTo name = false) {v : Value} {ctx' : Context}
    (hv : (s.eval (req.within found.env) e ctx log).1 = .ok (v, ctx')) :
    (s.force req found name e ctx log).1
      = .ok (v, ctx'.remember (Context.key found.scope name) v) := by
  simp only [force, EvalM.getContext_bind, h, hnone, hrefers, Bool.false_eq_true, if_false]
  rw [EvalM.bind_of_ok hv]
  rfl

/-- A binding that is evaluated fails as its expression does. -/
theorem force_of_error (h : found.isIterator = false)
    (hnone : ctx.constant? (Context.key found.scope name) = none)
    (hrefers : e.refersTo name = false) {f : Failure}
    (hf : (s.eval (req.within found.env) e ctx log).1 = .error f) :
    (s.force req found name e ctx log).1 = .error f := by
  simp only [force, EvalM.getContext_bind, h, hnone, hrefers, Bool.false_eq_true, if_false]
  rw [EvalM.bind_of_error hf]

end Steps

end ModelicaFold
