import ModelicaFold.Proofs.Runs.Insensitive
import ModelicaFold.Proofs.Runs.Limit

/-!
# Outcomes with fewer levels left

With fewer levels left a step has the same outcome as with more, or it fails at the recursion limit
(`UpToLimit`). This relation between outcomes is kept by sequencing and by reporting, so that an
evaluation that takes more levels than another one can be compared with it step by step.
-/

namespace ModelicaFold

open EvalM (LogInsensitive outcome)

/-- The first outcome is the second one, or the failure at a limit. -/
def UpToLimit {α : Type} (limit : Nat) (short full : Outcome α) : Prop :=
  short = full ∨ AtLimit limit short

namespace UpToLimit

variable {α β : Type} {limit : Nat}

/-- An outcome is up to the limit what it is. -/
theorem refl (o : Outcome α) : UpToLimit limit o o := .inl rfl

/-- An outcome that does not fail at the limit is the outcome with more levels. -/
theorem eq_of_not_atLimit {short full : Outcome α} (h : UpToLimit limit short full)
    (hlimit : ¬AtLimit limit short) : full = short := by
  rcases h with rfl | hat
  · rfl
  · exact absurd hat hlimit

/-- Sequences agree up to the limit if their parts do. -/
theorem bind {short full : Outcome α} {k l : α → Outcome β} (h : UpToLimit limit short full)
    (hk : ∀ a, UpToLimit limit (k a) (l a)) : UpToLimit limit (short >>= k) (full >>= l) := by
  rcases h with rfl | ⟨f, rfl, hcause⟩
  · cases short with
    | error f => exact .refl _
    | ok a => exact hk a
  · exact .inr ⟨f, rfl, hcause⟩

/-- What is done with failures does not matter if it keeps their causes. -/
theorem mapError {short full : Outcome α} {g : Failure → Failure} (hg : ∀ f, (g f).cause = f.cause)
    (h : UpToLimit limit short full) : UpToLimit limit (short.mapError g) (full.mapError g) := by
  rcases h with rfl | ⟨f, rfl, hcause⟩
  · exact .refl _
  · exact .inr ⟨g f, rfl, (hg f).trans hcause⟩

end UpToLimit

/-- The outcome of a step whose failure is reported. -/
theorem EvalM.outcome_reporting {α : Type} (x : EvalM α) (r : Reporting) (ctx : Context) :
    (x.reporting r).outcome ctx
      = (x.outcome ctx).mapError fun f => ((Log.start .unlimited).report r f).1 := by
  unfold outcome
  cases h : (x ctx (.start .unlimited)).1 with
  | error f =>
    rw [EvalM.reporting, run_eq h]
    exact congrArg Except.error (Log.failure_report _ _ r f)
  | ok done =>
    obtain ⟨a, ctx'⟩ := done
    rw [reporting_of_ok h]
    rfl

/-- A step that is the same unless refused has the same outcome up to the limit. -/
theorem SameUnlessRefused.outcome {α : Type} {limit : Nat} {x : Bool → EvalM α}
    (h : SameUnlessRefused limit x) (ctx : Context) :
    UpToLimit limit ((x false).outcome ctx) ((x true).outcome ctx) := by
  rcases h ctx (.start .unlimited) with ⟨-, hsame⟩ | hlimit
  · left
    unfold EvalM.outcome
    rw [hsame]
  · exact .inr hlimit

namespace Evaluator.PassesFailuresOn

variable {ev : Evaluator} (hpasses : ev.PassesFailuresOn) {n m : Nat} (hle : n ≤ m) (req : Request)

include hpasses hle

/-- With fewer levels left every step is the same, unless it fails at the limit. -/
theorem stepwise_levels : (limitAlignment ev.config.recursionLimit).Stepwise ev
    (fun _ => ev.config.recursionLimit) fun b => ev.steps (bif b then m else n) :=
  stepwise_limit (fun _ => ev.config.recursionLimit) hpasses (fun b => bif b then m else n) hle

/-- With fewer levels left a variable is read as before, unless the read fails at the limit. -/
theorem outcome_readVariable (name : String) (ty : Ty) (ctx : Context) :
    UpToLimit ev.config.recursionLimit (((ev.steps n).readVariable ev req name ty).outcome ctx)
      (((ev.steps m).readVariable ev req name ty).outcome ctx) := by
  have h : SameUnlessRefused ev.config.recursionLimit
      fun b => (ev.steps (bif b then m else n)).readVariable ev req name ty :=
    (hpasses.stepwise_levels hle).readVariable (r := fun _ => req.reporting) rfl name ty
  exact h.outcome ctx

/-- With fewer levels left subscripts are applied as before, unless this fails at the limit. -/
theorem outcome_applySubscripts (subscripts : List Subscript) (v : Value) (ctx : Context) :
    UpToLimit ev.config.recursionLimit (((ev.steps n).applySubscripts req subscripts v).outcome ctx)
      (((ev.steps m).applySubscripts req subscripts v).outcome ctx) := by
  have h : SameUnlessRefused ev.config.recursionLimit
      fun b => (ev.steps (bif b then m else n)).applySubscripts req subscripts v :=
    (hpasses.stepwise_levels hle).applySubscripts (r := fun _ => req.reporting) rfl
      (fun _ _ => trivial) v
  exact h.outcome ctx

end Evaluator.PassesFailuresOn

end ModelicaFold
