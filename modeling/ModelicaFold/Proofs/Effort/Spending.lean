import Mathlib.Algebra.GroupWithZero.Nat
import ModelicaFold.Proofs.Runs.Outcome
import ModelicaFold.Proofs.Runs.Success

/-!
# Steps that evaluate a number of expressions

`EvalM.Spends` bounds the number of expressions that a step evaluates from a context, whether it
succeeds or fails, and says that the step leaves the context as it is. What composed steps spend is
the sum of what their parts spend.
-/

namespace ModelicaFold

/-- Handing a failure over as a diagnostic counts no step. -/
theorem Log.counters_report (log : Log) (r : Reporting) (f : Failure) :
    (log.report r f).2.counters = log.counters := by
  unfold Log.report
  split <;> rfl

/-- From a context, whatever has been logged, a step evaluates at most `n` expressions, and it leaves
the context as it is. -/
structure EvalM.Spends {α : Type} (x : EvalM α) (ctx : Context) (n : Nat) : Prop where
  expressions : ∀ log, (x ctx log).2.counters.expressions ≤ log.counters.expressions + n
  context : ∀ {log a ctx'}, (x ctx log).1 = .ok (a, ctx') → ctx' = ctx

namespace EvalM

namespace Spends

variable {α β : Type} {x : EvalM α} {ctx : Context} {m n : Nat}

/-- A step that stays below one bound stays below every larger one. -/
theorem mono (h : x.Spends ctx m) (hle : m ≤ n) : x.Spends ctx n :=
  ⟨fun log => Nat.le_trans (h.expressions log) (Nat.add_le_add_left hle _), h.context⟩

/-- A pure step evaluates nothing. -/
theorem pure (a : α) (ctx : Context) : (Pure.pure a : EvalM α).Spends ctx 0 :=
  ⟨fun _ => Nat.le_refl _, fun h => by cases h; rfl⟩

/-- A failure evaluates nothing. -/
theorem throw (f : Failure) (ctx : Context) : (EvalM.throw f : EvalM α).Spends ctx 0 :=
  ⟨fun _ => Nat.le_refl _, nofun⟩

/-- A failure with a cause evaluates nothing. -/
theorem fail (c : Cause) (ctx : Context) : (EvalM.fail c : EvalM α).Spends ctx 0 :=
  throw (Failure.of c) ctx

/-- A computation without effects evaluates nothing. -/
theorem ofOutcome (o : Outcome α) (ctx : Context) : (EvalM.ofOutcome o).Spends ctx 0 := by
  cases o with
  | ok a => exact pure a ctx
  | error f => exact throw f ctx

/-- A change of the log that leaves the number of expressions alone evaluates nothing. -/
theorem modifyLog {g : Log → Log}
    (h : ∀ log, (g log).counters.expressions = log.counters.expressions) (ctx : Context) :
    (EvalM.modifyLog g).Spends ctx 0 :=
  ⟨fun log => Nat.le_of_eq (h log), fun h => by cases h; rfl⟩

/-- Counting something other than expressions evaluates nothing. -/
theorem count {g : Counters → Counters} (h : ∀ c, (g c).expressions = c.expressions)
    (ctx : Context) : (EvalM.count g).Spends ctx 0 :=
  modifyLog (fun log => h log.counters) ctx

/-- What one step spends adds to what the next one spends. -/
theorem bind (hx : x.Spends ctx m) {k : α → EvalM β} (hk : ∀ a, (k a).Spends ctx n) :
    (x >>= k).Spends ctx (m + n) := by
  constructor
  · intro log
    have hfirst := hx.expressions log
    cases hrun : (x ctx log).1 with
    | error f =>
      rw [bind_of_error hrun]
      exact Nat.le_trans hfirst (by omega)
    | ok done =>
      obtain ⟨a, ctx'⟩ := done
      obtain rfl := hx.context hrun
      rw [bind_of_ok hrun]
      have hnext := (hk a).expressions (x ctx' log).2
      omega
  · intro log b ctx' h
    cases hrun : (x ctx log).1 with
    | error f =>
      rw [bind_of_error hrun] at h
      cases h
    | ok done =>
      obtain ⟨a, ctx₁⟩ := done
      obtain rfl := hx.context hrun
      rw [bind_of_ok hrun] at h
      exact (hk a).context h

/-- What follows costs nothing. -/
theorem andThen (hx : x.Spends ctx n) {k : α → EvalM β} (hk : ∀ a, (k a).Spends ctx 0) :
    (x >>= k).Spends ctx n :=
  hx.bind hk

/-- What comes before costs nothing. -/
theorem after (hx : x.Spends ctx 0) {k : α → EvalM β} (hk : ∀ a, (k a).Spends ctx n) :
    (x >>= k).Spends ctx n :=
  (hx.bind hk).mono (Nat.le_of_eq (Nat.zero_add n))

/-- A function applied to the result of a step evaluates nothing more. -/
theorem map (hx : x.Spends ctx n) (f : α → β) :
    (x >>= fun a => Pure.pure (f a)).Spends ctx n :=
  hx.andThen fun a => pure (f a) ctx

/-- Catching the failure of a step evaluates nothing more. -/
theorem attempt (hx : x.Spends ctx n) : x.attempt.Spends ctx n := by
  constructor
  · intro log
    have hspent := hx.expressions log
    cases hrun : (x ctx log).1 with
    | error f =>
      rw [attempt_of_error hrun]
      exact hspent
    | ok done =>
      rw [attempt_of_ok hrun]
      exact hspent
  · intro log a ctx' h
    cases hrun : (x ctx log).1 with
    | error f =>
      rw [attempt_of_error hrun] at h
      cases h
      rfl
    | ok done =>
      obtain rfl := hx.context hrun
      rw [attempt_of_ok hrun] at h
      cases h
      rfl

/-- Reporting the failure of a step evaluates nothing more. -/
theorem reporting (hx : x.Spends ctx n) (r : Reporting) : (x.reporting r).Spends ctx n := by
  constructor
  · intro log
    have hspent := hx.expressions log
    rcases hrun : x ctx log with ⟨f | done, log'⟩
    · simpa [EvalM.reporting, hrun, Log.counters_report] using hspent
    · simpa [EvalM.reporting, hrun] using hspent
  · intro log a ctx' h
    have hrun : (x ctx log).1 = .ok (a, ctx') :=
      congrArg Prod.fst (gives_reporting.mp (run_eq h))
    exact hx.context hrun

/-- Mapping a list by steps spends what the steps spend together. -/
theorem mapM {f : α → EvalM β} {w : α → Nat} {items : List α}
    (h : ∀ a ∈ items, (f a).Spends ctx (w a)) : (items.mapM f).Spends ctx (items.map w).sum := by
  induction items with
  | nil => exact pure [] ctx
  | cons a items ih =>
    obtain ⟨ha, hitems⟩ := List.forall_mem_cons.mp h
    simp only [List.mapM_cons, List.map_cons, List.sum_cons]
    exact ha.bind fun b => (ih hitems).map (b :: ·)

/-- Mapping a list by steps that evaluate nothing evaluates nothing. -/
theorem mapM_free {f : α → EvalM β} {items : List α} (h : ∀ a ∈ items, (f a).Spends ctx 0) :
    (items.mapM f).Spends ctx 0 :=
  (mapM (w := fun _ => 0) h).mono (by simp)

/-- A step on an optional item spends what it spends on the item, if there is one. -/
theorem optionMapM {f : α → EvalM β} {w : α → Nat} {item : Option α}
    (h : ∀ a ∈ item.toList, (f a).Spends ctx (w a)) :
    (item.mapM f).Spends ctx (item.toList.map w).sum := by
  cases item with
  | none => exact pure none ctx
  | some a => exact (h a List.mem_cons_self).map some

end Spends

end EvalM

end ModelicaFold
