import ModelicaFold.Proofs.Runs.Bodies
import ModelicaFold.Proofs.Runs.Entry

/-!
# The recursion limit is never masked

Failures are caught in several places: between the alternatives of a call, between the known
meaning of a function and its executor, between the declared sizes of a reference and its value.
None of them hides that the limit has refused a step: the failure at the limit is then the outcome
(`limit_never_masked`). An outcome of any other kind therefore does not depend on the limit, and is
the same, log included, under every larger one.

The executor of functions is outside of the evaluator. It is assumed to take its steps in sequence,
so that a failure of an evaluation it starts becomes its own failure (`Sequential`).
-/

namespace ModelicaFold

/-! ## Executors that pass failures on -/

/-- Runs a step and, if it fails, hands its failure over. -/
def EvalM.handing {α : Type} (hand : Failure → Log → Failure × Log) (x : EvalM α) : EvalM α :=
  fun ctx log =>
    match x ctx log with
    | (.ok done, log) => (.ok done, log)
    | (.error f, log) =>
      let (f, log) := hand f log
      (.error f, log)

/-- Reporting hands a failure to the log. -/
theorem EvalM.reporting_eq_handing {α : Type} (r : Reporting) (x : EvalM α) :
    x.reporting r = x.handing fun f log => log.report r f := rfl

/-- A way to hand over a failure that leaves its cause and the count of refused steps alone. -/
def KeepsCause (hand : Failure → Log → Failure × Log) : Prop :=
  ∀ f log, (hand f log).1.cause = f.cause
    ∧ (hand f log).2.counters.refused = log.counters.refused

/-- A report keeps the cause of the failure. -/
theorem keepsCause_report (r : Reporting) : KeepsCause fun f log => log.report r f :=
  fun f log => ⟨log.cause_report r f, log.refused_report r f⟩

/-- Steps of an executor one after the other, some of which are evaluations that it starts. The
first failure ends them; its cause is then the cause of the whole. -/
inductive Sequential : {α : Type} → (Reentry → EvalM α) → Prop where
  /-- A step of its own, about which nothing is known but that the limit does not refuse it. -/
  | own {α : Type} {x : EvalM α}
      (h : ∀ ctx log, (x ctx log).2.counters.refused = log.counters.refused) :
      Sequential fun _ => x
  /-- An evaluation that it starts. -/
  | nested (env : Env) (e : Expr) (mode : Mode) (reporting : Reporting) :
      Sequential fun reenter => reenter env e mode reporting
  | bind {α β : Type} {x : Reentry → EvalM α} {k : Reentry → α → EvalM β} :
      Sequential x → (∀ a, Sequential fun reenter => k reenter a) →
      Sequential fun reenter => x reenter >>= k reenter
  | handing {α : Type} {x : Reentry → EvalM α} {hand : Failure → Log → Failure × Log}
      (h : KeepsCause hand) : Sequential x → Sequential fun reenter => (x reenter).handing hand

/-- The executor of an evaluator passes the failures of the evaluations it starts on. -/
def Evaluator.PassesFailuresOn (ev : Evaluator) : Prop :=
  ∀ env call values mode, Sequential fun reenter => ev.call reenter env call values mode

/-- An execution by a plan takes its steps in sequence. -/
theorem Execution.sequential (execution : Execution) (env : Env) (mode : Mode) :
    Sequential fun reenter => execution.run reenter env mode := by
  induction execution with
  | finish outcome =>
    refine .own fun ctx log => ?_
    cases outcome <;> rfl
  | body scope parameters e reporting next ih => exact .bind (.nested _ e mode reporting) ih

/-- An executor that evaluates bodies passes failures on. -/
theorem Evaluator.ExecutesBodies.passesFailuresOn {ev : Evaluator} (h : ev.ExecutesBodies) :
    ev.PassesFailuresOn := by
  obtain ⟨plan, hplan⟩ := h
  intro env call values mode
  have hcall := fun reenter => hplan reenter env call values mode
  simp only [hcall]
  exact .bind (.own fun _ _ => rfl) fun functions => Execution.sequential _ env mode

/-! ## Two limits side by side -/

/-- An outcome that is the failure at a limit. -/
def AtLimit {α : Type} (limit : Nat) (outcome : Except Failure α) : Prop :=
  ∃ f, outcome = .error f ∧ f.cause = .recursionLimit limit

/-- Two steps, the first under the smaller limit, from the same context and log: they do the same
without any refusal, or the first fails at its limit. -/
def SameUnlessRefused (limit : Nat) {α : Type} (x : Bool → EvalM α) : Prop :=
  ∀ ctx log,
    ((x false ctx log).2.counters.refused = log.counters.refused
      ∧ x true ctx log = x false ctx log)
    ∨ AtLimit limit (x false ctx log).1

namespace SameUnlessRefused

variable {limit : Nat} {α β : Type}

/-- A step that refuses nothing is the same under both limits. -/
theorem const {x : EvalM α}
    (h : ∀ ctx log, (x ctx log).2.counters.refused = log.counters.refused) :
    SameUnlessRefused limit fun _ => x :=
  fun ctx log => .inl ⟨h ctx log, rfl⟩

/-- A step that the smaller limit refuses. -/
theorem refused (ev : Evaluator) {x : Bool → EvalM α}
    (h : x false = (ev.withLimit limit).refuse) : SameUnlessRefused limit x := by
  intro ctx log
  rw [h]
  exact .inr ⟨_, rfl, rfl⟩

/-- Sequences are the same unless refused if their parts are. -/
theorem bind {x : Bool → EvalM α} {k : Bool → α → EvalM β} (hx : SameUnlessRefused limit x)
    (hk : ∀ a, SameUnlessRefused limit fun b => k b a) :
    SameUnlessRefused limit fun b => x b >>= k b := by
  intro ctx log
  simp only [EvalM.bind_apply]
  rcases hx ctx log with ⟨hrefused, hsame⟩ | ⟨f, hf, hcause⟩
  · rw [hsame]
    rcases hrun : x false ctx log with ⟨f | ⟨a, ctx'⟩, log'⟩
    · rw [hrun] at hrefused
      exact .inl ⟨hrefused, rfl⟩
    · rw [hrun] at hrefused
      rcases hk a ctx' log' with ⟨hrefused', hsame'⟩ | hlimit
      · exact .inl ⟨hrefused'.trans hrefused, hsame'⟩
      · exact .inr hlimit
  · rcases hrun : x false ctx log with ⟨_, log'⟩
    rw [hrun] at hf
    cases hf
    exact .inr ⟨f, rfl, hcause⟩

/-- A failure may be caught and gone on with, unless it is fatal. -/
theorem rescue {x : Bool → EvalM α} {k : Bool → Except Failure α → EvalM β}
    (hx : SameUnlessRefused limit x)
    (hok : ∀ a, SameUnlessRefused limit fun b => k b (.ok a))
    (herror : ∀ f, f.cause.isFatal = false → SameUnlessRefused limit fun b => k b (.error f))
    (hfatal : ∀ b f, f.cause.isFatal = true → k b (.error f) = EvalM.throw f) :
    SameUnlessRefused limit fun b => (x b).attempt >>= k b := by
  intro ctx log
  simp only [EvalM.bind_apply, EvalM.attempt]
  rcases hx ctx log with ⟨hrefused, hsame⟩ | ⟨f, hf, hcause⟩
  · rw [hsame]
    rcases hrun : x false ctx log with ⟨f | ⟨a, ctx'⟩, log'⟩
    · rw [hrun] at hrefused
      simp only
      by_cases hf : f.cause.isFatal = true
      · rw [hfatal false f hf, hfatal true f hf]
        exact .inl ⟨hrefused, rfl⟩
      · rcases herror f (by simpa using hf) ctx log' with ⟨hrefused', hsame'⟩ | hlimit
        · exact .inl ⟨hrefused'.trans hrefused, hsame'⟩
        · exact .inr hlimit
    · rw [hrun] at hrefused
      rcases hok a ctx' log' with ⟨hrefused', hsame'⟩ | hlimit
      · exact .inl ⟨hrefused'.trans hrefused, hsame'⟩
      · exact .inr hlimit
  · rcases hrun : x false ctx log with ⟨_, log'⟩
    rw [hrun] at hf
    cases hf
    -- the failure at the limit is fatal, so it is not handled
    simp only [hfatal false f (by rw [hcause]; rfl)]
    exact .inr ⟨f, rfl, hcause⟩

/-- Handing a failure on keeps steps the same unless refused if it keeps the cause. -/
theorem handing {x : Bool → EvalM α} {hand : Failure → Log → Failure × Log}
    (h : KeepsCause hand) (hx : SameUnlessRefused limit x) :
    SameUnlessRefused limit fun b => (x b).handing hand := by
  intro ctx log
  simp only [EvalM.handing]
  rcases hx ctx log with ⟨hrefused, hsame⟩ | ⟨f, hf, hcause⟩
  · rw [hsame]
    rcases hrun : x false ctx log with ⟨f | done, log'⟩
    · rw [hrun] at hrefused
      exact .inl ⟨(h f log').2.trans hrefused, rfl⟩
    · rw [hrun] at hrefused
      exact .inl ⟨hrefused, rfl⟩
  · rcases hrun : x false ctx log with ⟨_, log'⟩
    rw [hrun] at hf
    cases hf
    exact .inr ⟨_, rfl, (h f log').1.trans hcause⟩

end SameUnlessRefused

/-- Runs under two limits, as an alignment. They report failures alike. -/
def limitAlignment (limit : Nat) : Alignment Bool where
  Aligned := SameUnlessRefused limit
  Alike := SameFailure
  Admits _ _ r := r true = r false
  Meets _ := True
  isFatal_eq := SameFailure.isFatal_eq
  alike_moreTelling := SameFailure.moreTelling
  alike_of := SameFailure.of
  Iterates := True
  admits_bindValues h _ _ _ _ := h
  iterates _ := trivial
  admits_keepsTo {env _ _} _ := env.keepsTo_all
  pure a := .const fun _ _ => rfl
  throw := by
    intro α f hf ctx log
    exact .inl ⟨rfl, by simp only [EvalM.throw, show f true = f false from hf]⟩
  bind := SameUnlessRefused.bind
  modifyLog h := .const fun _ log => h.refused log

/-- Steps that are the same unless refused may catch failures and go on. -/
theorem limitAlignment_rescues (limit : Nat) : (limitAlignment limit).Rescues := by
  intro α β x k hx hok herror hfatal
  exact SameUnlessRefused.rescue hx hok (fun f hf => herror (fun _ => f) rfl fun _ => hf) hfatal

/-- Steps that are the same unless refused may hand failures over as diagnostics. -/
theorem limitAlignment_reports (limit : Nat) : (limitAlignment limit).Reports := by
  intro α env mode r x hr hx
  have hr' : r = fun _ => r false := by
    funext b
    cases b
    · rfl
    · exact hr
  rw [hr']
  exact SameUnlessRefused.handing (keepsCause_report (r false)) hx

/-- An executor that passes failures on lets the limit through if the evaluations it starts do. -/
theorem Sequential.sameUnlessRefused {limit : Nat} {α : Type} {x : Reentry → EvalM α}
    (hx : Sequential x) {reenter : Bool → Reentry}
    (h : ∀ env e mode r, SameUnlessRefused limit fun b => reenter b env e mode r) :
    SameUnlessRefused limit fun b => x (reenter b) := by
  induction hx with
  | own hown => exact .const hown
  | nested env e mode r => exact h env e mode r
  | bind _ _ ihx ihk => exact ihx.bind ihk
  | handing hand _ ih => exact ih.handing hand

/-! ## Every step under two limits -/

section

variable {ev : Evaluator} {limit : Nat} (limits : Bool → Nat)

/-- What a step does with the context is the same under both limits. -/
theorem stepwise_of_evalAfter (hcall : ev.PassesFailuresOn) {s : Bool → Steps}
    (heval : ∀ {env mode} {r : Bool → Reporting}, r true = r false → ∀ k e,
      SameUnlessRefused limit fun b => (s b).evalAfter k ⟨env, mode, r b⟩ e)
    (hsplice : ∀ {env mode} {r : Bool → Reporting}, r true = r false → ∀ code,
      SameUnlessRefused limit fun b => (s b).splice ⟨env, mode, r b⟩ code) :
    (limitAlignment limit).Stepwise ev limits s := by
  refine Alignment.stepwise_of_rescues ev.keepsTo_all (limitAlignment_rescues limit)
    (limitAlignment_reports limit) (fun hr k e _ => heval hr k e) hsplice ?_ ?_
  · intro env mode r hr name found e variability _ _
    exact Alignment.force_of_eval (A := limitAlignment limit) (.const fun _ _ => rfl)
      (fun _ => .const fun _ _ => rfl) (heval hr 0 e)
  · intro env mode r hr call values
    show SameUnlessRefused limit fun b =>
      (s b).delegate (ev.withLimit (limits b)) ⟨env, mode, r b⟩ call values
    refine .bind (.const fun _ _ => rfl) fun _ => ?_
    refine (hcall env call values mode).sameUnlessRefused fun env e mode r => ?_
    exact (heval (r := fun _ => r) rfl 1 e).handing (keepsCause_report r)

/-- With more levels left under the second limit than under the first, every step does the same
unless the first limit refuses a step. -/
theorem stepwise_limit (hcall : ev.PassesFailuresOn) (levels : Bool → Nat)
    (hle : levels false ≤ levels true) :
    (limitAlignment (limits false)).Stepwise ev limits
      fun b => (ev.withLimit (limits b)).steps (levels b) := by
  obtain ⟨n, hn⟩ : ∃ n, levels false = n := ⟨_, rfl⟩
  induction n generalizing levels with
  | zero =>
    refine stepwise_of_evalAfter limits hcall (fun _ k e => .refused ev ?_)
      fun _ code => .refused ev ?_
    · rw [hn]
      rfl
    · rw [hn]
      rfl
  | succ n ih =>
    obtain ⟨m, hm⟩ : ∃ m, levels true = m + 1 := ⟨levels true - 1, by omega⟩
    have hlevels : levels = fun b => (levels b - 1) + 1 := by
      funext b
      cases b <;> omega
    have below := ih (fun b => levels b - 1) (Nat.sub_le_sub_right hle 1) (by simp [hn])
    rw [hlevels]
    exact stepwise_of_evalAfter limits hcall (fun hr k e => below.evalAfter_succ hr k trivial)
      fun hr code => below.splice_succ hr code

end

/-- Under a larger limit every entry point does the same unless the smaller limit refuses a
step. -/
theorem sameUnlessRefused_run {ev : Evaluator} (hcall : ev.PassesFailuresOn) (limits : Bool → Nat)
    (hle : limits false ≤ limits true) (entry : Entry) :
    SameUnlessRefused (limits false) fun b => entry.run (ev.withLimit (limits b)) := by
  have h : (limitAlignment (limits false)).Stepwise ev limits
      fun b => (ev.withLimit (limits b)).start :=
    stepwise_limit limits hcall (fun b => limits b + 1) (Nat.succ_le_succ hle)
  exact h.run_of_rescues (limitAlignment_rescues _) (limitAlignment_reports _) (fun _ _ => trivial)
    rfl

/-- The limit is never masked: if any step is refused, the failure at the limit is the outcome, and
an outcome of any other kind is the same under every larger limit. -/
theorem limit_never_masked (ev : Evaluator) (hcall : ev.PassesFailuresOn) (entry : Entry)
    (ctx : Context) (log : Log) :
    ((entry.run ev ctx log).2.counters.refused ≠ log.counters.refused →
        AtLimit ev.config.recursionLimit (entry.run ev ctx log).1)
      ∧ ∀ limit, ev.config.recursionLimit ≤ limit →
        ¬AtLimit ev.config.recursionLimit (entry.run ev ctx log).1 →
        entry.run (ev.withLimit limit) ctx log = entry.run ev ctx log := by
  have hrun : ∀ limit, ev.config.recursionLimit ≤ limit →
      ((entry.run ev ctx log).2.counters.refused = log.counters.refused
        ∧ entry.run (ev.withLimit limit) ctx log = entry.run ev ctx log)
      ∨ AtLimit ev.config.recursionLimit (entry.run ev ctx log).1 := fun limit hle =>
    sameUnlessRefused_run hcall (fun b => bif b then limit else ev.config.recursionLimit) hle
      entry ctx log
  constructor
  · intro hrefused
    rcases hrun _ (Nat.le_refl _) with ⟨hsame, _⟩ | hlimit
    · exact absurd hsame hrefused
    · exact hlimit
  · intro limit hle hother
    rcases hrun limit hle with ⟨_, hsame⟩ | hlimit
    · exact hsame
    · exact absurd hlimit hother

/-- A computed dimension is evaluated one level deeper than an expression: the limit 0 refuses it,
and not as an unknown dimension; from the limit 1 on the limit does not matter. -/
theorem limit_never_masked_dimension :
    AtLimit 0 ((Entry.dimension ⟨.empty, .explicit, .silent⟩ (.computed (.integer 2))).run
        (.alone ⟨0, .none⟩) .empty (.start .unlimited)).1
      ∧ (Entry.dimension ⟨.empty, .explicit, .silent⟩ (.computed (.integer 2))).run
          ((Evaluator.alone ⟨1, .none⟩).withLimit 5) .empty (.start .unlimited)
        = (Entry.dimension ⟨.empty, .explicit, .silent⟩ (.computed (.integer 2))).run
          (.alone ⟨1, .none⟩) .empty (.start .unlimited) := by
  have hcall : ∀ config, (Evaluator.alone config).PassesFailuresOn := fun config =>
    (executesBodies_alone config).passesFailuresOn
  refine ⟨(limit_never_masked _ (hcall _) _ _ _).1 (by decide), ?_⟩
  refine (limit_never_masked _ (hcall _) _ _ _).2 5 (by decide) ?_
  rintro ⟨f, hf, -⟩
  cases hf

end ModelicaFold
