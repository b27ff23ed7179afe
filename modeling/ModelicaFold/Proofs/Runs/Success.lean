import ModelicaFold.Eval.Step
import ModelicaFold.Proofs.Shape.Outcome
import Mathlib.Data.List.Forall2

/-!
# Steps that succeed

`EvalM.Gives` says what a step gives and what it leaves behind. The lemmas take the success of a
composed step apart into the successes of its parts, in the order in which they are taken.
-/

namespace ModelicaFold.EvalM

variable {α β : Type}

/-- From a context and a log a step gives a value and leaves another context and log. -/
def Gives (x : EvalM α) (ctx : Context) (log : Log) (a : α) (ctx' : Context) (log' : Log) : Prop :=
  x ctx log = (.ok (a, ctx'), log')

/-- A pure step gives its value and changes nothing. -/
theorem gives_pure {a b : α} {ctx ctx' : Context} {log log' : Log} :
    (pure a : EvalM α).Gives ctx log b ctx' log' ↔ a = b ∧ ctx = ctx' ∧ log = log' := by
  simp only [Gives, pure_apply, Prod.mk.injEq, Except.ok.injEq, and_assoc]

/-- A sequence gives what its second step gives after the first. -/
theorem gives_bind {x : EvalM α} {k : α → EvalM β} {b : β} {ctx ctx' : Context} {log log' : Log} :
    (x >>= k).Gives ctx log b ctx' log' ↔
      ∃ a ctx₁ log₁, x.Gives ctx log a ctx₁ log₁ ∧ (k a).Gives ctx₁ log₁ b ctx' log' := by
  simp only [Gives, bind_apply]
  rcases x ctx log with ⟨f | ⟨a, ctx₁⟩, log₁⟩
  · constructor
    · intro h
      cases h
    · rintro ⟨_, _, _, h, -⟩
      cases h
  · constructor
    · exact fun h => ⟨a, ctx₁, log₁, rfl, h⟩
    · rintro ⟨_, _, _, h, h'⟩
      cases h
      exact h'

/-- A computation without effects gives its value and changes nothing. -/
theorem gives_ofOutcome {o : Outcome α} {a : α} {ctx ctx' : Context} {log log' : Log} :
    (ofOutcome o).Gives ctx log a ctx' log' ↔ o = .ok a ∧ ctx = ctx' ∧ log = log' := by
  cases o with
  | error f => exact ⟨nofun, nofun⟩
  | ok b => rw [ofOutcome, gives_pure, Except.ok.injEq]

/-- Reporting does nothing where a step succeeds. -/
theorem gives_reporting {x : EvalM α} {r : Reporting} {a : α} {ctx ctx' : Context}
    {log log' : Log} : (x.reporting r).Gives ctx log a ctx' log' ↔ x.Gives ctx log a ctx' log' := by
  unfold Gives reporting
  rcases x ctx log with ⟨f | done, log₁⟩
  · exact ⟨nofun, nofun⟩
  · exact Iff.rfl

/-- Steps taken one after the other give one value each. -/
theorem gives_mapM {f : α → EvalM β} {items : List α} {bs : List β} {ctx ctx' : Context}
    {log log' : Log} (h : (items.mapM f).Gives ctx log bs ctx' log') :
    List.Forall₂ (fun a b => ∃ ctx log ctx' log', (f a).Gives ctx log b ctx' log') items bs := by
  induction items generalizing bs ctx log with
  | nil =>
    obtain ⟨rfl, _, _⟩ := gives_pure.mp h
    exact .nil
  | cons a items ih =>
    rw [List.mapM_cons] at h
    obtain ⟨b, ctx₁, log₁, hb, h⟩ := gives_bind.mp h
    obtain ⟨bs', ctx₂, log₂, hbs, h⟩ := gives_bind.mp h
    obtain ⟨rfl, rfl, rfl⟩ := gives_pure.mp h
    exact .cons ⟨_, _, _, _, hb⟩ (ih hbs)

/-- Steps that succeed from every log and leave the context as it is do so one after the other. -/
theorem exists_gives_mapM {f : α → EvalM β} {items : List α} {ctx : Context}
    (h : ∀ a ∈ items, ∀ log, ∃ b log', (f a).Gives ctx log b ctx log') (log : Log) :
    ∃ bs log', (items.mapM f).Gives ctx log bs ctx log' := by
  induction items generalizing log with
  | nil => exact ⟨[], log, rfl⟩
  | cons a items ih =>
    obtain ⟨ha, hitems⟩ := List.forall_mem_cons.mp h
    obtain ⟨b, log₁, hb⟩ := ha log
    obtain ⟨bs, log₂, hbs⟩ := ih hitems log₁
    refine ⟨b :: bs, log₂, ?_⟩
    rw [List.mapM_cons, gives_bind]
    exact ⟨b, ctx, log₁, hb, gives_bind.mpr ⟨bs, ctx, log₂, hbs, gives_pure.mpr ⟨rfl, rfl, rfl⟩⟩⟩

/-- Steps taken one after the other, each followed by a computation on what it gives: the
computations may as well come last. -/
theorem gives_mapM_ofOutcome {γ : Type} {f : γ → EvalM α} {g : α → Outcome β} {items : List γ}
    {bs : List β} {ctx ctx' : Context} {log log' : Log}
    (h : (items.mapM fun c => f c >>= fun a => ofOutcome (g a)).Gives ctx log bs ctx' log') :
    ∃ as, (items.mapM f).Gives ctx log as ctx' log'
      ∧ List.Forall₂ (fun a b => g a = .ok b) as bs := by
  induction items generalizing bs ctx log with
  | nil =>
    obtain ⟨rfl, hctx, hlog⟩ := gives_pure.mp h
    exact ⟨[], gives_pure.mpr ⟨rfl, hctx, hlog⟩, .nil⟩
  | cons c items ih =>
    rw [List.mapM_cons, gives_bind] at h
    obtain ⟨b, ctx₁, log₁, hb, h⟩ := h
    obtain ⟨a, ctx₂, log₂, ha, hb⟩ := gives_bind.mp hb
    obtain ⟨hab, rfl, rfl⟩ := gives_ofOutcome.mp hb
    obtain ⟨bs', ctx₃, log₃, hbs, h⟩ := gives_bind.mp h
    obtain ⟨rfl, rfl, rfl⟩ := gives_pure.mp h
    obtain ⟨as, has, hforall⟩ := ih hbs
    refine ⟨a :: as, ?_, .cons hab hforall⟩
    rw [List.mapM_cons, gives_bind]
    exact ⟨a, _, _, ha, gives_bind.mpr ⟨as, _, _, has, gives_pure.mpr ⟨rfl, rfl, rfl⟩⟩⟩

section

variable {γ : Type} {f : γ → EvalM α} {g : α → Outcome β} {items : List γ} {as : List α}
  {ctx ctx' : Context} {log log' : Log}

/-- Steps that succeed, each followed by a computation on what it gives: they succeed if all the
computations do. -/
theorem mapM_ofOutcome_of_ok {bs : List β} (h : (items.mapM f).Gives ctx log as ctx' log')
    (hbs : as.mapM g = .ok bs) :
    (items.mapM fun c => f c >>= fun a => ofOutcome (g a)).Gives ctx log bs ctx' log' := by
  induction items generalizing as bs ctx log with
  | nil =>
    obtain ⟨rfl, rfl, rfl⟩ := gives_pure.mp h
    cases hbs
    rfl
  | cons c items ih =>
    rw [List.mapM_cons] at h ⊢
    obtain ⟨a, ctx₁, log₁, ha, h⟩ := gives_bind.mp h
    obtain ⟨as, ctx₂, log₂, has, h⟩ := gives_bind.mp h
    obtain ⟨rfl, rfl, rfl⟩ := gives_pure.mp h
    rw [List.mapM_cons] at hbs
    obtain ⟨b, hb, hbs⟩ := Outcome.bind_eq_ok.mp hbs
    obtain ⟨bs, hrest, hbs⟩ := Outcome.bind_eq_ok.mp hbs
    cases hbs
    have hfirst : (f c >>= fun a => ofOutcome (g a)).Gives ctx log b ctx₁ log₁ :=
      gives_bind.mpr ⟨a, _, _, ha, gives_ofOutcome.mpr ⟨hb, rfl, rfl⟩⟩
    exact gives_bind.mpr ⟨b, _, _, hfirst,
      gives_bind.mpr ⟨bs, _, _, ih has hrest, gives_pure.mpr ⟨rfl, rfl, rfl⟩⟩⟩

/-- They fail as the first computation that does. -/
theorem mapM_ofOutcome_of_error {failure : Failure} (h : (items.mapM f).Gives ctx log as ctx' log')
    (hfailure : as.mapM g = .error failure) :
    ∃ log'', (items.mapM fun c => f c >>= fun a => ofOutcome (g a)) ctx log
      = (.error failure, log'') := by
  induction items generalizing as ctx log with
  | nil =>
    obtain ⟨rfl, rfl, rfl⟩ := gives_pure.mp h
    cases hfailure
  | cons c items ih =>
    rw [List.mapM_cons] at h ⊢
    obtain ⟨a, ctx₁, log₁, ha, h⟩ := gives_bind.mp h
    obtain ⟨as, ctx₂, log₂, has, h⟩ := gives_bind.mp h
    obtain ⟨rfl, rfl, rfl⟩ := gives_pure.mp h
    rw [List.mapM_cons] at hfailure
    have hfirst : (f c >>= fun a => ofOutcome (g a)) ctx log = ofOutcome (g a) ctx₁ log₁ := by
      rw [bind_apply, ha]
    rw [bind_apply, hfirst]
    cases hg : g a with
    | error failure' =>
      rw [hg] at hfailure
      cases hfailure
      exact ⟨log₁, rfl⟩
    | ok b =>
      rw [hg, Outcome.ok_bind] at hfailure
      cases hrest : as.mapM g with
      | error failure' =>
        rw [hrest] at hfailure
        cases hfailure
        obtain ⟨log₃, hrun⟩ := ih has hrest
        refine ⟨log₃, ?_⟩
        change ((items.mapM fun c => f c >>= fun a => ofOutcome (g a)) >>= _) ctx₁ log₁ = _
        rw [bind_apply, hrun]
      | ok bs =>
        rw [hrest] at hfailure
        cases hfailure

end

end ModelicaFold.EvalM
