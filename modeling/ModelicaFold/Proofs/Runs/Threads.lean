import ModelicaFold.Proofs.Runs.Success

/-!
# Steps taken one after the other

`EvalM.Threads` relates a list of items to a list of results, one for each, and passes the context
and the log on from each item to the next. Mapping or filtering a list by steps that succeed is such
a sequence.
-/

namespace ModelicaFold.EvalM

variable {α β : Type} {R S : α → Context → Log → β → Context → Log → Prop}

/-- Each item has a result and leaves a context and a log for the next item. -/
inductive Threads (R : α → Context → Log → β → Context → Log → Prop) :
    List α → Context → Log → List β → Context → Log → Prop
  | nil {ctx log} : Threads R [] ctx log [] ctx log
  | cons {a b items results ctx log ctx₁ log₁ ctx' log'} :
    R a ctx log b ctx₁ log₁ → Threads R items ctx₁ log₁ results ctx' log' →
      Threads R (a :: items) ctx log (b :: results) ctx' log'

namespace Threads

/-- There are as many results as items. -/
theorem length_eq {items : List α} {results : List β} {ctx ctx' : Context} {log log' : Log}
    (h : Threads R items ctx log results ctx' log') : results.length = items.length := by
  induction h with
  | nil => rfl
  | cons _ _ ih => simp [ih]

/-- A weaker relation is threaded through the same contexts and logs. -/
theorem mono (hRS : ∀ {a ctx log b ctx' log'}, R a ctx log b ctx' log' → S a ctx log b ctx' log')
    {items : List α} {results : List β} {ctx ctx' : Context} {log log' : Log}
    (h : Threads R items ctx log results ctx' log') : Threads S items ctx log results ctx' log' := by
  induction h with
  | nil => exact .nil
  | cons hstep _ ih => exact .cons (hRS hstep) ih

/-- Results in another form are threaded through the same contexts and logs. -/
theorem map {γ : Type} {T : α → Context → Log → γ → Context → Log → Prop} {f : β → γ}
    (hRT : ∀ {a ctx log b ctx' log'}, R a ctx log b ctx' log' → T a ctx log (f b) ctx' log')
    {items : List α} {results : List β} {ctx ctx' : Context} {log log' : Log}
    (h : Threads R items ctx log results ctx' log') :
    Threads T items ctx log (results.map f) ctx' log' := by
  induction h with
  | nil => exact .nil
  | cons hstep _ ih => exact .cons (hRT hstep) ih

end Threads

/-- Mapping a list by steps. -/
theorem threads_of_mapM {f : α → EvalM β} {items : List α} {results : List β}
    {ctx ctx' : Context} {log log' : Log} (h : (items.mapM f).Gives ctx log results ctx' log') :
    Threads (fun a => (f a).Gives) items ctx log results ctx' log' := by
  induction items generalizing results ctx log with
  | nil =>
    obtain ⟨rfl, rfl, rfl⟩ := gives_pure.mp h
    exact .nil
  | cons a items ih =>
    rw [List.mapM_cons] at h
    obtain ⟨b, ctx₁, log₁, hb, h⟩ := gives_bind.mp h
    obtain ⟨bs, ctx₂, log₂, hbs, h⟩ := gives_bind.mp h
    obtain ⟨rfl, rfl, rfl⟩ := gives_pure.mp h
    exact .cons hb (ih hbs)

/-- The items with a positive verdict. -/
def selected (items : List α) (verdicts : List Bool) : List α :=
  ((items.zip verdicts).filter (·.2)).map (·.1)

/-- Filtering a list by steps: each item has its verdict, and those with a positive one stay. -/
theorem threads_of_filterM {p : α → EvalM Bool} {items kept : List α} {ctx ctx' : Context}
    {log log' : Log} (h : (items.filterM p).Gives ctx log kept ctx' log') :
    ∃ verdicts, Threads (fun a => (p a).Gives) items ctx log verdicts ctx' log'
      ∧ kept = selected items verdicts := by
  -- The kept items are collected in reverse order.
  have haux : ∀ (items before : List α) {reversed : List α} {ctx : Context} {log : Log},
      (List.filterAuxM p items before).Gives ctx log reversed ctx' log' →
      ∃ verdicts, Threads (fun a => (p a).Gives) items ctx log verdicts ctx' log'
        ∧ reversed = (selected items verdicts).reverse ++ before := by
    intro items
    induction items with
    | nil =>
      intro before reversed ctx log h
      obtain ⟨rfl, rfl, rfl⟩ := gives_pure.mp h
      exact ⟨[], .nil, rfl⟩
    | cons a items ih =>
      intro before reversed ctx log h
      obtain ⟨verdict, ctx₁, log₁, ha, h⟩ := gives_bind.mp h
      obtain ⟨verdicts, hverdicts, rfl⟩ := ih _ h
      refine ⟨verdict :: verdicts, .cons ha hverdicts, ?_⟩
      cases verdict <;> simp [selected]
  obtain ⟨reversed, ctx₁, log₁, haccumulated, h⟩ := gives_bind.mp h
  obtain ⟨rfl, rfl, rfl⟩ := gives_pure.mp h
  obtain ⟨verdicts, hverdicts, rfl⟩ := haux items [] haccumulated
  exact ⟨verdicts, hverdicts, by simp⟩

end ModelicaFold.EvalM
