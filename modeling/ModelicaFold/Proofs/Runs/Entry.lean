import ModelicaFold.Eval.Evaluate
import ModelicaFold.Proofs.Runs.Catching

/-!
# Entry points side by side

What may be asked of an evaluator, as data. An alignment that holds of the steps at the start of an
evaluation holds of every entry point (`Alignment.Stepwise.run`).
-/

namespace ModelicaFold

/-- What may be asked of an evaluator. -/
inductive Entry where
  | expression (req : Request) (e : Expr)
  | expressions (req : Request) (es : List Expr)
  | reference (req : Request) (parts : Reference)
  | dimension (req : Request) (d : Dimension)
  | quoted (req : Request) (code : Code)

/-- What is got. -/
def Entry.Result : Entry → Type
  | .expression _ _ => Value
  | .expressions _ _ => List Value
  | .reference _ _ => Value
  | .dimension _ _ => Value
  | .quoted _ _ => Code

/-- Where and how it is asked. -/
def Entry.request : Entry → Request
  | .expression req _ => req
  | .expressions req _ => req
  | .reference req _ => req
  | .dimension req _ => req
  | .quoted req _ => req

/-- Asks an evaluator. -/
def Entry.run (ev : Evaluator) : (entry : Entry) → EvalM entry.Result
  | .expression req e => ev.evaluate req e
  | .expressions req es => ev.evaluateAll req es
  | .reference req parts => ev.evaluateReference req parts
  | .dimension req d => ev.evaluateDimension req d
  | .quoted req code => ev.splice req code

/-- The expressions that are asked for. -/
def Entry.exprs : Entry → List Expr
  | .expression _ e => [e]
  | .expressions _ es => es
  | .reference _ parts => (Reference.subscripts parts).filterMap Subscript.expr?
  | .dimension _ d => d.expr?.toList
  | .quoted _ _ => []

namespace Alignment.Stepwise

variable {ι : Type} {A : Alignment ι} {ev : Evaluator} {limit : ι → Nat}
  (h : A.Stepwise ev limit fun i => (ev.withLimit (limit i)).start)

include h

/-- What reporting makes of aligned steps holds of every entry point. A dimension is only computed
under an alignment that lets failures be caught. -/
theorem run {P : {α : Type} → (ι → EvalM α) → Prop} {entry : Entry}
    (hexprs : ∀ e ∈ entry.exprs, A.Meets e)
    (hr : A.Admits entry.request.env entry.request.mode fun _ => entry.request.reporting)
    (hdimension : ∀ req e, entry = .dimension req (.computed e) → A.Rescues)
    (hreports : ∀ {α : Type} {x : ι → EvalM α}, A.Aligned x →
      P fun i => (x i).reporting entry.request.reporting)
    (hmapM : ∀ {es : List Expr} {f : ι → Expr → EvalM Value}, (∀ e ∈ es, P fun i => f i e) →
      P fun i => es.mapM (f i)) :
    P fun i => entry.run (ev.withLimit (limit i)) := by
  cases entry with
  | expression req e => exact hreports (h.eval hr (hexprs e List.mem_cons_self))
  | expressions req es =>
    exact hmapM (f := fun i => (ev.withLimit (limit i)).evaluate req) fun e he =>
      hreports (h.eval hr (hexprs e he))
  | reference req parts => exact hreports (h.reference hr hexprs .unknown)
  | dimension req d =>
    have hd : ∀ e, d = .computed e → A.Rescues ∧ A.Meets e := by
      rintro e rfl
      exact ⟨hdimension req e rfl, hexprs e List.mem_cons_self⟩
    refine hreports (A.bind (dimension (fun k _ he => h.evalAfter hr k he) hd) fun n => ?_)
    exact A.ofOutcome (ordinary_inRange "dimension size" n)
  | quoted req code => exact hreports (h.splice hr code)

/-- Every entry point does the same in all runs. -/
theorem run_of_rescues (hrescues : A.Rescues) (hreports : A.Reports) {entry : Entry}
    (hexprs : ∀ e ∈ entry.exprs, A.Meets e)
    (hr : A.Admits entry.request.env entry.request.mode fun _ => entry.request.reporting) :
    A.Aligned fun i => entry.run (ev.withLimit (limit i)) :=
  h.run hexprs hr (fun _ _ _ => hrescues) (hreports hr) A.mapM

end Alignment.Stepwise

end ModelicaFold
