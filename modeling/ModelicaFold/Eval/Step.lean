import ModelicaFold.Eval.Request

/-!
# Evaluation steps

`EvalM` threads the context, which a failing step leaves as it was, and the log, which a failing
step extends all the same. `firstMatch` tries ways to evaluate an expression in order.
-/

namespace ModelicaFold

/-- A step that reads and extends the context and the log. -/
def EvalM (α : Type) : Type :=
  Context → Log → Except Failure (α × Context) × Log

namespace EvalM

instance : Monad EvalM where
  pure a := fun ctx log => (.ok (a, ctx), log)
  bind x f := fun ctx log =>
    match x ctx log with
    | (.ok (a, ctx), log) => f a ctx log
    | (.error e, log) => (.error e, log)

/-- Fails with a failure that may have been reported. -/
def throw {α : Type} (f : Failure) : EvalM α := fun _ log => (.error f, log)

/-- Fails for a cause. -/
def fail {α : Type} (c : Cause) : EvalM α := throw (Failure.of c)

/-- A step that needs neither context nor log. -/
def ofOutcome {α : Type} : Outcome α → EvalM α
  | .ok a => pure a
  | .error f => throw f

instance : MonadLift (Except Failure) EvalM := ⟨ofOutcome⟩

def getContext : EvalM Context := fun ctx log => (.ok (ctx, ctx), log)

def modifyContext (f : Context → Context) : EvalM Unit := fun ctx log => (.ok ((), f ctx), log)

def modifyLog (f : Log → Log) : EvalM Unit := fun ctx log => (.ok ((), ctx), f log)

/-- Changes the counters. -/
def count (f : Counters → Counters) : EvalM Unit :=
  modifyLog fun log => { log with counters := f log.counters }

/-- Notes that a read has left its bounds. -/
def crash : EvalM Unit := modifyLog fun log => { log with crashed := true }

/-- Runs a step and hands its failure over as a value; the context is then the one before it. -/
def attempt {α : Type} (x : EvalM α) : EvalM (Except Failure α) := fun ctx log =>
  match x ctx log with
  | (.ok (a, ctx'), log) => (.ok (.ok a, ctx'), log)
  | (.error e, log) => (.ok (.error e, ctx), log)

/-- Runs a step and reports its failure. -/
def reporting {α : Type} (r : Reporting) (x : EvalM α) : EvalM α := fun ctx log =>
  match x ctx log with
  | (.ok done, log) => (.ok done, log)
  | (.error e, log) =>
    let (e, log) := log.report r e
    (.error e, log)

/-! ## Alternatives -/

/-- Of two failures the more telling one, the earlier if they are equally telling. -/
def moreTelling (earlier later : Failure) : Failure :=
  if later.cause.precedence ≤ earlier.cause.precedence then earlier else later

/-- The alternatives after those that failed with `kept` as the most telling failure. -/
def firstMatchAfter {α : Type} (kept : Option Failure) : List (Option (EvalM α)) → EvalM α
  | [] => throw (kept.getD (Failure.of .notConstant))
  | none :: more => firstMatchAfter kept more
  | some alternative :: more => do
    match ← attempt alternative with
    | .ok a => return a
    | .error e =>
      if e.cause.isFatal then throw e
      else firstMatchAfter (some ((kept.map (moreTelling · e)).getD e)) more

/-- Tries the alternatives that apply, in order; the first success wins, a fatal failure ends the
search, and otherwise the most telling failure is the result. -/
def firstMatch {α : Type} (alternatives : List (Option (EvalM α))) : EvalM α :=
  firstMatchAfter none alternatives

/-! ## Equations -/

/-- A pure step gives its value and leaves context and log as they are. -/
theorem pure_apply {α : Type} (a : α) (ctx : Context) (log : Log) :
    (pure a : EvalM α) ctx log = (.ok (a, ctx), log) := rfl

/-- A sequence runs the second step from the context and the log of the first. -/
theorem bind_apply {α β : Type} (x : EvalM α) (f : α → EvalM β) (ctx : Context) (log : Log) :
    (x >>= f) ctx log =
      match x ctx log with
      | (.ok (a, ctx), log) => f a ctx log
      | (.error e, log) => (.error e, log) := rfl

instance : LawfulMonad EvalM := LawfulMonad.mk' EvalM
  (by
    intro α x
    funext ctx log
    show (match x ctx log with
      | (.ok (a, ctx), log) => (.ok (id a, ctx), log)
      | (.error e, log) => (.error e, log)) = x ctx log
    rcases x ctx log with ⟨_ | ⟨_, _⟩, _⟩ <;> rfl)
  (by intros; rfl)
  (by
    intro α β γ x f g
    funext ctx log
    simp only [bind_apply]
    rcases x ctx log with ⟨_ | ⟨_, _⟩, _⟩ <;> rfl)

end EvalM

end ModelicaFold
