import ModelicaFold.Proofs.Depth.Scripts

/-!
# Evaluation with depths and a cell

Evaluation as a machine runs it that is told at which depth every step is entered, and that keeps
the depth at which public calls start in a cell. A step asks for evaluation some levels further down
(`Floors.answer`); an executor calls the evaluator again from outside (`Floors.reenter`) and only finds
the cell, which is raised while it runs and restored when it succeeds or fails (`Machine.startingAt`).

Nothing in the machine makes its recursion end but the test against the limit, which is why it is given
fuel. It also notes which steps were open whenever a step was entered.
-/

namespace ModelicaFold

/-- What the machine remembers besides the context and the log. -/
structure Cells where
  /-- The depth at which public calls start. -/
  entry : Nat
  /-- The depths of the steps that are open, the innermost first. -/
  opened : List Nat := []
  /-- What was open whenever a step was entered, the latest first. -/
  trace : List (List Nat) := []

/-- A step of the machine, which may run out of fuel. -/
def Machine (α : Type) : Type :=
  Cells → Context → Log → Option ((Except Failure (α × Context) × Log) × Cells)

namespace Machine

variable {α β : Type}

/-- A step that leaves the cells alone. -/
def lift (x : EvalM α) : Machine α := fun cells ctx log => some (x ctx log, cells)

/-- The step when there is no fuel. -/
def stuck : Machine α := fun _ _ _ => none

/-- A step on what another one succeeds with. -/
def bind (x : Machine α) (k : α → Machine β) : Machine β := fun cells ctx log =>
  match x cells ctx log with
  | none => none
  | some ((.ok (a, ctx), log), cells) => k a cells ctx log
  | some ((.error f, log), cells) => some ((.error f, log), cells)

/-- A step whose outcome, context and log are changed in a way that leaves the cells alone. -/
def mapStep (g : EvalM α → EvalM β) (x : Machine α) : Machine β := fun cells ctx log =>
  (x cells ctx log).map fun (result, cells) => (g (fun _ _ => result) ctx log, cells)

/-- Public calls start at another depth while a step runs. -/
def startingAt (depth : Nat) (x : Machine α) : Machine α := fun cells ctx log =>
  (x { cells with entry := depth } ctx log).map fun (result, after) =>
    (result, { after with entry := cells.entry })

/-- A step is open at a depth while it runs. -/
def opening (depth : Nat) (x : Machine α) : Machine α := fun cells ctx log =>
  let opened := depth :: cells.opened
  (x { cells with opened, trace := opened :: cells.trace } ctx log).map fun (result, after) =>
    (result, { after with opened := after.opened.tail })

/-- Enters a step at a depth, unless this is beyond the limit. -/
def entering (limit depth : Nat) (refuse : EvalM α) (x : Machine α) : Machine α :=
  if limit < depth then lift refuse else opening depth x

end Machine

/-- Performs a script on the machine. -/
def Script.perform {R : Type → Type} (answer : {α : Type} → R α → Machine α) {α : Type} :
    Script R α → Machine α
  | .pure a => .lift (Pure.pure a)
  | .throw f => .lift (.throw f)
  | .getContext => .lift .getContext
  | .modifyContext f => .lift (.modifyContext f)
  | .modifyLog f => .lift (.modifyLog f)
  | .request r => answer r
  | .bind x k => (x.perform answer).bind fun a => (k a).perform answer
  | .attempt x => (x.perform answer).mapStep .attempt
  | .reporting r x => (x.perform answer).mapStep (.reporting r)

/-- Evaluation and splicing at given depths. -/
structure Floors where
  eval : Nat → Request → Expr → Machine Value
  splice : Nat → Request → Code → Machine Code

namespace Floors

variable (floors : Floors)

/-- A public call of an executor. It starts at the depth that is found in the cell. -/
def reenter {α : Type} : BodyRequest α → Machine α
  | .evaluate env e mode r => fun cells =>
    (floors.eval cells.entry ⟨env, mode, r⟩ e).mapStep (.reporting r) cells

/-- What a step is given whose subexpressions are evaluated at a depth. -/
def answer (conduct : Conduct) (depth : Nat) {α : Type} : StepRequest α → Machine α
  | .eval after req e => floors.eval (depth + after) req e
  | .splice req code => floors.splice depth req code
  | .execute env call values mode =>
    .startingAt (depth + 1) ((conduct env call values mode).perform floors.reenter)

end Floors

namespace Evaluator.Scripts

variable {ev : Evaluator} (S : ev.Scripts) (conduct : Conduct)

/-- The steps of an evaluator, with fuel for so many of them inside one another. -/
def floors : Nat → Floors
  | 0 =>
    { eval := fun depth _ _ => .entering ev.config.recursionLimit depth ev.refuse .stuck
      splice := fun depth _ _ => .entering ev.config.recursionLimit depth ev.refuse .stuck }
  | fuel + 1 =>
    { eval := fun depth req e => .entering ev.config.recursionLimit depth ev.refuse
        (.bind (.lift (EvalM.count fun c => { c with expressions := c.expressions + 1 })) fun _ =>
          (S.rule req e).perform ((floors fuel).answer conduct (depth + 1)))
      splice := fun depth req code => .entering ev.config.recursionLimit depth ev.refuse
        ((S.splice req code).perform ((floors fuel).answer conduct (depth + 1))) }

/-- A public call, with fuel for so many steps inside one another. -/
def perform (fuel : Nat) (call : PublicCall) : Machine call.Result := fun cells =>
  (S.publicCall call).perform ((S.floors conduct fuel).answer conduct cells.entry) cells

end Evaluator.Scripts

end ModelicaFold
