import Mathlib.Order.Filter.AtTopBot.Basic
import ModelicaFold.Eval.Rule
import ModelicaFold.Proofs.Memory.Contexts
import ModelicaFold.Proofs.Memory.Declarations

/-!
# Fresh evaluation

What a context remembers under the key of a binding ought to be the value of this binding. Which
value that is must not depend on what has been remembered, nor on how deep the binding was
evaluated: `Evaluator.freshSteps` evaluates every expression from a context that remembers nothing,
and the value of a binding is the one that fresh evaluation gives with any number of levels from
some number on (`Setting.HasValue`). A context is faithful if it remembers only such values, and
with each also what fresh evaluation would remember on the way to it (`Setting.Faithful`).
-/

namespace ModelicaFold

open Filter

/-! ## Fresh evaluation -/

/-- Runs a step from a context that remembers nothing, and remembers in addition what the step
remembers. -/
def EvalM.afresh {α : Type} (x : EvalM α) : EvalM α := fun ctx log =>
  match x (.ofFunctions ctx.functions) log with
  | (.ok (a, found), log) => (.ok (a, ctx.merge found), log)
  | (.error f, log) => (.error f, log)

/-- The steps of an evaluator with a number of levels left that evaluate every expression from a
context that remembers nothing. -/
def Evaluator.freshSteps (ev : Evaluator) : Nat → Steps
  | 0 => ⟨fun _ _ _ => ev.refuse, fun _ _ => ev.refuse⟩
  | n + 1 =>
    { evalAfter := fun k req e =>
        match k with
        | 0 => EvalM.afresh do
          EvalM.count fun c => { c with expressions := c.expressions + 1 }
          (ev.freshSteps n).rule ev req e
        | k + 1 => (ev.freshSteps n).evalAfter k req e
      splice := fun req code => (ev.freshSteps n).spliceParts ev req code }

/-- Fresh evaluation gives the same from every context with the same functions. -/
theorem Evaluator.eval_freshSteps {ev : Evaluator} {n : Nat} {req : Request} {e : Expr}
    {ctx : Context} {log : Log} {v : Value} {found : Context}
    (h : ((ev.freshSteps n).eval req e (.ofFunctions ctx.functions) log).1 = .ok (v, found)) :
    ((ev.freshSteps n).eval req e ctx log).1 = .ok (v, ctx.merge found) := by
  cases n with
  | zero => cases h
  | succ n =>
    simp only [Steps.eval, freshSteps, EvalM.afresh, Context.ofFunctions] at h ⊢
    split at h
    · cases h
      rfl
    · cases h

/-! ## Faithful contexts -/

/-- What stays the same throughout a run of evaluations. -/
structure Setting where
  evaluator : Evaluator
  env : Env
  mode : Mode

namespace Setting

variable (σ : Setting)

/-- The environment and mode that a request may have which evaluation makes on its way. -/
def Admits (env : Env) (mode : Mode) : Prop := σ.env.Extends env ∧ mode = σ.mode

/-- Fresh evaluation of an expression gives a value with any number of levels from some number on,
however failures are reported, and remembers nothing on the way that a context does not. -/
def HasValue (D : Context) (env : Env) (e : Expr) (v : Value) : Prop :=
  ∀ (r : Nat → Reporting) (logs : Nat → Log), ∀ᶠ n in atTop, ∃ found : Context,
    ((σ.evaluator.freshSteps n).eval ⟨env, σ.mode, r n⟩ e (.ofFunctions D.functions) (logs n)).1
        = .ok (v, found)
      ∧ found.Within D

/-- Whatever is remembered under the key of a declaration is the value of its binding. -/
def Faithful (D : Context) : Prop :=
  ∀ ⦃scope : Env⦄ ⦃name : String⦄ ⦃e : Expr⦄ ⦃v : Value⦄, σ.env.Declares scope name e →
    D.constant? (scope.key name) = some v →
    e.refersTo name = false ∧ σ.HasValue D scope e v

variable {σ}

/-- A scope of values leaves a setting admitting an environment. -/
theorem Admits.bindValues {env : Env} {mode : Mode} (h : σ.Admits env mode) (name : String)
    (kind : ScopeKind) (bindings : List (String × Ty × Value)) :
    σ.Admits (env.bindValues name kind bindings) mode :=
  ⟨h.1.bindValues name kind bindings, h.2⟩

/-- A binding has its value also beside a context that remembers more. -/
theorem HasValue.mono {D D' : Context} {env : Env} {e : Expr} {v : Value}
    (h : σ.HasValue D env e v) (hwithin : D.Within D') : σ.HasValue D' env e v := by
  intro r logs
  filter_upwards [h r logs] with n ⟨found, hrun, hfound⟩
  exact ⟨found, hwithin.functions ▸ hrun, hfound.trans hwithin⟩

/-- An expression has one value. -/
theorem HasValue.unique {D D' : Context} {env : Env} {e : Expr} {v v' : Value}
    (h : σ.HasValue D env e v) (h' : σ.HasValue D' env e v')
    (hfunctions : D.functions = D'.functions) : v = v' := by
  have hboth := (h (fun _ => .silent) fun _ => .start .standard).and
    (h' (fun _ => .silent) fun _ => .start .standard)
  obtain ⟨n, ⟨found, hrun, -⟩, ⟨found', hrun', -⟩⟩ := hboth.exists
  rw [hfunctions, hrun'] at hrun
  cases hrun
  rfl

/-- A context that remembers nothing is faithful. -/
theorem faithful_ofFunctions (functions : FunctionTable) : σ.Faithful (.ofFunctions functions) :=
  fun _ _ _ _ _ h => by cases h

/-- A faithful context can only hold the value of a declaration under its key. -/
theorem Faithful.constant?_eq {D : Context} (h : σ.Faithful D) {scope : Env} {name : String}
    {e : Expr} {v w : Value} (hdecl : σ.env.Declares scope name e)
    (hv : σ.HasValue D scope e v) (hw : D.constant? (scope.key name) = some w) : w = v :=
  (h hdecl hw).2.unique hv rfl

/-- To remember the value of a binding keeps a context faithful. -/
theorem Faithful.remember {D : Context} (h : σ.Faithful D) (hkeys : σ.env.KeysDistinct)
    {scope : Env} {name : String} {e : Expr} {v : Value} (hdecl : σ.env.Declares scope name e)
    (hrefers : e.refersTo name = false) (hv : σ.HasValue D scope e v) :
    σ.Faithful (D.remember (scope.key name) v) := by
  intro scope' name' e' w hdecl' hw
  by_cases hkey : scope'.key name' = scope.key name
  · obtain ⟨rfl, rfl, rfl⟩ := hkeys.binding_eq hdecl' hdecl hkey
    rw [Context.constant?_remember_self fun _ => h.constant?_eq hdecl hv] at hw
    cases hw
    exact ⟨hrefers, hv.mono (D.within_remember _ _)⟩
  · rw [Context.constant?_remember_of_ne hkey] at hw
    obtain ⟨hrefers', hw'⟩ := h hdecl' hw
    exact ⟨hrefers', hw'.mono (D.within_remember _ _)⟩

end Setting

end ModelicaFold
