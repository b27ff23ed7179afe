import ModelicaFold.Proofs.Deferral.Builtins
import ModelicaFold.Proofs.Deferral.Leading
import ModelicaFold.Proofs.Runs.Limit

/-!
# Evaluation that is wary of placeholders

Most operations need the value of an operand, and fail where there is a placeholder. Some only look
at it: at the sizes of an array, at the number of its elements, or at whether it equals another
value. They go on where there is a placeholder, and may find something else once it is filled in.
`Expr.demands` lists the operands that an expression looks at in such a way, and what has to be
known of them. Wary evaluation (`Evaluator.waryEvaluate`) is evaluation that ends where this is not
known, with the failure at the recursion limit, which nothing catches.
-/

namespace ModelicaFold

/-- What has to be known of an operand. -/
inductive Demand where
  /-- There is no placeholder in it. -/
  | complete
  /-- There is no placeholder of an array in it. -/
  | shaped
  /-- It has a leaf. -/
  | inhabited

/-- Whether a value is known as well as demanded. -/
def Demand.Allows : Demand → Value → Prop
  | .complete, v => v.Complete
  | .shaped, v => v.Shaped
  | .inhabited, v => v.flatten ≠ []

/-- Operands, each with what has to be known of it. -/
abbrev Demands : Type := List (Expr × Demand)

/-! ## The operands that are looked at -/

/-- The indices of a slice. -/
def Subscript.slice? : Subscript → Option Expr
  | .slice indices => some indices
  | _ => none

/-- The slices after the first dimension that is kept as a whole. A slice without indices does not
even select from a placeholder, but it selects from the elements that an array turns out to have. -/
def Subscript.slicesAfterWhole : List Subscript → List Expr
  | [] => []
  | .whole :: rest => rest.filterMap slice?
  | _ :: rest => slicesAfterWhole rest

/-- An operand whose sizes are asked for. The sizes that its type announces are asked first. -/
def Expr.measuredDemands (e : Expr) : Demands :=
  (e, .shaped) :: ((Steps.announced e).filterMap Dimension.expr?).map (·, .complete)

/-- The demands of a built-in function. -/
def Builtin.demands (name : String) (args : List Expr) : Demands :=
  if name ∈ readsWhole then args.map (·, .complete)
  else if name ∈ readsShape then args.map (·, .shaped)
  else if name = "size" ∨ name = "ndims" then args.head?.toList.flatMap Expr.measuredDemands
  else []

section

variable {name : String} {args : List Expr}

/-- A function that reads whole values demands its arguments completely. -/
theorem Builtin.demands_of_readsWhole (h : name ∈ readsWhole) :
    demands name args = args.map (·, .complete) := if_pos h

/-- A function that reads sizes demands those of its arguments. -/
theorem Builtin.demands_of_readsShape (h : name ∈ readsShape) :
    demands name args = args.map (·, .shaped) := by
  have hwhole : ∀ name ∈ readsShape, name ∉ readsWhole := by decide
  rw [demands, if_neg (hwhole name h), if_pos h]

/-- The functions of sizes demand what measuring their argument does. -/
theorem Builtin.demands_measured (h : name = "size" ∨ name = "ndims") {e : Expr} :
    demands name (e :: args) = e.measuredDemands := by
  rcases h with rfl | rfl
  · simp [demands, readsWhole, readsShape]
  · simp [demands, readsWhole, readsShape]

end

/-- The operands that an expression looks at without a need for their values. The divisor of an
array is only looked at if the array has leaves, and a matrix to the power zero only for its sizes
and the kind of its elements. Where the known meaning of an external function fails its executor is
asked. -/
def Expr.demands (env : Env) : Expr → Demands
  | .matrix _ rows => rows.flatten.map (·, .shaped)
  | .reference parts _ =>
    (Subscript.slicesAfterWhole (Reference.subscripts parts)).map (·, .inhabited)
  | .subscripted _ subscripts => (Subscript.slicesAfterWhole subscripts).map (·, .inhabited)
  | .binary _ (.arith .div .arrayScalar) rhs => [(rhs, .complete)]
  | .binary lhs .matrixProduct rhs => [(lhs, .shaped), (rhs, .shaped)]
  | .binary lhs .matrixPower _ => [(lhs, .complete)]
  | .size operand _ => operand.measuredDemands
  | .call path args _ true _ => Builtin.demands path.last args
  | .call path args _ false _ =>
    if (Builtin.External.function? env path).isSome then args.map (·, .complete) else []
  | _ => []

/-! ## Wary evaluation -/

open Classical in
/-- A step that has to succeed with a value that is allowed. Otherwise the whole evaluation ends. -/
noncomputable def Evaluator.insist (ev : Evaluator) (P : Value → Prop) (x : EvalM Value) :
    EvalM Value := do
  match ← x.attempt with
  | .ok v => if P v then return v else ev.refuse
  | .error f => if f.cause.isFatal then EvalM.throw f else ev.refuse

open Classical in
/-- Steps that insist on what is demanded of operands. -/
noncomputable def Steps.guarded (s : Steps) (ev : Evaluator) (demands : Demands) : Steps where
  evalAfter k req e :=
    if ∃ d, (e, d) ∈ demands then
      ev.insist (fun v => ∀ d, (e, d) ∈ demands → d.Allows v) (s.evalAfter k req e)
    else s.evalAfter k req e
  splice := s.splice

/-- Steps that insist, at every expression, on what it demands of its operands. -/
noncomputable def Evaluator.warySteps (ev : Evaluator) : Nat → Steps
  | 0 => ev.steps 0
  | n + 1 =>
    { evalAfter := fun k req e =>
        match k with
        | 0 => do
          EvalM.count fun c => { c with expressions := c.expressions + 1 }
          ((ev.warySteps n).guarded ev (e.demands req.env)).rule ev req e
        | k + 1 => (ev.warySteps n).evalAfter k req e
      splice := fun req code => (ev.warySteps n).spliceParts ev req code }

/-- The value of an expression, if all that it looks at is known well enough. -/
noncomputable def Evaluator.waryEvaluate (ev : Evaluator) (req : Request) (e : Expr) :
    EvalM Value :=
  ((ev.warySteps (ev.config.recursionLimit + 1)).eval req e).reporting req.reporting

/-- Where nothing is demanded nothing is insisted on. -/
theorem Steps.guarded_nil (s : Steps) (ev : Evaluator) : s.guarded ev [] = s := by
  simp [guarded]

/-! ## What is insisted on -/

namespace EvalM

open Value

/-- A step that leads another one, has only results that are allowed, and fails only fatally. -/
structure Insists (P : Value → Prop) (x x' : EvalM Value) : Prop where
  leads : Leads (fun v w => v.Filled true w ∧ P v) x x'
  fatal : ∀ C log f, (x C log).1 = .error f → f.cause.isFatal = true

namespace Insists

variable {P : Value → Prop} {x x' : EvalM Value}

/-- What is insisted on holds of every value that is given. -/
theorem allowed (h : Insists P x x') {C D : Context} {log log' : Log} {v : Value}
    (hrun : x.Gives C log v D log') : P v := by
  obtain ⟨_, _, _, -, ⟨-, hv⟩, -⟩ := h.leads C log v D log' hrun C (.refl C) log
  exact hv

/-- A value insisted on to have its sizes is filled in by no arrays. -/
theorem shaped (h : Insists Demand.shaped.Allows x x') : Leads (Filled false) x x' :=
  h.leads.mono fun _ _ hvw => hvw.1.of_shaped (.inr (.inr hvw.2))

/-- A value insisted on to be complete is the same in the second run. -/
theorem complete (h : Insists Demand.complete.Allows x x') : Leads Eq x x' :=
  h.leads.mono fun _ _ hvw => (hvw.1.eq_of_complete hvw.2).symm

end Insists

end EvalM

/-- A step that is insisted on does what it does if it has an allowed value or fails fatally, and
otherwise ends as at the recursion limit. -/
theorem Evaluator.insist_apply (ev : Evaluator) (P : Value → Prop) (x : EvalM Value) (C : Context)
    (log : Log) :
    (ev.insist P x C log = x C log ∧ (∀ v D, (x C log).1 = .ok (v, D) → P v)
        ∧ ∀ f, (x C log).1 = .error f → f.cause.isFatal = true)
      ∨ AtLimit ev.config.recursionLimit (ev.insist P x C log).1 := by
  unfold insist
  cases hrun : (x C log).1 with
  | ok done =>
    obtain ⟨v, D⟩ := done
    rw [EvalM.attempt_bind_of_ok _ hrun]
    by_cases hv : P v
    · simp only [if_pos hv]
      refine .inl ⟨(EvalM.run_eq hrun).symm, ?_, nofun⟩
      rintro _ _ ⟨⟩
      exact hv
    · simp only [if_neg hv]
      exact .inr ⟨_, rfl, rfl⟩
  | error f =>
    rw [EvalM.attempt_bind_of_error _ hrun]
    by_cases hf : f.cause.isFatal = true
    · simp only [if_pos hf]
      refine .inl ⟨(EvalM.run_eq hrun).symm, nofun, ?_⟩
      rintro _ ⟨⟩
      exact hf
    · simp only [if_neg hf]
      exact .inr ⟨_, rfl, rfl⟩

/-- Insisting on a property leads to steps that do, if the steps lead. -/
theorem Evaluator.insists_insist (ev : Evaluator) (P : Value → Prop) {x x' : EvalM Value}
    (h : EvalM.Leads (Value.Filled true) x x') : EvalM.Insists P (ev.insist P x) x' := by
  constructor
  · intro C log v D log' hrun C' hC log₀
    rcases ev.insist_apply P x C log with ⟨heq, hallowed, -⟩ | ⟨f, hlimit, -⟩
    · have hx : x.Gives C log v D log' := heq.symm.trans hrun
      obtain ⟨v', D', log₁, hrun', hvv', hD⟩ := h C log v D log' hx C' hC log₀
      exact ⟨v', D', log₁, hrun', ⟨hvv', hallowed v D (congrArg Prod.fst hx)⟩, hD⟩
    · rw [show ev.insist P x C log = _ from hrun] at hlimit
      cases hlimit
  · intro C log f hrun
    rcases ev.insist_apply P x C log with ⟨heq, -, hfatal⟩ | ⟨g, hlimit, hg⟩
    · exact hfatal f (heq ▸ hrun)
    · rw [hrun] at hlimit
      cases hlimit
      rw [hg]
      rfl

/-! ## Steps that lead -/

/-- Steps that lead other ones from every request. -/
structure Steps.Lead (start : Env) (s s' : Steps) : Prop where
  evalAfter : ∀ {req req' : Request}, req.Filled start req' → ∀ k e,
    EvalM.Leads (Value.Filled true) (s.evalAfter k req e) (s'.evalAfter k req' e)
  splice : ∀ {req req' : Request}, req.Filled start req' → ∀ code,
    EvalM.Leads Eq (s.splice req code) (s'.splice req' code)

/-- What is demanded of operands is insisted on. -/
def Steps.Insists (demands : Demands) (s s' : Steps) (req req' : Request) : Prop :=
  ∀ {e : Expr} {demand : Demand}, (e, demand) ∈ demands → ∀ k,
    EvalM.Insists demand.Allows (s.evalAfter k req e) (s'.evalAfter k req' e)

namespace Steps

variable {start : Env} {s s' : Steps} {ev : Evaluator} {demands : Demands}

/-- Steps that insist on demands lead as the steps below do. -/
theorem lead_guarded (h : s.Lead start s') : (s.guarded ev demands).Lead start s' := by
  refine ⟨fun {req req'} hreq k e => ?_, h.splice⟩
  have hleads := h.evalAfter hreq k e
  simp only [guarded]
  split
  · exact (ev.insists_insist _ hleads).leads.mono fun _ _ hvw => hvw.1
  · exact hleads

/-- Steps that insist on demands insist on them. -/
theorem insists_guarded (h : s.Lead start s') {req req' : Request} (hreq : req.Filled start req') :
    Insists demands (s.guarded ev demands) s' req req' := by
  intro e demand hdemand k
  have hinsists := ev.insists_insist (fun v => ∀ d, (e, d) ∈ demands → d.Allows v)
    (h.evalAfter hreq k e)
  have hguarded : (s.guarded ev demands).evalAfter k req e
      = ev.insist (fun v => ∀ d, (e, d) ∈ demands → d.Allows v) (s.evalAfter k req e) := by
    simp only [guarded]
    exact if_pos ⟨demand, hdemand⟩
  rw [hguarded]
  exact ⟨hinsists.leads.mono fun _ _ hvw => ⟨hvw.1, hvw.2 demand hdemand⟩, hinsists.fatal⟩

end Steps

end ModelicaFold
