import ModelicaFold.Proofs.Division.Unguarded
import ModelicaFold.Proofs.Runs.Calls
import ModelicaFold.Proofs.Runs.Entry
import ModelicaFold.Proofs.Scopes.Values

/-!
# Division by zero

A quotient is refused with the operands as they are written if, and only if, there is a zero among
the leaves of the divisor. The arithmetic on Integers refuses a zero divisor, too, but without the
operands as they are written. To see that it never does, evaluation is repeated with unguarded
arithmetic, where any step may stand for what happens then: it is the same evaluation
(`division_by_zero_exact`).
-/

namespace ModelicaFold

/-! ## Evaluation without a guard -/

/-- Arithmetic without a guard as a step of an evaluation; `reached` is what happens where an
Integer is divided by zero. -/
def EvalM.ofUnguarded (reached : EvalM Value) : Unguarded Value → EvalM Value
  | .ok v => pure v
  | .error (some f) => EvalM.throw f
  | .error none => reached

/-- An outcome with a guard does not reach what stands for division by zero. -/
theorem EvalM.ofUnguarded_of (reached : EvalM Value) (o : Outcome Value) :
    ofUnguarded reached (.of o) = ofOutcome o := by
  cases o <;> rfl

namespace Unguarded

variable (reached : EvalM Value)

/-- A binary operator. -/
def operation (s : Steps) (req : Request) (lhs : Expr) (op : BinaryOp) (rhs : Expr) :
    EvalM Value := do
  let a ← s.eval req lhs
  let b ← s.eval req rhs
  if op.isDivision && b.hasZero then EvalM.fail (.divisionByZero lhs.text rhs.text)
  else EvalM.ofUnguarded reached (binary op a b)

/-- One step of a fold, by the fold expression if there is one. -/
def foldStep (s : Steps) (req : Request) (info : ReductionInfo) (acc next : Value) :
    EvalM Value :=
  match info.fold with
  | none => EvalM.ofUnguarded reached (foldNamed info.path.last acc next)
  | some fold =>
    s.evalInner
      (req.within
        (req.env.bindIterators [(info.valueName, info.ty, next), (info.resultName, info.ty, acc)]))
      fold

/-- The value of a reduction. -/
def reduction (s : Steps) (req : Request) (info : ReductionInfo) (body : Expr)
    (iterators : List Iterator) : EvalM Value := do
  let sequences ← iterators.mapM (s.sequence req)
  match ← (bindingTuples info.kind sequences : Outcome (List (List Value))) with
  | [] =>
    match info.default with
    | some default => s.eval req default
    | none => return .fail
  | tuples@(first :: others) =>
    match Gathering.ofName info.path.last with
    | .fold => do
      let acc ← s.bodyValue req iterators body first
      others.foldlM
        (fun acc tuple => do
          foldStep reached s req info acc (← s.bodyValue req iterators body tuple)) acc
    | gathering => do
      let values ← tuples.mapM (s.bodyValue req iterators body)
      let shape :=
        match info.kind with
        | .combine => (sequences.map List.length).reverse
        | .thread => [tuples.length]
      return gathering.gather values shape

/-- Applies the rule of the built-in function with a name. -/
def applyRule (s : Steps) (ev : Evaluator) (req : Request) (name : String) (args : List Expr)
    (r : Builtin.Rule) : EvalM Value :=
  match functions.lookup name with
  | some f => do
    let values ← s.evalAll req args
    EvalM.ofUnguarded reached (f values)
  | none => s.applyRule ev req args r

/-- A call of a built-in function. -/
def callBuiltin (s : Steps) (ev : Evaluator) (req : Request) (name : String) (args : List Expr)
    (r : Builtin.Rule) : EvalM Value := do
  EvalM.count fun c => { c with builtinCalls := c.builtinCalls + 1 }
  applyRule reached s ev req name args r

/-- A call. `call` is the call itself as an expression. -/
def call (s : Steps) (ev : Evaluator) (req : Request) (call : Expr) (path : Path)
    (args : List Expr) (builtin impure : Bool) : EvalM Value :=
  match Steps.smoothZero? path args builtin with
  | some e => s.eval req e
  | none =>
    EvalM.firstMatch [
      if builtin then
        (Builtin.rule? path.last ev.config.flags.metamodelica).map
          (callBuiltin reached s ev req path.last args)
      else none,
      if builtin || impure then none else some (s.callFunction ev req call path args),
      if impure then some (EvalM.fail .notConstant) else none]

/-- The value of an expression by the rule for its form. -/
def rule (s : Steps) (ev : Evaluator) (req : Request) (e : Expr) : EvalM Value :=
  match e with
  | .binary lhs op rhs => operation reached s req lhs op rhs
  | .call path args _ builtin impure => call reached s ev req e path args builtin impure
  | .reduction info body iterators => reduction reached s req info body iterators
  | _ => s.rule ev req e

/-- The steps with a number of levels left. -/
def steps (ev : Evaluator) : Nat → Steps
  | 0 => ⟨fun _ _ _ => ev.refuse, fun _ _ => ev.refuse⟩
  | n + 1 =>
    { evalAfter := fun k req e =>
        match k with
        | 0 => do
          EvalM.count fun c => { c with expressions := c.expressions + 1 }
          rule reached (steps ev n) ev req e
        | k + 1 => (steps ev n).evalAfter k req e
      splice := fun req code => (steps ev n).spliceParts ev req code }

/-- The steps at the start of an evaluation. -/
def start (ev : Evaluator) : Steps := steps reached ev (ev.config.recursionLimit + 1)

/-- Asks an evaluator. -/
def run (ev : Evaluator) : (entry : Entry) → EvalM entry.Result
  | .expression req e => ((start reached ev).eval req e).reporting req.reporting
  | .expressions req es =>
    es.mapM fun e => ((start reached ev).eval req e).reporting req.reporting
  | .reference req parts =>
    ((start reached ev).reference ev req parts .unknown).reporting req.reporting
  | .dimension req d =>
    EvalM.reporting req.reporting do
      let n ← (start reached ev).dimension req d
      EvalM.ofOutcome (inRange "dimension size" n)
  | .quoted req code => ((start reached ev).splice req code).reporting req.reporting

/-! ## The guard rules the branch out -/

variable (s : Steps) (ev : Evaluator) (req : Request)

/-- The operands have passed the guard when they are divided. -/
theorem operation_eq (lhs : Expr) (op : BinaryOp) (rhs : Expr) :
    operation reached s req lhs op rhs = s.binary req lhs op rhs := by
  have hguarded : ∀ a b : Value,
      (if op.isDivision && b.hasZero then EvalM.fail (.divisionByZero lhs.text rhs.text)
        else EvalM.ofUnguarded reached (binary op a b))
      = if op.isDivision && b.hasZero then EvalM.fail (.divisionByZero lhs.text rhs.text)
        else EvalM.ofOutcome (Value.binary op a b) := by
    intro a b
    split
    · rfl
    · rename_i hzero
      rw [binary_eq a (Bool.eq_false_iff.mpr hzero), EvalM.ofUnguarded_of]
  simp only [operation, Steps.binary, hguarded]

/-- A step of a fold is the same with unguarded arithmetic. -/
theorem foldStep_eq (info : ReductionInfo) (acc next : Value) :
    foldStep reached s req info acc next = s.foldStep req info acc next := by
  unfold foldStep Steps.foldStep
  cases info.fold with
  | none => simp only [foldNamed_eq, EvalM.ofUnguarded_of]
  | some fold => rfl

/-- A reduction is the same with unguarded arithmetic. -/
theorem reduction_eq (info : ReductionInfo) (body : Expr) (iterators : List Iterator) :
    reduction reached s req info body iterators = s.reduction req info body iterators := by
  refine bind_congr fun sequences => bind_congr fun tuples => ?_
  cases tuples with
  | nil => rfl
  | cons first others =>
    dsimp only
    cases Gathering.ofName info.path.last with
    | fold => simp only [foldStep_eq]
    | _ => rfl

/-- The rule of a built-in function is the same with unguarded arithmetic. -/
theorem applyRule_eq {name : String} {extended : Bool} {r : Builtin.Rule}
    (hr : Builtin.rule? name extended = some r) (args : List Expr) :
    applyRule reached s ev req name args r = s.applyRule ev req args r := by
  unfold applyRule
  cases hfunction : functions.lookup name with
  | none => rfl
  | some f =>
    obtain ⟨g, hbase, hvalues⟩ := functions_eq _ (mem_of_lookup_eq_some hfunction)
    obtain rfl := Builtin.eq_of_rule? hbase hr
    have hlift : ∀ values, EvalM.ofUnguarded reached (f values) = EvalM.ofOutcome (g values) :=
      fun values => (congrArg _ (hvalues values)).trans (EvalM.ofUnguarded_of reached _)
    simp only [hlift]
    rfl

/-- A call is the same with unguarded arithmetic. -/
theorem call_eq (e : Expr) (path : Path) (args : List Expr) (builtin impure : Bool) :
    call reached s ev req e path args builtin impure
      = s.call ev req e path args builtin impure := by
  have hbuiltin : (Builtin.rule? path.last ev.config.flags.metamodelica).map
        (callBuiltin reached s ev req path.last args)
      = (Builtin.rule? path.last ev.config.flags.metamodelica).map (s.callBuiltin ev req args) := by
    refine Option.map_congr fun r hr => ?_
    simp only [callBuiltin, applyRule_eq reached s ev req hr]
    rfl
  unfold call Steps.call
  cases Steps.smoothZero? path args builtin with
  | some zero => rfl
  | none =>
    dsimp only
    rw [hbuiltin]

/-- Every rule is the same with unguarded arithmetic. -/
theorem rule_eq (e : Expr) : rule reached s ev req e = s.rule ev req e := by
  cases e with
  | binary lhs op rhs => exact operation_eq reached s req lhs op rhs
  | call path args ty builtin impure => exact call_eq reached s ev req _ path args builtin impure
  | reduction info body iterators => exact reduction_eq reached s req info body iterators
  | _ => rfl

/-- From one step to any number of levels. -/
theorem steps_eq (n : Nat) : steps reached ev n = ev.steps n := by
  induction n with
  | zero => rfl
  | succ n ih =>
    rw [steps, ih, Evaluator.steps]
    congr 1
    funext k req e
    cases k with
    | zero => simp only [rule_eq]
    | succ k => rfl

/-- Every entry point is the same with unguarded arithmetic. -/
theorem run_eq (entry : Entry) : run reached ev entry = entry.run ev := by
  have hstart : start reached ev = ev.start := steps_eq reached ev _
  cases entry <;> simp only [run, hstart] <;> rfl

end Unguarded

/-! ## Quotients -/

section Quotient

variable {ev : Evaluator} {n : Nat} {req : Request} {lhs rhs : Expr} {operands : Operands}
  {ctx ctx₁ ctx₂ : Context} {log log₁ log₂ : Log} {a b : Value}

/-- A quotient is evaluated from the values of its operands, after the search for a zero. -/
theorem eval_division (operands : Operands)
    (hlhs : ((ev.steps n).eval req lhs).Gives ctx log.visiting a ctx₁ log₁)
    (hrhs : ((ev.steps n).eval req rhs).Gives ctx₁ log₁ b ctx₂ log₂) :
    ((ev.steps (n + 1)).eval req (.binary lhs (.arith .div operands) rhs) ctx log).1
      = (if b.hasZero then (Cause.divisionByZero lhs.text rhs.text).fail
          else Value.elementwise .div operands a b).map fun v => (v, ctx₂) := by
  change (((ev.steps n).eval req lhs >>= fun a => (ev.steps n).eval req rhs >>= fun b =>
    if b.hasZero then EvalM.fail (.divisionByZero lhs.text rhs.text)
    else EvalM.ofOutcome (Value.elementwise .div operands a b)) ctx log.visiting).1 = _
  rw [EvalM.bind_apply, hlhs]
  change (((ev.steps n).eval req rhs >>= _) ctx₁ log₁).1 = _
  rw [EvalM.bind_apply, hrhs]
  change ((if b.hasZero then EvalM.fail _ else EvalM.ofOutcome _) ctx₂ log₂ : _ × Log).1 = _
  cases b.hasZero with
  | true => rfl
  | false => cases Value.elementwise .div operands a b <;> rfl

end Quotient

/-- Division by zero is found exactly. A quotient whose operands have values, for any kind of
operands and at any depth of an evaluation, fails for a division by zero, with the operands as they
are written, if and only if some leaf of the divisor is a zero, and it never fails for one that is
written otherwise. The arithmetic on Integers never divides by zero: whatever happened if it did, an
evaluation has the same outcome and leaves the same log. -/
theorem division_by_zero_exact :
    (∀ {ev : Evaluator} {n : Nat} {req : Request} {lhs rhs : Expr} {operands : Operands}
        {ctx ctx₁ ctx₂ : Context} {log log₁ log₂ : Log} {a b : Value},
      ((ev.steps n).eval req lhs).Gives ctx log.visiting a ctx₁ log₁ →
      ((ev.steps n).eval req rhs).Gives ctx₁ log₁ b ctx₂ log₂ →
      let quotient := Expr.binary lhs (.arith .div operands) rhs
      let outcome := ((ev.steps (n + 1)).eval req quotient ctx log).1
      (FailsFor (.divisionByZero lhs.text rhs.text) outcome ↔
        ∃ leaf ∈ b.flatten, leaf = .integer 0 ∨ ∃ x, leaf = .real x ∧ (x == 0.0) = true)
      ∧ ∀ x y, FailsFor (.divisionByZero x y) outcome → x = lhs.text ∧ y = rhs.text)
    ∧ ∀ (reached : EvalM Value) (ev : Evaluator) (entry : Entry),
      Unguarded.run reached ev entry = entry.run ev := by
  refine ⟨?_, Unguarded.run_eq⟩
  intro ev n req lhs rhs operands ctx ctx₁ ctx₂ log log₁ log₂ a b hlhs hrhs quotient outcome
  have houtcome : outcome = _ := eval_division operands hlhs hrhs
  simp only [← Value.isZero_iff, ← Value.hasZero_iff, houtcome, failsFor_map]
  cases hzero : b.hasZero with
  | true =>
    simp only [if_true, failsFor_fail, Cause.divisionByZero.injEq]
    exact ⟨trivial, fun x y htexts => ⟨htexts.1.symm, htexts.2.symm⟩⟩
  | false =>
    have hnever := Value.notByZero_elementwise_div operands a hzero
    exact ⟨⟨fun hfails => absurd hfails (hnever _ _), nofun⟩,
      fun x y hfails => absurd hfails (hnever x y)⟩

/-- The matrix with the rows 3, -2 and `n`, 1. -/
def Expr.divisor (n : Int) : Expr :=
  let row (a b : Int) : Expr := .array (.array .integer [.known 2]) true [.integer a, .integer b]
  .array (.array .integer [.known 2, .known 2]) false [row 3 (-2), row n 1]

/-- A zero in the last row of a divisor is found. Where there is none the quotient does not fail for
a zero, and the same is evaluated without a guard. -/
theorem division_by_zero_exact_matrix :
    let quotient (n : Int) := Expr.binary (.integer 6) (.arith .div .scalarArray) (.divisor n)
    let outcome (n : Int) :=
      (((Evaluator.alone ⟨9, .none⟩).steps 7).eval ⟨.empty, .explicit, .silent⟩ (quotient n) .empty
        (.start .unlimited)).1
    FailsFor (.divisionByZero (Expr.integer 6).text (Expr.divisor 0).text) (outcome 0)
      ∧ (∀ x y, ¬FailsFor (.divisionByZero x y) (outcome 5))
      ∧ Unguarded.run (EvalM.fail .notConstant) (.alone ⟨9, .none⟩)
          (.expression ⟨.empty, .explicit, .silent⟩ (quotient 5))
        = (Evaluator.alone ⟨9, .none⟩).evaluate ⟨.empty, .explicit, .silent⟩ (quotient 5) := by
  intro quotient outcome
  have hoperands : ∀ n, ∃ ctx₁ log₁ ctx₂ log₂,
      (((Evaluator.alone ⟨9, .none⟩).steps 6).eval ⟨.empty, .explicit, .silent⟩ (.integer 6)).Gives
        .empty (Log.start .unlimited).visiting (.integer 6) ctx₁ log₁
      ∧ (((Evaluator.alone ⟨9, .none⟩).steps 6).eval ⟨.empty, .explicit, .silent⟩
          (.divisor n)).Gives ctx₁ log₁
        (.array #[.array #[.integer 3, .integer (-2)] [2], .array #[.integer n, .integer 1] [2]]
          [2, 2]) ctx₂ log₂ := fun n => ⟨_, _, _, _, rfl, rfl⟩
  obtain ⟨hexact, hunguarded⟩ := division_by_zero_exact
  refine ⟨?_, fun x y hfails => ?_, hunguarded _ _ _⟩
  · obtain ⟨_, _, _, _, hlhs, hrhs⟩ := hoperands 0
    exact (hexact hlhs hrhs).1.mpr ⟨.integer 0, by simp [Value.flatten, Value.flattenAll], .inl rfl⟩
  · obtain ⟨_, _, _, _, hlhs, hrhs⟩ := hoperands 5
    obtain ⟨hiff, htexts⟩ := hexact hlhs hrhs
    obtain ⟨rfl, rfl⟩ := htexts x y hfails
    simpa [Value.flatten, Value.flattenAll] using hiff.mp hfails

/-- The branch would be seen where there is no guard before it. -/
example : Unguarded.elementwise .div .scalars (.integer 6) (.integer 0) = .error none := rfl

end ModelicaFold
