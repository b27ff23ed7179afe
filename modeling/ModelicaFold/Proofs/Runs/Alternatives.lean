import ModelicaFold.Eval.Call
import ModelicaFold.Eval.Construct

/-!
# Where at most one alternative is tried

The rules for casts, logical operators and calls name several alternatives, of which at most one
evaluates anything. The others do not apply, succeed at once, or fail as not constant, which is the
least telling failure. So these rules come to a choice that is made beforehand (`Steps.cast_eq`,
`Steps.logical_eq`, `Steps.call_eq`), and no failure of an operand is ever caught by them.
-/

namespace ModelicaFold

namespace EvalM

variable {α : Type}

/-- An alternative that does not apply, or that fails as not constant. -/
def IsIdle (alternative : Option (EvalM α)) : Prop :=
  alternative = none ∨ alternative = some (fail .notConstant)

/-- Idle alternatives leave the failure that was kept. -/
theorem firstMatchAfter_idle (kept : Failure) {more : List (Option (EvalM α))}
    (h : ∀ alternative ∈ more, IsIdle alternative) :
    firstMatchAfter (some kept) more = throw kept := by
  induction more with
  | nil => rfl
  | cons alternative more ih =>
    obtain ⟨hidle, hmore⟩ := List.forall_mem_cons.mp h
    rcases hidle with rfl | rfl
    · exact ih hmore
    · -- failing as not constant is not more telling than anything
      have hkept : moreTelling kept (Failure.of .notConstant) = kept := if_pos (Nat.zero_le _)
      show firstMatchAfter (some (moreTelling kept (Failure.of .notConstant))) more = throw kept
      rw [hkept, ih hmore]

/-- The first alternative decides if the others are idle. -/
theorem firstMatch_idle (x : EvalM α) {more : List (Option (EvalM α))}
    (h : ∀ alternative ∈ more, IsIdle alternative) : firstMatch (some x :: more) = x := by
  funext ctx log
  simp only [firstMatch, firstMatchAfter, bind_apply, attempt]
  rcases x ctx log with ⟨f | done, log'⟩
  · by_cases hf : f.cause.isFatal = true
    · simp [hf, throw]
    · simp [hf, firstMatchAfter_idle f h, throw]
  · rfl

/-- A first alternative that is pure is taken. -/
theorem firstMatch_pure (a : α) (more : List (Option (EvalM α))) :
    firstMatch (some (pure a) :: more) = pure a := rfl

/-- Without alternatives nothing is constant. -/
theorem firstMatch_nil : (firstMatch [] : EvalM α) = fail .notConstant := rfl

end EvalM

open EvalM

namespace Steps

variable (s : Steps) (req : Request)

/-- A cast evaluates its operand once, and converts the leaves if its type asks for it. -/
theorem cast_eq (ty : Ty) (operand : Expr) :
    s.cast req ty operand =
      match Value.castLeaf? ty with
      | some convert => do
        let v ← s.eval req operand
        EvalM.ofOutcome (v.mapLeaves convert)
      | none => s.eval req operand := by
  unfold cast castAlternatives Value.castNumberLeaf? Value.castLiteralLeaf? Value.castLeaf?
  cases ty.elementType with
  | record path => exact firstMatch_idle _ (by simp [IsIdle, Ty.isRecord])
  | integer => exact firstMatch_idle _ (by simp [IsIdle, Ty.isRecord])
  | real => exact firstMatch_idle _ (by simp [IsIdle, Ty.isRecord])
  | enumeration path literals => exact firstMatch_idle _ (by simp [IsIdle, Ty.isRecord])
  | _ => exact firstMatch_idle _ (by simp)

/-- A logical operator evaluates its right operand only if the left one does not decide. -/
theorem logical_eq (lhs : Expr) (op : LogicalOp) (rhs : Expr) :
    s.logical req lhs op rhs = (do
      let a ← s.eval req lhs
      match Value.decided? op a with
      | some v => return v
      | none =>
        let b ← s.eval req rhs
        EvalM.ofOutcome (Value.logical op a b)) := by
  unfold logical
  congr 1
  funext a
  cases Value.decided? op a with
  | some v => exact firstMatch_pure v _
  | none => exact firstMatch_idle _ (by simp)

/-- Only calls `smooth(0, e)` of the built-in function are short-cut, to `e`. -/
theorem smoothZero?_eq_some {path : Path} {args : List Expr} {builtin : Bool} {e : Expr} :
    smoothZero? path args builtin = some e ↔
      args = [.integer 0, e] ∧ builtin = true ∧ path.last = "smooth" := by
  unfold smoothZero?
  split
  · simp only [Option.ite_none_right_eq_some, Bool.and_eq_true, beq_iff_eq, Option.some.injEq,
      List.cons.injEq, and_true, true_and]
    exact and_comm
  · rename_i hother
    constructor
    · intro h
      cases h
    · rintro ⟨hargs, -, -⟩
      exact absurd hargs (hother e)

/-- The way a call is evaluated depends on its name and its annotations alone. -/
theorem call_eq (ev : Evaluator) (call : Expr) (path : Path) (args : List Expr)
    (builtin impure : Bool) :
    s.call ev req call path args builtin impure =
      match smoothZero? path args builtin with
      | some e => s.eval req e
      | none =>
        if builtin then
          match Builtin.rule? path.last ev.config.flags.metamodelica with
          | some rule => s.callBuiltin ev req args rule
          | none => EvalM.fail .notConstant
        else if impure then EvalM.fail .notConstant
        else s.callFunction ev req call path args := by
  unfold Steps.call
  cases smoothZero? path args builtin with
  | some e => rfl
  | none =>
    cases builtin with
    | true =>
      cases Builtin.rule? path.last ev.config.flags.metamodelica with
      | some rule => cases impure <;> exact firstMatch_idle _ (by simp [IsIdle])
      | none =>
        cases impure with
        | true => exact firstMatch_idle _ (by simp)
        | false => exact firstMatch_nil
    | false =>
      cases impure with
      | true => exact firstMatch_idle _ (by simp)
      | false => exact firstMatch_idle _ (by simp [IsIdle])

end Steps

end ModelicaFold
