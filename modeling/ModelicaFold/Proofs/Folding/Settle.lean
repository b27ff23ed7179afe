import ModelicaFold.Proofs.Runs.Limit
import ModelicaFold.Proofs.Runs.Success

/-!
# Evaluations that settle

Evaluation of a literal gives one value, wherever and however it is evaluated, and leaves the
context alone; only the recursion limit can keep it from that. `Settles` says so for families of
steps, one for each evaluator, request and number of levels left, and is kept by the ways to
combine steps.
-/

namespace ModelicaFold

/-- A step for every evaluator, request and number of levels left that gives `a` and leaves the
context alone, unless the recursion limit refuses a step; with enough levels it refuses none. -/
structure Settles {α : Type} (x : Evaluator → Request → Nat → EvalM α) (a : α) : Prop where
  orRefused : ∀ ev req n ctx log, (∃ log', (x ev req n).Gives ctx log a ctx log')
    ∨ AtLimit ev.config.recursionLimit (x ev req n ctx log).1
  eventually : ∃ enough, ∀ n, enough ≤ n → ∀ ev req ctx log,
    ∃ log', (x ev req n).Gives ctx log a ctx log'

namespace Settles

variable {α β : Type}

/-- A pure step settles on its value. -/
theorem pure (a : α) : Settles (fun _ _ _ => Pure.pure a) a where
  orRefused _ _ _ _ log := .inl ⟨log, rfl⟩
  eventually := ⟨0, fun _ _ _ _ _ log => ⟨log, rfl⟩⟩

/-- A computation that succeeds. -/
theorem ofOutcome {o : Outcome α} {a : α} (h : o = .ok a) :
    Settles (fun _ _ _ => EvalM.ofOutcome o) a := by
  rw [h]
  exact .pure a

/-- A sequence settles if its parts do. -/
theorem bind {x : Evaluator → Request → Nat → EvalM α} {a : α}
    {k : Evaluator → Request → Nat → α → EvalM β} {b : β} (hx : Settles x a)
    (hk : Settles (fun ev req n => k ev req n a) b) :
    Settles (fun ev req n => x ev req n >>= k ev req n) b where
  orRefused ev req n ctx log := by
    rcases hx.orRefused ev req n ctx log with ⟨log₁, hgives⟩ | ⟨f, hf, hcause⟩
    · rcases hk.orRefused ev req n ctx log₁ with ⟨log', hb⟩ | hlimit
      · exact .inl ⟨log', EvalM.gives_bind.mpr ⟨a, ctx, log₁, hgives, hb⟩⟩
      · refine .inr ?_
        rw [EvalM.bind_apply, hgives]
        exact hlimit
    · refine .inr ?_
      rcases hrun : x ev req n ctx log with ⟨_, log'⟩
      rw [hrun] at hf
      cases hf
      rw [EvalM.bind_apply, hrun]
      exact ⟨f, rfl, hcause⟩
  eventually := by
    obtain ⟨n₁, h₁⟩ := hx.eventually
    obtain ⟨n₂, h₂⟩ := hk.eventually
    refine ⟨max n₁ n₂, fun n hn ev req ctx log => ?_⟩
    obtain ⟨log₁, ha⟩ := h₁ n (by omega) ev req ctx log
    obtain ⟨log₂, hb⟩ := h₂ n (by omega) ev req ctx log₁
    exact ⟨log₂, EvalM.gives_bind.mpr ⟨a, ctx, log₁, ha, hb⟩⟩

/-- A function may be applied to what a step settles on. -/
theorem map {x : Evaluator → Request → Nat → EvalM α} {a : α} (hx : Settles x a) (f : α → β) :
    Settles (fun ev req n => x ev req n >>= fun a => Pure.pure (f a)) (f a) :=
  hx.bind (.pure (f a))

/-- Mapping a list settles on the results that the steps settle on. -/
theorem mapM {f : Evaluator → Request → Nat → α → EvalM β} {items : List α} {results : List β}
    (h : List.Forall₂ (fun a b => Settles (fun ev req n => f ev req n a) b) items results) :
    Settles (fun ev req n => items.mapM (f ev req n)) results := by
  induction h with
  | nil => exact .pure []
  | @cons a b items results hab _ ih =>
    simp only [List.mapM_cons]
    exact hab.bind (ih.map (b :: ·))

/-- Items each of which settles to itself. -/
theorem mapM_self {f : Evaluator → Request → Nat → α → EvalM α} {items : List α}
    (h : ∀ a ∈ items, Settles (fun ev req n => f ev req n a) a) :
    Settles (fun ev req n => items.mapM (f ev req n)) items :=
  .mapM (List.forall₂_same.mpr h)

/-- A step that settles on its item does so for an optional item. -/
theorem optionMapM_self {f : Evaluator → Request → Nat → α → EvalM α} {item : Option α}
    (h : ∀ a ∈ item, Settles (fun ev req n => f ev req n a) a) :
    Settles (fun ev req n => item.mapM (f ev req n)) item := by
  cases item with
  | none => exact .pure none
  | some a => exact (h a rfl).map some

/-- With no level left a step may be refused. -/
theorem above {x : Evaluator → Request → Nat → EvalM α} {a : α}
    (hzero : ∀ ev req, x ev req 0 = ev.refuse)
    (h : Settles (fun ev req n => x ev req (n + 1)) a) : Settles x a where
  orRefused ev req n := by
    cases n with
    | zero =>
      intro ctx log
      rw [hzero]
      exact .inr ⟨_, rfl, rfl⟩
    | succ n => exact h.orRefused ev req n
  eventually := by
    obtain ⟨enough, henough⟩ := h.eventually
    refine ⟨enough + 1, fun n hn => ?_⟩
    obtain ⟨n, rfl⟩ : ∃ n', n = n' + 1 := ⟨n - 1, by omega⟩
    exact henough n (by omega)

/-- An expression settles if the rule for its form does. -/
theorem eval {e : Expr} {v : Value} (h : Settles (fun ev req n => (ev.steps n).rule ev req e) v) :
    Settles (fun ev req n => (ev.steps n).eval req e) v := by
  refine .above (fun _ _ => rfl) ?_
  have hcount : Settles (fun _ _ _ =>
      EvalM.count fun c => { c with expressions := c.expressions + 1 }) () :=
    ⟨fun _ _ _ _ _ => .inl ⟨_, rfl⟩, 0, fun _ _ _ _ _ _ => ⟨_, rfl⟩⟩
  exact hcount.bind h

/-- Evaluating a list of expressions settles on the values that they settle on. -/
theorem evalAll {es : List Expr} {vs : List Value}
    (h : List.Forall₂ (fun v e => Settles (fun ev req n => (ev.steps n).eval req e) v) vs es) :
    Settles (fun ev req n => (ev.steps n).evalAll req es) vs :=
  .mapM h.flip

end Settles

/-! ## Quoted code without markers -/

/-- The direct parts of a piece of code. -/
def Code.parts : Code → List Code
  | .reference _ subscripts => subscripts
  | .binary lhs _ rhs => [lhs, rhs]
  | .unary _ operand => [operand]
  | .logical lhs _ rhs => [lhs, rhs]
  | .logicalUnary _ operand => [operand]
  | .relation lhs _ rhs => [lhs, rhs]
  | .conditional condition yes elseIfs no =>
    condition :: yes :: no :: elseIfs.flatMap fun (c, y) => [c, y]
  | .call _ args named => args ++ named.map (·.2)
  | .array elements => elements
  | .matrix rows => rows.flatten
  | .range start step stop => start :: stop :: step.toList
  | .tuple elements => elements
  | .list elements => elements
  | _ => []

/-- Neither a piece of code nor any part of it is an `Eval` marker. -/
inductive Code.Unmarked : Code → Prop where
  | intro {c : Code} : c.marked? = none → (∀ p ∈ c.parts, Unmarked p) → Unmarked c

/-- Splicing settles to the code itself if splicing every direct part does. -/
theorem settles_mapParts {c : Code}
    (h : ∀ p ∈ c.parts, Settles (fun ev req n => (ev.steps n).splice req p) p) :
    Settles (fun ev req n => c.mapParts ((ev.steps n).splice req)) c := by
  cases c with
  | reference path subscripts => exact (Settles.mapM_self h).map _
  | array elements => exact (Settles.mapM_self h).map _
  | tuple elements => exact (Settles.mapM_self h).map _
  | list elements => exact (Settles.mapM_self h).map _
  | unary op operand => exact (h operand (by simp [Code.parts])).map _
  | logicalUnary op operand => exact (h operand (by simp [Code.parts])).map _
  | binary lhs op rhs =>
    exact (h lhs (by simp [Code.parts])).bind ((h rhs (by simp [Code.parts])).map _)
  | logical lhs op rhs =>
    exact (h lhs (by simp [Code.parts])).bind ((h rhs (by simp [Code.parts])).map _)
  | relation lhs op rhs =>
    exact (h lhs (by simp [Code.parts])).bind ((h rhs (by simp [Code.parts])).map _)
  | conditional condition yes elseIfs no =>
    have hbranches : ∀ branch ∈ elseIfs, Settles (fun ev req n => do
        let c ← (ev.steps n).splice req branch.1
        let y ← (ev.steps n).splice req branch.2
        return (c, y)) branch := by
      intro (c, y) hbranch
      have hmem : ∀ p ∈ [c, y], p ∈ (Code.conditional condition yes elseIfs no).parts :=
        fun p hp => .tail _ (.tail _ (.tail _ (List.mem_flatMap.mpr ⟨(c, y), hbranch, hp⟩)))
      exact (h c (hmem c (by simp))).bind ((h y (hmem y (by simp))).map _)
    refine (h condition (by simp [Code.parts])).bind ((h yes (by simp [Code.parts])).bind ?_)
    exact (Settles.mapM_self hbranches).bind ((h no (by simp [Code.parts])).map _)
  | call function args named =>
    have hargs := Settles.mapM_self fun p hp => h p (List.mem_append_left _ hp)
    have hnamed : ∀ arg ∈ named, Settles (fun ev req n => do
        return (arg.1, ← (ev.steps n).splice req arg.2)) arg := fun arg harg =>
      (h arg.2 (List.mem_append_right _ (List.mem_map_of_mem harg))).map _
    exact hargs.bind ((Settles.mapM_self hnamed).map _)
  | matrix rows =>
    have hrows : ∀ row ∈ rows,
        Settles (fun ev req n => row.mapM ((ev.steps n).splice req)) row := fun row hrow =>
      Settles.mapM_self fun p hp => h p (List.mem_flatten.mpr ⟨row, hrow, hp⟩)
    exact (Settles.mapM_self hrows).map _
  | range start step stop =>
    have hstep := Settles.optionMapM_self fun p hp => h p (by
      simp only [Code.parts, List.mem_cons, Option.mem_toList]
      exact .inr (.inr hp))
    refine (h start (by simp [Code.parts])).bind (hstep.bind ?_)
    exact (h stop (by simp [Code.parts])).map _
  | _ => exact .pure _

/-- Code without markers is spliced to itself. -/
theorem settles_splice {c : Code} (h : c.Unmarked) :
    Settles (fun ev req n => (ev.steps n).splice req c) c := by
  induction h with
  | @intro c hmarked _ ih =>
    refine .above (fun _ _ => rfl) ?_
    have hparts : ∀ (ev : Evaluator) (req : Request) n, (ev.steps (n + 1)).splice req c
        = c.mapParts ((ev.steps n).splice req) := by
      intro ev req n
      simp only [Evaluator.steps, Steps.spliceParts, hmarked]
    simp only [hparts]
    exact settles_mapParts ih

end ModelicaFold
