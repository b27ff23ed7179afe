import ModelicaFold.Proofs.Folding.Settle
import ModelicaFold.Proofs.Shape.Consistent

/-!
# Folding is undone by evaluation

A value that is folded into an expression is written as a literal. The literal evaluates to that
very value, in any environment, context and mode (`folding_undone`): an array gets its sizes back,
from the type of the literal if it is empty and from its first element otherwise, a record its
position from the form of the literal, and quoted code is spliced to itself.

This asks for arrays whose sizes are in step with their nesting, for record positions of at least -1
and for quoted code without `Eval` markers; other values have literals too, but not for themselves.
-/

namespace ModelicaFold

namespace Value

/-! ## Values that have literals -/

/-- The position of a record in its union type is at least -1. -/
def RecordFits : Value → Prop
  | .record _ _ _ index => -1 ≤ index
  | _ => True

/-- A piece of quoted code holds no `Eval` marker. -/
def CodeFits : Value → Prop
  | .code (.expression c) => c.Unmarked
  | _ => True

/-- A value that no expression denotes: the result of `fail()`, no result, or a value that is not
there yet. -/
def IsMissing : Value → Prop
  | .fail => True
  | .noReturn => True
  | .empty _ _ _ => True
  | _ => False

/-- A list of values has literals if each of them has, in order. -/
theorem allToExpr?_eq_mapM (vs : List Value) : allToExpr? vs = vs.mapM toExpr? := by
  induction vs with
  | nil => rfl
  | cons v vs ih =>
    rw [allToExpr?, ih, List.mapM_cons]
    cases v.toExpr? with
    | none => rfl
    | some e => cases vs.mapM toExpr? <;> rfl

/-- A list of values has literals if each of them has. -/
theorem allToExpr?_isSome_iff (vs : List Value) :
    (allToExpr? vs).isSome = true ↔ ∀ v ∈ vs, v.toExpr?.isSome = true := by
  induction vs with
  | nil => simp [allToExpr?]
  | cons v vs ih =>
    rw [List.forall_mem_cons, ← ih, allToExpr?]
    cases v.toExpr? <;> cases allToExpr? vs <;> simp

/-- A value has a literal if and only if it and all its parts denote something. -/
theorem toExpr?_isSome_iff_parts (v : Value) :
    v.toExpr?.isSome = true ↔ ¬v.IsMissing ∧ ∀ w ∈ v.parts, w.toExpr?.isSome = true := by
  cases v with
  | array elements dims => simp [toExpr?, IsMissing, parts, allToExpr?_isSome_iff]
  | list elements => simp [toExpr?, IsMissing, parts, allToExpr?_isSome_iff]
  | _ => simp [toExpr?, IsMissing, parts, allToExpr?_isSome_iff]

/-- A value has a literal if and only if nothing is missing in it. -/
theorem toExpr?_isSome_iff (v : Value) :
    v.toExpr?.isSome = true ↔ v.Everywhere fun w => ¬w.IsMissing := by
  induction v using partsInduction with
  | step v ih =>
    rw [toExpr?_isSome_iff_parts, everywhere_iff]
    exact and_congr_right fun _ => forall₂_congr fun w hw => ih w hw

/-- The elements of a consistent array make the same array again, with the sizes that the type of
its literal tells. -/
theorem arrayOfType_eq {elements : Array Value} {dims : List Nat} (ty : Ty)
    (h : (Value.array elements dims).Consistent) :
    Steps.arrayOfType (.array ty (dims.map .known)) elements.toList = .array elements dims := by
  obtain ⟨inner, rfl, hall⟩ := consistent_array.mp h
  have hstatic : ∀ ds : List Nat, Ty.staticDims (.array ty (ds.map .known)) = some ds := by
    intro ds
    refine mapM_eq_some.mpr (List.forall₂_map_left_iff.mpr ?_)
    exact List.forall₂_same.mpr fun d _ => rfl
  obtain ⟨elements⟩ := elements
  cases elements with
  | nil => simp only [Steps.arrayOfType, List.size_toArray, List.length_nil, hstatic]
  | cons v vs =>
    have hv : v.dims = inner := (hall v List.mem_cons_self).2
    simp [Steps.arrayOfType, arrayOf, hv]

/-- The literal of a value evaluates to the value. -/
theorem settles_literal {v : Value} (hshape : v.Consistent) (hrecord : v.Everywhere RecordFits)
    (hcode : v.Everywhere CodeFits) {e : Expr} (he : v.toExpr? = some e) :
    Settles (fun ev req n => (ev.steps n).eval req e) v := by
  induction v using partsInduction generalizing e with
  | step v ih =>
    obtain ⟨_, hshapes⟩ := consistent_iff.mp hshape
    obtain ⟨hindex, hrecords⟩ := everywhere_iff.mp hrecord
    obtain ⟨hfragment, hcodes⟩ := everywhere_iff.mp hcode
    have hpart : ∀ w ∈ v.parts, ∀ e, w.toExpr? = some e →
        Settles (fun ev req n => (ev.steps n).eval req e) w := fun w hw e he =>
      ih w hw (hshapes w hw) (hrecords w hw) (hcodes w hw) he
    have hall : ∀ es, allToExpr? v.parts = some es →
        Settles (fun ev req n => (ev.steps n).evalAll req es) v.parts := by
      intro es hes
      rw [allToExpr?_eq_mapM, mapM_eq_some] at hes
      refine .evalAll ?_
      exact ((List.forall₂_and_left _ _).mpr ⟨hpart, hes⟩).imp fun w e h => h.1 e h.2
    refine .eval ?_
    cases v with
    | integer n =>
      cases he
      exact .pure _
    | real x =>
      cases he
      exact .pure _
    | bool b =>
      cases he
      exact .pure _
    | string s =>
      cases he
      exact .pure _
    | enumeration path index =>
      cases he
      exact .pure _
    | absent =>
      cases he
      exact .pure _
    | array elements dims =>
      obtain ⟨es, hes, rfl⟩ := Option.map_eq_some_iff.mp he
      have hvalue := arrayOfType_eq (leafType (.array elements dims)) hshape
      exact hvalue ▸ (hall es hes).map (Steps.arrayOfType (.array _ (dims.map .known)))
    | list elements =>
      obtain ⟨es, hes, rfl⟩ := Option.map_eq_some_iff.mp he
      exact (hall es hes).map Value.listOf
    | tuple elements =>
      obtain ⟨es, hes, rfl⟩ := Option.map_eq_some_iff.mp he
      exact (hall es hes).map Value.tuple
    | record path fields names index =>
      obtain ⟨es, hes, rfl⟩ := Option.map_eq_some_iff.mp he
      split
      · exact (hall es hes).map fun fields => Value.record path fields names index
      · rename_i hnegative
        have hnone : index = -1 := by
          simp only [RecordFits] at hindex
          omega
        rw [hnone]
        exact (hall es hes).map fun fields => Value.record path fields names (-1)
    | present content =>
      obtain ⟨e', he', rfl⟩ := Option.map_eq_some_iff.mp he
      exact (hpart content List.mem_cons_self e' he').map Value.present
    | boxed content =>
      obtain ⟨e', he', rfl⟩ := Option.map_eq_some_iff.mp he
      exact (hpart content List.mem_cons_self e' he').map Value.boxed
    | code fragment =>
      cases he
      cases fragment with
      | expression c => exact (settles_splice hfragment).map _
      | typeName path => exact .pure _
      | componentName path => exact .pure _
    | fail => cases he
    | noReturn => cases he
    | empty scope name ty => cases he

end Value

/-! ## Evaluation and folding -/

/-- Reporting failures does not change what a step gives. -/
theorem EvalM.Gives.reporting {α : Type} {x : EvalM α} {ctx ctx' : Context} {log log' : Log}
    {a : α} (h : x.Gives ctx log a ctx' log') (r : Reporting) :
    (x.reporting r).Gives ctx log a ctx' log' := by
  unfold Gives EvalM.reporting
  rw [h]

/-- Reporting a failure at the limit leaves it at the limit. -/
theorem AtLimit.reporting {α : Type} {x : EvalM α} {limit : Nat} {ctx : Context} {log : Log}
    (h : AtLimit limit (x ctx log).1) (r : Reporting) :
    AtLimit limit (x.reporting r ctx log).1 := by
  obtain ⟨f, hf, hcause⟩ := h
  rcases hrun : x ctx log with ⟨_, log'⟩
  rw [hrun] at hf
  cases hf
  rw [EvalM.reporting_eq_handing, EvalM.handing, hrun]
  exact ⟨_, rfl, ((keepsCause_report r) f log').1.trans hcause⟩

/-- A constant expression that has a value with a literal is folded to the literal. -/
theorem Evaluator.fold_gives_literal {ev : Evaluator} {req : Request} {original e : Expr}
    {variability : Variability} {v : Value} {ctx ctx' : Context} {log log' : Log}
    (hconstant : variability.isEvaluable = true ∨ req.mode.readsVariables = true)
    (hvalue : (ev.evaluate req original).Gives ctx log v ctx' log') (he : v.toExpr? = some e) :
    (ev.fold req original variability).Gives ctx log e ctx' log' := by
  have hopen : (!variability.isEvaluable && !req.mode.readsVariables) = false := by
    rcases hconstant with h | h <;> simp [h]
  unfold Evaluator.fold
  simp only [hopen, Bool.false_eq_true, if_false]
  refine EvalM.gives_bind.mpr ⟨.ok v, ctx', log', ?_, ?_⟩
  · unfold EvalM.Gives EvalM.attempt
    rw [hvalue]
  · simp only [he, Option.getD_some]
    rfl

/-- Folding is undone by evaluation. A value has a literal if and only if nothing is missing in it;
wherever the literal is evaluated, it gives the value and leaves the context alone unless the
recursion limit is hit, which a large enough limit never is; and an expression with this value is
folded to the literal. -/
theorem folding_undone (v : Value) (hshape : v.Consistent) (hrecord : v.Everywhere Value.RecordFits)
    (hcode : v.Everywhere Value.CodeFits) :
    (v.toExpr?.isSome = true ↔ v.Everywhere fun w => ¬w.IsMissing)
      ∧ ∀ e, v.toExpr? = some e →
        (∀ (ev : Evaluator) req ctx log, (∃ log', (ev.evaluate req e).Gives ctx log v ctx log')
          ∨ AtLimit ev.config.recursionLimit (ev.evaluate req e ctx log).1)
        ∧ (∃ enough, ∀ ev : Evaluator, enough ≤ ev.config.recursionLimit →
          ∀ req ctx log, ∃ log', (ev.evaluate req e).Gives ctx log v ctx log')
        ∧ ∀ (ev : Evaluator) req original variability ctx log ctx' log',
          variability.isEvaluable = true ∨ req.mode.readsVariables = true →
          (ev.evaluate req original).Gives ctx log v ctx' log' →
          (ev.fold req original variability).Gives ctx log e ctx' log' := by
  refine ⟨Value.toExpr?_isSome_iff v, fun e he => ?_⟩
  have hsettles := Value.settles_literal hshape hrecord hcode he
  refine ⟨fun ev req ctx log => ?_, ?_, fun ev req original variability ctx log ctx' log' =>
    fun hconstant hvalue => Evaluator.fold_gives_literal hconstant hvalue he⟩
  · rcases hsettles.orRefused ev req (ev.config.recursionLimit + 1) ctx log with
      ⟨log', hgives⟩ | hlimit
    · exact .inl ⟨log', hgives.reporting req.reporting⟩
    · exact .inr (hlimit.reporting req.reporting)
  · obtain ⟨enough, henough⟩ := hsettles.eventually
    refine ⟨enough, fun ev hle req ctx log => ?_⟩
    obtain ⟨log', hgives⟩ := henough (ev.config.recursionLimit + 1) (by omega) ev req ctx log
    exact ⟨log', hgives.reporting req.reporting⟩

/-- Two empty rows: the literal of the matrix evaluates to the same two rows. -/
theorem folding_undone_emptyRows :
    ∃ log', ((Evaluator.alone .standard).evaluate ⟨.empty, .explicit, .silent⟩
        (.array (.array .unknown [.known 2, .known 0]) false
          [.array (.array .unknown [.known 0]) true [],
            .array (.array .unknown [.known 0]) true []])).Gives .empty (.start .unlimited)
      (.array #[.array #[] [0], .array #[] [0]] [2, 0]) .empty log' := by
  have hrows : ∀ P : Value → Prop, P (.array #[] [0]) →
      P (.array #[.array #[] [0], .array #[] [0]] [2, 0]) →
      (Value.array #[.array #[] [0], .array #[] [0]] [2, 0]).Everywhere P := by
    intro P hrow hmatrix
    refine .intro hmatrix fun w hw => ?_
    have hw : w = .array #[] [0] := by simpa [Value.parts] using hw
    rw [hw]
    exact .intro hrow fun u hu => absurd hu List.not_mem_nil
  have hshape : (Value.array #[.array #[] [0], .array #[] [0]] [2, 0]).Consistent := by
    simp [Value.consistent_array, Value.dims]
  have h := (folding_undone _ hshape (hrows _ trivial trivial) (hrows _ trivial trivial)).2 _ rfl
  refine (h.1 (.alone .standard) _ _ _).resolve_right ?_
  rintro ⟨f, hf, -⟩
  cases hf

end ModelicaFold
