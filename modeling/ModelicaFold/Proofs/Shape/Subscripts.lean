import ModelicaFold.Eval.Rule
import ModelicaFold.Proofs.Shape.Operators

/-!
# Subscripts on consistent values

What follows a slice or `:` in a list of subscripts applies to every element kept, and its
subscripts are evaluated anew for each. Literal subscripts have the same value every time
(`Steady`), so the elements kept all get the same sizes.
-/

namespace ModelicaFold

/-! ## Literal subscripts -/

/-- An index that is written down: an Integer, a Boolean or an enumeration literal, or an array or a
range of such indices. -/
inductive Expr.LiteralIndex : Expr → Prop where
  | integer (n : Int) : LiteralIndex (.integer n)
  | bool (b : Bool) : LiteralIndex (.bool b)
  | enumeration (path : Path) (index : Int) : LiteralIndex (.enumeration path index)
  | array (ty : Ty) (flag : Bool) {elements : List Expr} :
      (∀ e ∈ elements, LiteralIndex e) → LiteralIndex (.array ty flag elements)
  | range (ty : Ty) {start stop : Expr} {step : Option Expr} :
      LiteralIndex start → (∀ e ∈ step, LiteralIndex e) → LiteralIndex stop →
      LiteralIndex (.range ty start step stop)

/-- The expression of a subscript, if it has one, satisfies a property. -/
def Subscript.Satisfies (P : Expr → Prop) : Subscript → Prop
  | .index e => P e
  | .slice e => P e
  | .whole => True

/-- A step that gives the same value whenever it gives one. -/
def EvalM.Steady {α : Type} (x : EvalM α) : Prop :=
  ∀ ⦃ctx₁ log₁ a₁ ctx₁' log₁' ctx₂ log₂ a₂ ctx₂' log₂'⦄,
    x.Gives ctx₁ log₁ a₁ ctx₁' log₁' → x.Gives ctx₂ log₂ a₂ ctx₂' log₂' → a₁ = a₂

namespace EvalM.Steady

variable {α β : Type}

/-- A computation without effects gives the same value every time. -/
theorem ofOutcome (o : Outcome α) : (EvalM.ofOutcome o).Steady := by
  intro _ _ _ _ _ _ _ _ _ _ h₁ h₂
  exact Except.ok.inj ((gives_ofOutcome.mp h₁).1.symm.trans (gives_ofOutcome.mp h₂).1)

/-- A pure step gives the same value every time. -/
theorem pure (a : α) : (Pure.pure a : EvalM α).Steady := ofOutcome (.ok a)

/-- A sequence gives the same value every time if its parts do. -/
theorem bind {x : EvalM α} {k : α → EvalM β} (hx : x.Steady) (hk : ∀ a, (k a).Steady) :
    (x >>= k).Steady := by
  intro _ _ _ _ _ _ _ _ _ _ h₁ h₂
  obtain ⟨a₁, _, _, ha₁, hb₁⟩ := gives_bind.mp h₁
  obtain ⟨a₂, _, _, ha₂, hb₂⟩ := gives_bind.mp h₂
  cases hx ha₁ ha₂
  exact hk a₁ hb₁ hb₂

/-- Mapping a list gives the same values every time if the steps do. -/
theorem mapM {f : α → EvalM β} {items : List α} (hf : ∀ a ∈ items, (f a).Steady) :
    (items.mapM f).Steady := by
  induction items with
  | nil => exact pure []
  | cons a items ih =>
    rw [List.mapM_cons]
    refine bind (hf a List.mem_cons_self) fun b => ?_
    exact bind (ih fun c hc => hf c (List.mem_cons_of_mem a hc)) fun bs => pure (b :: bs)

/-- A step on an optional item gives the same value every time if it does on the item. -/
theorem optionMapM {f : α → EvalM β} {item : Option α} (hf : ∀ a ∈ item, (f a).Steady) :
    (item.mapM f).Steady := by
  cases item with
  | none => exact pure none
  | some a => exact bind (hf a rfl) fun b => pure (some b)

/-- The value that a steady evaluation gives, if it ever gives one. -/
theorem exists_value {x : EvalM Value} (h : x.Steady) :
    ∃ v, ∀ ⦃ctx log w ctx' log'⦄, x.Gives ctx log w ctx' log' → w = v := by
  by_cases hx : ∃ ctx log v ctx' log', x.Gives ctx log v ctx' log'
  · obtain ⟨_, _, v, _, _, hv⟩ := hx
    exact ⟨v, fun _ _ _ _ _ hw => h hw hv⟩
  · exact ⟨.fail, fun ctx log w ctx' log' hw => absurd ⟨ctx, log, w, ctx', log', hw⟩ hx⟩

end EvalM.Steady

/-- An expression has the same value every time if its rule gives it. -/
theorem steady_eval {ev : Evaluator} {req : Request} {e : Expr}
    (h : ∀ n, ((ev.steps n).rule ev req e).Steady) (n : Nat) :
    ((ev.steps n).eval req e).Steady := by
  cases n with
  | zero => exact fun _ _ _ _ _ _ _ _ _ _ h₁ => by cases h₁
  | succ n => exact .bind (fun _ _ _ _ _ _ _ _ _ _ _ _ => rfl) fun _ => h n

/-- A literal index has the same value every time. -/
theorem steady_of_literalIndex (ev : Evaluator) (req : Request) {e : Expr} (h : e.LiteralIndex)
    (n : Nat) : ((ev.steps n).eval req e).Steady := by
  induction h generalizing n with
  | integer k => exact steady_eval (fun _ => .pure _) n
  | bool b => exact steady_eval (fun _ => .pure _) n
  | enumeration path index => exact steady_eval (fun _ => .pure _) n
  | array ty flag _ ih =>
    refine steady_eval (fun n => ?_) n
    exact .bind (.mapM fun e he => ih e he n) fun values => .pure _
  | range ty _ _ _ ihstart ihstep ihstop =>
    refine steady_eval (fun n => ?_) n
    refine .bind (ihstart n) fun a => .bind (.optionMapM fun e he => ihstep e he n) fun d => ?_
    refine .bind (ihstop n) fun b => .bind (.ofOutcome _) fun elements => .pure _

/-! ## The shape of what is kept -/

/-- The element at a position is one of the elements. -/
theorem nth_mem {α : Type} {items : Array α} {i : Int} {a : α} (h : nth items i = .ok a) :
    a ∈ items.toList := by
  unfold nth at h
  split at h
  · rename_i item hitem
    cases h
    split at hitem
    · exact Array.mem_toList_iff.mpr (Array.mem_of_getElem? hitem)
    · cases hitem
  · simp at h

/-- An element of a consistent array is consistent, and has the sizes that remain. -/
theorem Value.Consistent.select {v w : Value} (hv : v.Consistent) {i : Int}
    (h : v.select i = .ok w) : w.Consistent ∧ w.dims = v.dims.tail := by
  cases v with
  | array elements dims =>
    obtain ⟨inner, rfl, hall⟩ := Value.consistent_array.mp hv
    exact hall w (nth_mem h)
  | _ => simp [Value.select] at h

/-- An element that is selected in a run of steps is one that has been selected. -/
theorem Value.Consistent.gives_select {v w : Value} (hv : v.Consistent) {i : Outcome Int}
    {k : Value → EvalM Value} {ctx ctx' : Context} {log log' : Log}
    (h : ((liftM i : EvalM Int) >>= fun i => (liftM (v.select i) : EvalM Value) >>= k).Gives
      ctx log w ctx' log') :
    ∃ element ctx log, element.Consistent ∧ element.dims = v.dims.tail
      ∧ (k element).Gives ctx log w ctx' log' := by
  obtain ⟨position, _, _, _, h⟩ := EvalM.gives_bind.mp h
  obtain ⟨element, ctx₁, log₁, helement, h⟩ := EvalM.gives_bind.mp h
  obtain ⟨hconsistent, hdims⟩ := hv.select (EvalM.gives_ofOutcome.mp helement).1
  exact ⟨element, ctx₁, log₁, hconsistent, hdims, h⟩

/-- What steps for every item give makes a consistent array if it has the same sizes for all. -/
theorem arrayOf_mapM_shape {α : Type} {f : α → EvalM Value} {items : List α} {kept : List Value}
    {dims : List Nat} {ctx ctx' : Context} {log log' : Log}
    (hitems : ∀ a ∈ items, ∀ ⦃ctx log w ctx' log'⦄, (f a).Gives ctx log w ctx' log' →
      w.Consistent ∧ w.dims = dims)
    (h : (items.mapM f).Gives ctx log kept ctx' log') :
    (Value.arrayOf kept).Consistent
      ∧ (Value.arrayOf kept).dims = if items.length = 0 then [0] else items.length :: dims := by
  have hforall := EvalM.gives_mapM h
  have hall : ∀ w ∈ kept, w.Consistent ∧ w.dims = dims := by
    intro w hw
    obtain ⟨a, ha, _, _, _, _, hgives⟩ := exists_mem_of_forall₂ hforall w hw
    exact hitems a ha hgives
  exact ⟨Value.consistent_arrayOf hall, by rw [hforall.length_eq, Value.dims_arrayOf_of hall]⟩

namespace Steps

/-- All that `:` keeps, with the subscripts that follow applied to each element. A scalar is left to
these subscripts as it is. -/
theorem whole_shape {s : Steps} {req : Request} {rest : List Subscript} (hrest : ¬rest.isEmpty)
    {dims dims' : List Nat}
    (hshape : ∀ ⦃v ctx log w ctx' log'⦄, v.Consistent → v.dims = dims.tail →
      (s.applySubscripts req rest v).Gives ctx log w ctx' log' → w.Consistent ∧ w.dims = dims')
    {v w : Value} {ctx ctx' : Context} {log log' : Log} (hv : v.Consistent) (hdims : v.dims = dims)
    (h : (s.applySubscripts req (.whole :: rest) v).Gives ctx log w ctx' log') :
    w.Consistent ∧ w.dims =
      if dims = [] then dims' else if dims.headD 0 = 0 then [0] else dims.headD 0 :: dims' := by
  simp only [applySubscripts, if_neg hrest] at h
  subst hdims
  cases v with
  | array elements dims =>
    obtain ⟨inner, rfl, hall⟩ := Value.consistent_array.mp hv
    simp only at h
    split at h
    · rename_i hzero
      obtain ⟨rfl, _, _⟩ := EvalM.gives_pure.mp h
      have hsize : elements.size = 0 := by simpa using hzero
      simpa [Value.dims, hsize] using Value.consistent_empty []
    · obtain ⟨kept, _, _, hkept, h⟩ := EvalM.gives_bind.mp h
      obtain ⟨rfl, _, _⟩ := EvalM.gives_pure.mp h
      obtain ⟨hkeptConsistent, hkeptDims⟩ := arrayOf_mapM_shape
        (fun element helement _ _ _ _ _ h =>
          hshape (hall element helement).1 (hall element helement).2 h) hkept
      refine ⟨hkeptConsistent, ?_⟩
      rw [hkeptDims, Array.length_toList]
      simp [Value.dims]
  | _ => simpa [Value.dims] using hshape hv rfl h

/-- Steady subscripts give a consistent value, whose sizes depend on those of the operand alone. -/
theorem applySubscripts_shape {s : Steps} {req : Request} {subscripts : List Subscript}
    (hsteady : ∀ subscript ∈ subscripts, subscript.Satisfies fun e => (s.eval req e).Steady)
    (dims : List Nat) :
    ∃ dims', ∀ ⦃v ctx log w ctx' log'⦄, v.Consistent → v.dims = dims →
      (s.applySubscripts req subscripts v).Gives ctx log w ctx' log' →
      w.Consistent ∧ w.dims = dims' := by
  induction subscripts generalizing dims with
  | nil =>
    refine ⟨dims, fun v ctx log w ctx' log' hv hdims h => ?_⟩
    obtain ⟨rfl, _, _⟩ := EvalM.gives_pure.mp h
    exact ⟨hv, hdims⟩
  | cons subscript rest ih =>
    obtain ⟨hfirst, hrest⟩ := List.forall_mem_cons.mp hsteady
    cases subscript with
    | index e =>
      obtain ⟨dims', hshape⟩ := ih hrest dims.tail
      refine ⟨dims', fun v ctx log w ctx' log' hv hdims h => ?_⟩
      obtain ⟨i, _, _, _, h⟩ := EvalM.gives_bind.mp h
      obtain ⟨element, _, _, hconsistent, helement, h⟩ := hv.gives_select h
      exact hshape hconsistent (by rw [helement, hdims]) h
    | slice e =>
      obtain ⟨dims', hshape⟩ := ih hrest dims.tail
      obtain ⟨indices, hindices⟩ := EvalM.Steady.exists_value hfirst
      refine ⟨if indices.flatten.length = 0 then [0] else indices.flatten.length :: dims',
        fun v ctx log w ctx' log' hv hdims h => ?_⟩
      obtain ⟨indices', _, _, heval, h⟩ := EvalM.gives_bind.mp h
      obtain ⟨picked, _, _, hpicked, h⟩ := EvalM.gives_bind.mp h
      obtain ⟨rfl, _, _⟩ := EvalM.gives_pure.mp h
      obtain rfl := hindices heval
      refine arrayOf_mapM_shape (fun i _ ctx log w ctx' log' h => ?_) hpicked
      obtain ⟨element, _, _, hconsistent, helement, h⟩ := hv.gives_select h
      exact hshape hconsistent (by rw [helement, hdims]) h
    | whole =>
      by_cases hempty : rest.isEmpty = true
      · refine ⟨dims, fun v ctx log w ctx' log' hv hdims h => ?_⟩
        simp only [applySubscripts, hempty, if_true] at h
        obtain ⟨rfl, _, _⟩ := EvalM.gives_pure.mp h
        exact ⟨hv, hdims⟩
      obtain ⟨dims', hshape⟩ := ih hrest dims.tail
      exact ⟨_, fun v ctx log w ctx' log' hv hdims h => whole_shape hempty hshape hv hdims h⟩

end Steps

end ModelicaFold
