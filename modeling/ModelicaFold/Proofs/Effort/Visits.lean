import ModelicaFold.Eval.Evaluate
import ModelicaFold.Proofs.Effort.Nodes
import ModelicaFold.Proofs.Effort.Spending
import ModelicaFold.Proofs.Runs.Bodies

/-!
# Every node is visited at most once

The rules name alternatives, and an alternative brings its own evaluation of the operands. Where no
part of an expression asks for more (`Expr.Straight`) and every variable has its value, a rule still
pays for each direct subexpression at most once, whatever the evaluation of a subexpression costs
(`Steps.spends_rule`). So evaluation takes at most one step for each node, whether it succeeds or
fails (`Evaluator.spends_eval`).
-/

namespace ModelicaFold

/-- The value that a variable is declared with, or that is known from before. -/
def Binding.value? : Binding → Option Value
  | .value v => some v
  | .expression _ _ cached => cached
  | .unbound => none

/-- A variable whose value is known from its declaration, or is remembered. -/
def Found.IsSettled (found : Found) (name : String) (ctx : Context) : Prop :=
  found.declared.binding.value?.isSome = true ∨
    found.declared.binding ≠ .unbound ∧ found.isIterator = false
      ∧ (ctx.constant? (Context.key found.scope name)).isSome = true

/-- Every variable that can be found has its value. -/
def Env.Settled (env : Env) (ctx : Context) : Prop :=
  ∀ ⦃name : String⦄ ⦃found : Found⦄, env.lookup name = some found → found.IsSettled name ctx

/-- It is enough that every variable is declared with a value or has one from before. -/
theorem Env.settled_of_values {env : Env}
    (h : ∀ frame ∈ env.frames, ∀ name declared, (name, declared) ∈ frame.vars →
      declared.binding.value?.isSome = true) (ctx : Context) : env.Settled ctx := by
  intro name found hfound
  obtain ⟨hframes, hdeclared, -⟩ := findVariable_spec hfound
  have hframe := hframes.subset List.mem_cons_self
  exact .inl (h _ hframe name _ (mem_of_lookup_eq_some hdeclared))

/-- The subscripts of two references together are those of the first and then of the second. -/
theorem Reference.subscripts_append (first second : Reference) :
    (first ++ second).subscripts = first.subscripts ++ second.subscripts :=
  List.flatMap_append

open EvalM.Spends

namespace Steps

variable {s : Steps} {req : Request} {ctx : Context} {w : Expr → Nat}

/-! ## Subexpressions -/

/-- A list of expressions costs what the expressions cost together. -/
theorem spends_evalAll {es : List Expr} (h : ∀ e ∈ es, (s.eval req e).Spends ctx (w e)) :
    (s.evalAll req es).Spends ctx (es.map w).sum :=
  .mapM h

/-- The subscripts after a slice would be evaluated for each of its elements; there are none. -/
theorem spends_applySubscripts {subscripts : List Subscript}
    (hlast : Subscript.RangesLast subscripts)
    (h : ∀ e ∈ subscripts.filterMap Subscript.expr?, (s.eval req e).Spends ctx (w e)) (v : Value) :
    (s.applySubscripts req subscripts v).Spends ctx
      ((subscripts.filterMap Subscript.expr?).map w).sum := by
  induction subscripts generalizing v with
  | nil => exact .pure v ctx
  | cons subscript rest ih =>
    cases subscript with
    | index e =>
      obtain ⟨he, hrest⟩ := List.forall_mem_cons.mp h
      exact he.bind fun i => (EvalM.Spends.ofOutcome i.position ctx).after fun position =>
        (EvalM.Spends.ofOutcome (v.select position) ctx).after fun element =>
          ih hlast hrest element
    | slice e =>
      obtain rfl : rest = [] := hlast
      obtain ⟨he, -⟩ := List.forall_mem_cons.mp h
      simp only [Steps.applySubscripts]
      refine (he.andThen fun indices => map (mapM_free fun i _ => ?_) _).mono (Nat.le_add_right _ _)
      exact (EvalM.Spends.ofOutcome i.position ctx).andThen fun position =>
        (EvalM.Spends.ofOutcome (v.select position) ctx).map id
    | whole =>
      obtain rfl : rest = [] := hlast
      exact .pure v ctx

/-! ## Constructors and operators -/

/-- A matrix constructor costs what its entries cost together. -/
theorem spends_matrix {rows : List (List Expr)}
    (h : ∀ e ∈ rows.flatten, (s.eval req e).Spends ctx (w e)) :
    (s.matrix req rows).Spends ctx (rows.flatten.map w).sum := by
  have hrow : ∀ row ∈ rows, (do
      let values ← s.evalAll req row
      EvalM.ofOutcome (rowBlock values)).Spends ctx (row.map w).sum := fun row hrow =>
    (spends_evalAll fun e he => h e (List.mem_flatten.mpr ⟨row, hrow, he⟩)).andThen
      fun values => .ofOutcome _ ctx
  rw [List.map_flatten, List.sum_flatten, List.map_map]
  refine (EvalM.Spends.mapM hrow).andThen fun blocks => ?_
  split
  · exact .pure _ ctx
  · exact .ofOutcome _ ctx

/-- A range costs what its bounds and its step cost together. -/
theorem spends_range (ty : Ty) {start stop : Expr} {step : Option Expr} {m n : Nat}
    (hstart : (s.eval req start).Spends ctx m)
    (hstep : ∀ e ∈ step.toList, (s.eval req e).Spends ctx (w e))
    (hstop : (s.eval req stop).Spends ctx n) :
    (s.range req ty start step stop).Spends ctx (m + ((step.toList.map w).sum + n)) :=
  hstart.bind fun _ => (EvalM.Spends.optionMapM hstep).bind fun _ =>
    hstop.andThen fun _ => (EvalM.Spends.ofOutcome _ ctx).map _

section

variable {lhs rhs : Expr} {m n : Nat} (hlhs : (s.eval req lhs).Spends ctx m)
  (hrhs : (s.eval req rhs).Spends ctx n)

include hlhs hrhs

/-- An arithmetic operator costs what its operands cost together. -/
theorem spends_binary (op : BinaryOp) : (s.binary req lhs op rhs).Spends ctx (m + n) := by
  refine hlhs.bind fun a => hrhs.andThen fun b => ?_
  split
  · exact .fail _ ctx
  · exact .ofOutcome _ ctx

/-- A conjunction or disjunction costs at most what its operands cost together. -/
theorem spends_logical (op : LogicalOp) : (s.logical req lhs op rhs).Spends ctx (m + n) := by
  rw [logical_eq]
  refine hlhs.bind fun a => ?_
  split
  · exact (EvalM.Spends.pure _ ctx).mono (Nat.zero_le n)
  · exact hrhs.andThen fun b => .ofOutcome _ ctx

/-- A relation costs what its operands cost together. -/
theorem spends_relation (op : RelationOp) : (s.relation req lhs op rhs).Spends ctx (m + n) := by
  refine hlhs.bind fun a => hrhs.andThen fun b => ?_
  split
  · exact .pure _ ctx
  · exact .fail _ ctx

/-- Putting an element before a list costs what both cost together. -/
theorem spends_cons : (s.cons req lhs rhs).Spends ctx (m + n) := by
  refine hlhs.bind fun v => hrhs.andThen fun vs => ?_
  split
  · exact .pure _ ctx
  · exact .fail _ ctx

/-- A conditional costs at most what condition and branches cost together. -/
theorem spends_conditional {condition : Expr} {k : Nat}
    (hcondition : (s.eval req condition).Spends ctx k) :
    (s.conditional req condition lhs rhs).Spends ctx (k + (m + n)) := by
  refine hcondition.bind fun v => ?_
  split
  · exact hlhs.mono (Nat.le_add_right m n)
  · exact hrhs.mono (Nat.le_add_left n m)
  · exact (EvalM.Spends.fail _ ctx).mono (Nat.zero_le _)

end

section

variable {operand : Expr} {n : Nat} (h : (s.eval req operand).Spends ctx n)

include h

/-- A cast costs what its operand costs. -/
theorem spends_cast (ty : Ty) : (s.cast req ty operand).Spends ctx n := by
  rw [cast_eq]
  split
  · exact h.andThen fun v => .ofOutcome _ ctx
  · exact h

/-- A component of a tuple costs what the tuple costs. -/
theorem spends_component (index : Nat) : (s.component req operand index).Spends ctx n := by
  refine h.andThen fun v => ?_
  split
  · split
    · exact .pure _ ctx
    · exact .fail _ ctx
  · exact .fail _ ctx

/-- Unboxing costs what its operand costs. -/
theorem spends_unbox : (s.unbox req operand).Spends ctx n := by
  refine h.andThen fun v => ?_
  split
  · exact .pure _ ctx
  · exact .fail _ ctx

/-! ## Sizes -/

variable (hannounced : announced operand = [])

include hannounced

/-- Without a declared type to ask first the expression is evaluated, once. -/
theorem spends_sizes : (s.sizes req operand).Spends ctx n := by
  rw [sizes, hannounced]
  exact h.map _

/-- A rank costs what its operand costs, of which the type announces no sizes. -/
theorem spends_rank : (s.rank req operand).Spends ctx n :=
  (spends_sizes h hannounced).map _

/-- A size costs what its operand costs, of which the type announces no sizes, and its dimension. -/
theorem spends_size {dim : Option Expr}
    (hdim : ∀ e ∈ dim.toList, (s.eval req e).Spends ctx (w e)) :
    (s.size req operand dim).Spends ctx (n + (dim.toList.map w).sum) := by
  refine (spends_sizes h hannounced).bind fun dims => ?_
  cases dim with
  | none => exact (EvalM.Spends.ofOutcome _ ctx).map _
  | some dim =>
    refine (hdim dim List.mem_cons_self).andThen fun v => ?_
    split
    · split
      · exact .ofOutcome _ ctx
      · exact .fail _ ctx
    · exact .fail _ ctx

end

/-! ## References -/

/-- A remembered binding costs nothing. -/
theorem spends_force {found : Found} {name : String} {e : Expr} {v : Value}
    (hiterator : found.isIterator = false)
    (hv : ctx.constant? (Context.key found.scope name) = some v) :
    (s.force req found name e).Spends ctx 0 := by
  have hrun : ∀ log, s.force req found name e ctx log = (.ok (v, ctx), log) := fun log => by
    simp [force, EvalM.getContext_bind, hiterator, hv, EvalM.pure_apply]
  constructor
  · intro log
    rw [hrun]
    exact Nat.le_refl _
  · intro log a ctx' h
    rw [hrun] at h
    cases h
    rfl

/-- A variable with a value costs nothing. -/
theorem spends_readVariable {ev : Evaluator} (hsettled : req.env.Settled ctx) (name : String)
    (ty : Ty) : (s.readVariable ev req name ty).Spends ctx 0 := by
  unfold readVariable
  cases hfound : req.env.lookup name with
  | none => exact .fail _ ctx
  | some found =>
    have hvalue := hsettled hfound
    unfold Found.IsSettled at hvalue
    simp only
    cases hbinding : found.declared.binding with
    | value v => exact .pure v ctx
    | unbound => simp [hbinding, Binding.value?] at hvalue
    | expression e variability cached =>
      simp only
      split
      · exact .fail _ ctx
      · cases cached with
        | some v => exact .pure v ctx
        | none =>
          obtain ⟨-, hiterator, hremembered⟩ : _ ∧ _ ∧ _ :=
            hvalue.resolve_left (by simp [hbinding, Binding.value?])
          obtain ⟨v, hv⟩ := Option.isSome_iff_exists.mp hremembered
          exact spends_force hiterator hv

/-- Selecting fields costs what the subscripts cost together. -/
theorem spends_selectFields {fields : Reference} (hlast : Subscript.RangesLast fields.subscripts)
    (h : ∀ e ∈ fields.subscripts.filterMap Subscript.expr?, (s.eval req e).Spends ctx (w e))
    (v : Value) :
    (s.selectFields req fields v).Spends ctx
      ((fields.subscripts.filterMap Subscript.expr?).map w).sum := by
  induction fields generalizing v with
  | nil => exact .pure v ctx
  | cons part more ih =>
    have hsubscripts : Reference.subscripts (part :: more)
        = part.subscripts ++ Reference.subscripts more := List.flatMap_cons
    rw [hsubscripts] at hlast h ⊢
    obtain ⟨hpart, hmore⟩ := hlast.of_append
    rw [List.filterMap_append] at h ⊢
    rw [List.map_append, List.sum_append]
    refine (EvalM.Spends.ofOutcome _ ctx).after fun field => ?_
    refine (spends_applySubscripts hpart (fun e he => h e (List.mem_append_left _ he)) _).bind ?_
    exact fun picked => ih hmore (fun e he => h e (List.mem_append_right _ he)) picked

/-- A reference costs what its subscripts cost together. -/
theorem spends_reference {ev : Evaluator} (hsettled : req.env.Settled ctx) {parts : Reference}
    (hlast : Subscript.RangesLast parts.subscripts)
    (h : ∀ e ∈ parts.subscripts.filterMap Subscript.expr?, (s.eval req e).Spends ctx (w e))
    (ty : Ty) :
    (s.reference ev req parts ty).Spends ctx
      ((parts.subscripts.filterMap Subscript.expr?).map w).sum := by
  have hparts := req.env.splitReference_append parts
  rw [← hparts, Reference.subscripts_append] at hlast h
  conv in Reference.subscripts _ => rw [← hparts, Reference.subscripts_append]
  obtain ⟨hdeclared, hfields⟩ := hlast.of_append
  rw [List.filterMap_append] at h ⊢
  rw [List.map_append, List.sum_append]
  refine (count (g := fun c => { c with references := c.references + 1 }) (fun _ => rfl)
    ctx).after fun _ => ?_
  refine (spends_readVariable hsettled _ _).after fun v => ?_
  refine (spends_applySubscripts hdeclared (fun e he => h e (List.mem_append_left _ he)) v).bind ?_
  exact fun picked =>
    spends_selectFields hfields (fun e he => h e (List.mem_append_right _ he)) picked

/-! ## Calls -/

section

variable {args : List Expr} (h : ∀ e ∈ args, (s.eval req e).Spends ctx (w e))

include h

/-- A division with a tested divisor costs what its arguments cost together. -/
theorem spends_quotient (name : String) (zero : String → String → Cause)
    (divide : Value → Value → Outcome Value) :
    (quotient name zero divide s req args).Spends ctx (args.map w).sum := by
  refine (EvalM.Spends.ofOutcome _ ctx).after (n := (args.map w).sum) (fun _ => ?_) |>.andThen
    fun operands => .ofOutcome _ ctx
  split
  · rename_i x y
    obtain ⟨hx, hy⟩ := List.forall_mem_cons.mp h
    refine (hx.bind fun a => (hy y List.mem_cons_self).andThen fun b => ?_).mono (by simp)
    split
    · exact .fail _ ctx
    · exact .pure _ ctx
  · exact (EvalM.Spends.fail _ ctx).mono (Nat.zero_le _)

/-- The first argument is all that is evaluated. -/
theorem spends_head {rule : Expr → EvalM Value}
    (hrule : ∀ e ∈ args.head?, (rule e).Spends ctx (w e)) (checked : Outcome Unit) :
    (do
      let () ← checked
      match args with
      | e :: _ => rule e
      | [] => EvalM.fail .notConstant : EvalM Value).Spends ctx (args.map w).sum := by
  refine (EvalM.Spends.ofOutcome checked ctx).after fun _ => ?_
  cases args with
  | nil => exact .fail _ ctx
  | cons e more => exact (hrule e rfl).mono (Nat.le_add_right _ _)

/-- A call of `print` costs what its arguments cost together. -/
theorem spends_print : (s.print req args).Spends ctx (args.map w).sum := by
  refine spends_head h (fun e he => ?_) _
  refine (h e (List.mem_of_mem_head? he)).andThen fun v => ?_
  split
  · exact (modifyLog (g := (·.print _)) (fun _ => rfl) ctx).map _
  · exact .fail _ ctx

/-- A call of `smooth` costs at most what its arguments cost together. -/
theorem spends_smooth : (s.smooth req args).Spends ctx (args.map w).sum := by
  refine (EvalM.Spends.ofOutcome _ ctx).after fun _ => ?_
  split
  · rename_i order e more
    exact (h e (by simp)).mono (by simp; omega)
  · exact (EvalM.Spends.fail _ ctx).mono (Nat.zero_le _)

/-- A call of `size` costs what its arguments cost together. -/
theorem spends_sizeCall (hannounced : ∀ e ∈ args.head?, announced e = []) :
    (s.sizeCall req args).Spends ctx (args.map w).sum := by
  refine (EvalM.Spends.ofOutcome _ ctx).after fun _ => ?_
  cases args with
  | nil => exact .fail _ ctx
  | cons e more =>
    obtain ⟨he, hmore⟩ := List.forall_mem_cons.mp h
    have hdim : ∀ d ∈ more.head?.toList, (s.eval req d).Spends ctx (w d) := fun d hd =>
      hmore d (List.mem_of_mem_head? (Option.mem_toList.mp hd))
    refine (spends_size he (hannounced e rfl) hdim).mono ?_
    cases more with
    | nil => exact Nat.le_refl _
    | cons d more => simp

/-- A built-in function evaluates each of its arguments at most once. -/
theorem spends_applyRule {ev : Evaluator} {name : String} {extended : Bool} {rule : Builtin.Rule}
    (hrule : Builtin.rule? name extended = some rule) (hsimplify : name ≠ "simplify")
    (hmeasured : name = "size" ∨ name = "ndims" → ∀ e ∈ args.head?, announced e = []) :
    (s.applyRule ev req args rule).Spends ctx (args.map w).sum := by
  have hhead : ∀ e ∈ args.head?, (s.eval req e).Spends ctx (w e) := fun e he =>
    h e (List.mem_of_mem_head? he)
  cases rule with
  | ofValues f => exact (spends_evalAll h).andThen fun values => .ofOutcome _ ctx
  | ofExprs f =>
    rcases Builtin.rule?_ofExprs hrule with
      rfl | rfl | rfl | ⟨hname, rfl⟩ | rfl | rfl | ⟨hname, -⟩ | ⟨hname, rfl⟩ | rfl
    · exact spends_quotient h "div" .divisionByZero Builtin.integerDivide
    · exact spends_quotient h "mod" .moduloByZero Builtin.modulo
    · exact spends_quotient h "rem" .moduloByZero Builtin.remainder
    · exact spends_head h (fun e he => spends_rank (hhead e he) (hmeasured (.inr hname) e he)) _
    · exact spends_head h hhead _
    · exact spends_print h
    · exact absurd hname hsimplify
    · exact spends_sizeCall h (hmeasured (.inl hname))
    · exact spends_smooth h

/-- A call of a function of the model costs what its arguments cost together, if its body is not
executed. -/
theorem spends_callFunction {ev : Evaluator} (hcall : ev.ExecutesNothing) (call : Expr)
    (path : Path) : (s.callFunction ev req call path args).Spends ctx (args.map w).sum := by
  have hdelegate : ∀ values, (s.delegate ev req call values).Spends ctx 0 := fun values => by
    refine (count (g := fun c => { c with functionCalls := c.functionCalls + 1 }) (fun _ => rfl)
      ctx).after fun _ => ?_
    rw [hcall]
    exact .fail _ ctx
  refine (EvalM.Spends.mapM fun e he => (h e he).reporting req.reporting).andThen fun values => ?_
  split
  · exact hdelegate values
  · refine (count (g := fun c => { c with builtinCalls := c.builtinCalls + 1 }) (fun _ => rfl)
      ctx).after fun _ => ?_
    split
    · exact .pure _ ctx
    · refine (hdelegate values).attempt.andThen fun outcome => ?_
      split
      · exact .pure _ ctx
      · split
        · exact .throw _ ctx
        · exact .throw _ ctx

/-- A call costs what its arguments cost together, if no body is executed. -/
theorem spends_call {ev : Evaluator} (hcall : ev.ExecutesNothing) (call : Expr) {path : Path}
    {builtin : Bool} (impure : Bool)
    (hbuiltin : builtin = true → path.last ≠ "simplify" ∧
      (path.last = "size" ∨ path.last = "ndims" → ∀ e ∈ args.head?, announced e = [])) :
    (s.call ev req call path args builtin impure).Spends ctx (args.map w).sum := by
  have hfail : (EvalM.fail .notConstant : EvalM Value).Spends ctx (args.map w).sum :=
    (EvalM.Spends.fail _ ctx).mono (Nat.zero_le _)
  rw [call_eq]
  split
  · rename_i e hsmooth
    obtain ⟨rfl, -, -⟩ := smoothZero?_eq_some.mp hsmooth
    exact (h e (by simp)).mono (by simp)
  · split
    · rename_i hbuiltin'
      obtain ⟨hsimplify, hmeasured⟩ := hbuiltin hbuiltin'
      split
      · rename_i rule hrule
        refine (count (g := fun c => { c with builtinCalls := c.builtinCalls + 1 }) (fun _ => rfl)
          ctx).after fun _ => ?_
        exact spends_applyRule h hrule hsimplify hmeasured
      · exact hfail
    · split
      · exact hfail
      · exact spends_callFunction h hcall call path

end

/-! ## Every rule -/

/-- Whatever the evaluation of each direct subexpression costs, a rule pays for it at most once, and
for nothing else. -/
theorem spends_rule {ev : Evaluator} (hcall : ev.ExecutesNothing) (hsettled : req.env.Settled ctx)
    {e : Expr} (he : e.VisitsOnce) (h : ∀ part ∈ e.children, (s.eval req part).Spends ctx (w part)) :
    (s.rule ev req e).Spends ctx (e.children.map w).sum := by
  cases e with
  | reduction info body iterators => exact he.elim
  | code fragment => exact he.elim
  | integer | real | bool | string | enumeration | absent => exact .pure _ ctx
  | array ty scalar elements => exact (spends_evalAll h).map _
  | tuple elements => exact (spends_evalAll h).map _
  | list elements => exact (spends_evalAll h).map _
  | record path args fields => exact (spends_evalAll h).map _
  | unionRecord path index args fields => exact (spends_evalAll h).map _
  | matrix ty rows => exact spends_matrix h
  | reference parts ty => exact spends_reference hsettled he h ty
  | call path args ty builtin impure =>
    refine spends_call h hcall _ impure fun hbuiltin => ?_
    subst hbuiltin
    exact he
  | subscripted operand subscripts =>
    obtain ⟨hoperand, hsubscripts⟩ := List.forall_mem_cons.mp h
    exact hoperand.bind fun v => spends_applySubscripts he hsubscripts v
  | size operand dim =>
    obtain ⟨hoperand, hdim⟩ := List.forall_mem_cons.mp h
    exact spends_size hoperand he hdim
  | range ty start step stop =>
    obtain ⟨hstart, hmore⟩ := List.forall_mem_cons.mp h
    obtain ⟨hstep, hstop⟩ := List.forall_mem_append.mp hmore
    have hstop := hstop stop List.mem_cons_self
    refine (spends_range ty hstart hstep hstop).mono (Nat.le_of_eq ?_)
    simp [Expr.children]
  | binary lhs op rhs =>
    obtain ⟨hlhs, hrhs⟩ := List.forall_mem_cons.mp h
    exact spends_binary hlhs (hrhs rhs List.mem_cons_self) op
  | logical lhs op rhs =>
    obtain ⟨hlhs, hrhs⟩ := List.forall_mem_cons.mp h
    exact spends_logical hlhs (hrhs rhs List.mem_cons_self) op
  | relation lhs op rhs =>
    obtain ⟨hlhs, hrhs⟩ := List.forall_mem_cons.mp h
    exact spends_relation hlhs (hrhs rhs List.mem_cons_self) op
  | cons head tail =>
    obtain ⟨hhead, htail⟩ := List.forall_mem_cons.mp h
    exact spends_cons hhead (htail tail List.mem_cons_self)
  | conditional condition yes no =>
    obtain ⟨hcondition, hbranches⟩ := List.forall_mem_cons.mp h
    obtain ⟨hyes, hno⟩ := List.forall_mem_cons.mp hbranches
    exact spends_conditional hyes (hno no List.mem_cons_self) hcondition
  | cast ty operand => exact spends_cast (h operand List.mem_cons_self) ty
  | component operand index => exact spends_component (h operand List.mem_cons_self) index
  | unbox operand ty => exact spends_unbox (h operand List.mem_cons_self)
  | present content => exact (h content List.mem_cons_self).map _
  | boxed content => exact (h content List.mem_cons_self).map _
  | unary op operand =>
    exact (h operand List.mem_cons_self).andThen fun v => .ofOutcome _ ctx
  | logicalNot operand =>
    exact (h operand List.mem_cons_self).andThen fun v => .ofOutcome _ ctx
  | field operand name =>
    exact (h operand List.mem_cons_self).andThen fun v => .ofOutcome _ ctx

end Steps

/-! ## Evaluation -/

/-- Evaluating an expression takes at most one step for each of its nodes. -/
theorem Evaluator.spends_eval {ev : Evaluator} (hcall : ev.ExecutesNothing) {req : Request}
    {ctx : Context} (hsettled : req.env.Settled ctx) {e : Expr} (he : e.Straight) (levels : Nat) :
    ((ev.steps levels).eval req e).Spends ctx e.nodeCount := by
  induction he generalizing levels with
  | @intro e hvisits _ ih =>
    rw [Expr.nodeCount_eq]
    cases levels with
    | zero =>
      refine EvalM.Spends.mono (m := 0) ?_ (Nat.zero_le _)
      exact (count (g := fun c => { c with refused := c.refused + 1 }) (fun _ => rfl)
        ctx).after fun _ => .fail _ ctx
    | succ levels =>
      have hrule := Steps.spends_rule hcall hsettled hvisits fun part hpart => ih part hpart levels
      refine EvalM.Spends.bind ⟨fun log => Nat.le_refl _, fun h => ?_⟩ fun _ => hrule
      cases h
      rfl

/-- Backtracking never evaluates anything again. Where every variable has its value and no function
is executed, evaluating an expression takes at most one step for each of its nodes, whether it
succeeds or fails: the rule for the form of an expression pays at most once for each direct
subexpression, whatever the evaluation of a subexpression costs. -/
theorem nodes_visited_once (ev : Evaluator) (hcall : ev.ExecutesNothing) (req : Request)
    (ctx : Context) (hsettled : req.env.Settled ctx) {e : Expr} (he : e.Straight) :
    (∀ log, (ev.evaluate req e ctx log).2.counters.expressions
        ≤ log.counters.expressions + e.nodeCount)
      ∧ ∀ (s : Steps) (cost : Expr → Nat),
        (∀ part ∈ e.children, (s.eval req part).Spends ctx (cost part)) →
        (s.rule ev req e).Spends ctx (e.children.map cost).sum := by
  have hspends := Evaluator.spends_eval hcall hsettled he (ev.config.recursionLimit + 1)
  refine ⟨(hspends.reporting req.reporting).expressions, fun s cost hcost => ?_⟩
  cases he with
  | intro hvisits _ => exact Steps.spends_rule hcall hsettled hvisits hcost

/-- The Real of the Real of the logarithm of `x`, which is negative: the cast, the call and the
variable are evaluated once each, though the call fails below two casts. -/
theorem nodes_visited_once_casts :
    ((Evaluator.alone .standard).evaluate
        ⟨Env.empty.define "x" (.ofValue .real (.real (-1))), .explicit, .silent⟩
        (.cast .real (.cast .real (.builtinCall "log" [.reference [.mk "x" []] .unknown])))
        .empty (.start .unlimited)).2.counters.expressions ≤ 4 := by
  have hsettled : (Env.empty.define "x" (.ofValue .real (.real (-1)))).Settled .empty := by
    refine Env.settled_of_values (fun frame hframe name declared hmem => ?_) .empty
    obtain rfl := List.mem_singleton.mp hframe
    cases List.mem_singleton.mp hmem
    rfl
  have hvariable : (Expr.reference [.mk "x" []] .unknown).Straight := .intro trivial nofun
  have hcall : (Expr.builtinCall "log" [.reference [.mk "x" []] .unknown]).Straight := by
    refine .intro ⟨by decide, by decide⟩ (List.forall_mem_singleton.mpr hvariable)
  have he := Expr.Straight.intro (e := .cast .real (.cast .real _)) trivial
    (List.forall_mem_singleton.mpr
      (.intro (e := .cast .real _) trivial (List.forall_mem_singleton.mpr hcall)))
  have hnodes : (Expr.cast .real (.cast .real
      (.builtinCall "log" [.reference [.mk "x" []] .unknown]))).nodeCount = 4 := by
    simp [Expr.nodeCount_eq, Expr.children, Expr.builtinCall, Reference.subscripts,
      RefPart.subscripts]
  rw [← hnodes]
  have hcount := (nodes_visited_once (.alone .standard) rfl
    ⟨Env.empty.define "x" (.ofValue .real (.real (-1))), .explicit, .silent⟩ .empty hsettled he).1
    (.start .unlimited)
  exact Nat.le_trans hcount (Nat.le_of_eq (Nat.zero_add _))

end ModelicaFold
