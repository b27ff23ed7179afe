import ModelicaFold.Eval.Rule
import ModelicaFold.Proofs.Failures.Builtins
import ModelicaFold.Proofs.Runs.Alignment
import ModelicaFold.Proofs.Runs.Alternatives

/-!
# The rules keep an alignment

`Evaluates` says that the steps below do the same in all runs: evaluation one level down, the step
that looks at more than the log, which is reading a remembered value, and the two rules that catch
failures, which are those for sizes and for calls of functions of the model. `Stepwise` says so of
splicing one level down as well. `Stepwise.rule` concludes that evaluation by the rule for the form
of an expression does the same in all runs; unless this is quoted code, `Evaluates.rule_of_unquoted`
does. There is one lemma for each rule, in the order of the modules that define them, but for those
that splice, which come last.
-/

namespace ModelicaFold

open Outcome

/-- The evaluator with another recursion limit. -/
def Evaluator.withLimit (ev : Evaluator) (limit : Nat) : Evaluator :=
  { ev with config := { ev.config with recursionLimit := limit } }

/-- Another limit leaves the flags as they are. -/
theorem Evaluator.flags_withLimit (ev : Evaluator) (limit : Nat) :
    (ev.withLimit limit).config.flags = ev.config.flags := rfl

/-- The rules of built-in functions that take their arguments as expressions. -/
theorem Builtin.rule?_ofExprs {name : String} {extended : Bool}
    {f : Evaluator → Steps → Request → List Expr → EvalM Value}
    (h : Builtin.rule? name extended = some (.ofExprs f)) :
    (f = fun _ => Steps.quotient "div" .divisionByZero integerDivide)
      ∨ (f = fun _ => Steps.quotient "mod" .moduloByZero modulo)
      ∨ (f = fun _ => Steps.quotient "rem" .moduloByZero remainder)
      ∨ (name = "ndims" ∧ f = fun _ => Steps.ndims)
      ∨ (f = fun _ => Steps.noEvent) ∨ (f = fun _ => Steps.print)
      ∨ (name = "simplify" ∧ f = Steps.simplified)
      ∨ (name = "size" ∧ f = fun _ => Steps.sizeCall) ∨ f = fun _ => Steps.smooth := by
  rcases mem_of_rule h with hbase | ⟨g, -, hg⟩
  · simp only [Builtin.baseTable, Builtin.special, List.mem_cons, Prod.mk.injEq,
      Builtin.Rule.ofExprs.injEq, reduceCtorEq, and_false, false_or, List.not_mem_nil, or_false]
      at hbase
    rcases hbase with ⟨-, rfl⟩ | ⟨-, rfl⟩ | ⟨rfl, rfl⟩ | ⟨-, rfl⟩ | ⟨-, rfl⟩ | ⟨-, rfl⟩ | ⟨rfl, rfl⟩
      | ⟨rfl, rfl⟩ | ⟨-, rfl⟩
    all_goals simp
  · cases hg

/-- Of the evaluator only its simplifier counts for built-in functions. -/
theorem Steps.applyRule_congr {s : Steps} {req : Request} {args : List Expr} {name : String}
    {extended : Bool} {rule : Builtin.Rule} (hrule : Builtin.rule? name extended = some rule)
    {ev ev' : Evaluator} (h : ev.simplify = ev'.simplify) :
    s.applyRule ev req args rule = s.applyRule ev' req args rule := by
  cases rule with
  | ofValues f => rfl
  | ofExprs f =>
    rcases Builtin.rule?_ofExprs hrule with
      rfl | rfl | rfl | ⟨-, rfl⟩ | rfl | rfl | ⟨-, rfl⟩ | ⟨-, rfl⟩ | rfl
    all_goals simp only [Steps.applyRule, Steps.simplified, h]

/-- The declared part of a reference comes before the fields that are selected from it. -/
theorem Env.splitReference_append (env : Env) (r : Reference) :
    (env.splitReference r).1 ++ (env.splitReference r).2 = r := by
  unfold Env.splitReference
  split
  · exact List.take_append_drop _ r
  · exact List.append_nil r

/-- Both parts of a split reference are parts of it, in their order. -/
theorem Env.splitReference_sublist (env : Env) (r : Reference) :
    (env.splitReference r).1.Sublist r ∧ (env.splitReference r).2.Sublist r := by
  unfold Env.splitReference
  split
  · exact ⟨List.take_sublist _ r, List.drop_sublist _ r⟩
  · exact ⟨List.Sublist.refl r, List.nil_sublist r⟩

namespace Alignment

variable {ι : Type} {A : Alignment ι}

/-- The first size is the same in all runs, and so is the crash where there is none. -/
theorem firstSize (dims : List Nat) : A.Aligned fun _ => Steps.firstSize dims := by
  cases dims with
  | nil => exact A.map A.crash fun _ => 0
  | cons n inner => exact A.pure n

/-- Steps that do the same in all runs where no quoted code is evaluated. The runs may differ in the
recursion limit and in how they report failures. -/
structure Evaluates (A : Alignment ι) (ev : Evaluator) (limit : ι → Nat) (s : ι → Steps) :
    Prop where
  inside : ∀ {e : Expr}, A.Meets e → ∀ part ∈ e.inside, A.Meets part
  simplify : ∀ {e : Expr}, A.Meets e → A.Meets (ev.simplify e)
  evalAfter : ∀ {env : Env} {mode : Mode} {r : ι → Reporting}, A.Admits env mode r →
    ∀ k {e}, A.Meets e → A.Aligned fun i => (s i).evalAfter k ⟨env, mode, r i⟩ e
  force : ∀ {env : Env} {mode : Mode} {r : ι → Reporting}, A.Admits env mode r →
    ∀ {name : String} {found : Found} {e : Expr} {v : Variability}, env.lookup name = some found →
      found.declared.binding = .expression e v none →
      A.Aligned fun i => (s i).force ⟨env, mode, r i⟩ found name e
  sizes : ∀ {env : Env} {mode : Mode} {r : ι → Reporting}, A.Admits env mode r →
    ∀ {whole e : Expr}, A.Meets whole → whole.measured? = some e →
      A.Aligned fun i => (s i).sizes ⟨env, mode, r i⟩ e
  callFunction : ∀ {env : Env} {mode : Mode} {r : ι → Reporting}, A.Admits env mode r →
    ∀ {path : Path} {args : List Expr} {ty : Ty}, A.Meets (.call path args ty false false) →
      A.Aligned fun i =>
        (s i).callFunction (ev.withLimit (limit i)) ⟨env, mode, r i⟩
          (.call path args ty false false) path args

/-- Steps that do the same in all runs, those for quoted code among them. -/
structure Stepwise (A : Alignment ι) (ev : Evaluator) (limit : ι → Nat) (s : ι → Steps) :
    Prop extends A.Evaluates ev limit s where
  keeps : ev.KeepsTo A.Meets
  splice : ∀ {env : Env} {mode : Mode} {r : ι → Reporting}, A.Admits env mode r →
    ∀ code, A.Aligned fun i => (s i).splice ⟨env, mode, r i⟩ code

namespace Evaluates

variable {ev : Evaluator} {limit : ι → Nat} {s : ι → Steps} (h : A.Evaluates ev limit s)
  {env : Env} {mode : Mode} {r : ι → Reporting} (hr : A.Admits env mode r)

include h hr

/-! ## Subexpressions -/

/-- Evaluation as an operand is aligned. -/
theorem eval {e : Expr} (he : A.Meets e) : A.Aligned fun i => (s i).eval ⟨env, mode, r i⟩ e :=
  h.evalAfter hr 0 he

/-- Evaluation one level down is aligned. -/
theorem evalInner {e : Expr} (he : A.Meets e) :
    A.Aligned fun i => (s i).evalInner ⟨env, mode, r i⟩ e :=
  h.evalAfter hr 1 he

/-- Evaluating a list of expressions is aligned. -/
theorem evalAll {es : List Expr} (hes : ∀ e ∈ es, A.Meets e) :
    A.Aligned fun i => (s i).evalAll ⟨env, mode, r i⟩ es :=
  A.mapM fun e he => h.eval hr (hes e he)

/-- Applying subscripts is aligned. -/
theorem applySubscripts {subscripts : List Subscript}
    (hsubscripts : ∀ e ∈ subscripts.filterMap Subscript.expr?, A.Meets e) (v : Value) :
    A.Aligned fun i => (s i).applySubscripts ⟨env, mode, r i⟩ subscripts v := by
  induction subscripts generalizing v with
  | nil => exact A.pure v
  | cons subscript rest ih =>
    cases subscript with
    | index e =>
      obtain ⟨he, hrest⟩ := List.forall_mem_cons.mp hsubscripts
      simp only [Steps.applySubscripts]
      refine A.bind (h.eval hr he) fun index => ?_
      refine A.bind (A.liftOutcome (Value.ordinary_position index)) fun position => ?_
      refine A.bind (A.liftOutcome (Value.ordinary_select v position)) fun element => ?_
      exact ih hrest element
    | slice e =>
      obtain ⟨he, hrest⟩ := List.forall_mem_cons.mp hsubscripts
      simp only [Steps.applySubscripts]
      refine A.bind (h.eval hr he) fun indices => ?_
      refine A.map (A.mapM fun index _ => ?_) Value.arrayOf
      refine A.bind (A.liftOutcome (Value.ordinary_position index)) fun position => ?_
      refine A.bind (A.liftOutcome (Value.ordinary_select v position)) fun element => ?_
      exact ih hrest element
    | whole =>
      simp only [Steps.applySubscripts]
      refine A.ite (fun _ => A.pure v) fun _ => ?_
      cases v with
      | array elements dims =>
        refine A.ite (fun _ => A.map (firstSize dims) fun n => Value.array #[] [n]) fun _ => ?_
        exact A.map (A.mapM fun element _ => ih hsubscripts element) Value.arrayOf
      | _ => exact ih hsubscripts _

/-! ## Sizes -/

/-- One size or all sizes of an operand are aligned. -/
theorem size {whole e : Expr} (hwhole : A.Meets whole) (he : whole.measured? = some e)
    {dim : Option Expr} (hdim : ∀ d, dim = some d → A.Meets d) :
    A.Aligned fun i => (s i).size ⟨env, mode, r i⟩ e dim := by
  have hvalue : ∀ n, Ordinary (Steps.sizeValue n) := fun n => ordinary_inRange _ n
  refine A.bind (h.sizes hr hwhole he) fun dims => ?_
  cases dim with
  | none => exact A.map (A.liftOutcome (.mapM fun dim _ => hvalue dim)) Value.arrayOf
  | some dim =>
    refine A.bind (h.eval hr (hdim dim rfl)) fun v => ?_
    cases v with
    | integer k =>
      simp only
      cases nth? dims k with
      | none => exact A.fail _
      | some n => exact A.liftOutcome (hvalue n)
    | _ => exact A.fail _

/-- The rank of an operand is aligned. -/
theorem rank {whole e : Expr} (hwhole : A.Meets whole) (he : whole.measured? = some e) :
    A.Aligned fun i => (s i).rank ⟨env, mode, r i⟩ e :=
  A.map (h.sizes hr hwhole he) fun dims => Value.integer dims.length

/-! ## Constructors and operators -/

/-- An array constructor is aligned. -/
theorem array (ty : Ty) {elements : List Expr} (helements : ∀ e ∈ elements, A.Meets e) :
    A.Aligned fun i => (s i).array ⟨env, mode, r i⟩ ty elements :=
  A.map (h.evalAll hr helements) (Steps.arrayOfType ty)

/-- A matrix constructor is aligned. -/
theorem matrix {rows : List (List Expr)} (hrows : ∀ row ∈ rows, ∀ e ∈ row, A.Meets e) :
    A.Aligned fun i => (s i).matrix ⟨env, mode, r i⟩ rows := by
  refine A.bind (A.mapM fun row hrow => ?_) fun blocks => ?_
  · refine A.bind (h.evalAll hr (hrows row hrow)) fun values => ?_
    exact A.ofOutcome (Steps.ordinary_rowBlock values)
  · exact A.ite (fun _ => A.pure _) fun _ => A.ofOutcome (Value.ordinary_concat _ _)

/-- A range is aligned. -/
theorem range (ty : Ty) {start stop : Expr} {step : Option Expr} (hstart : A.Meets start)
    (hstep : ∀ e, step = some e → A.Meets e) (hstop : A.Meets stop) :
    A.Aligned fun i => (s i).range ⟨env, mode, r i⟩ ty start step stop := by
  refine A.bind (h.eval hr hstart) fun a => ?_
  refine A.bind (A.optionMapM fun e he => h.eval hr (hstep e he)) fun d => ?_
  refine A.bind (h.eval hr hstop) fun b => ?_
  refine A.map (A.liftOutcome ?_) fun elements => Value.array elements [elements.size]
  exact Value.ordinary_rangeElements a d b ty.elementType

section

variable {lhs rhs : Expr} (hlhs : A.Meets lhs) (hrhs : A.Meets rhs)

include hlhs hrhs

/-- An arithmetic operator is aligned. -/
theorem binary (op : BinaryOp) :
    A.Aligned fun i => (s i).binary ⟨env, mode, r i⟩ lhs op rhs := by
  refine A.bind (h.eval hr hlhs) fun a => ?_
  refine A.bind (h.eval hr hrhs) fun b => ?_
  exact A.ite (fun _ => A.fail _) fun _ => A.ofOutcome (Value.ordinary_binary op a b)

/-- A conjunction or disjunction is aligned, which need not evaluate its second operand. -/
theorem logical (op : LogicalOp) :
    A.Aligned fun i => (s i).logical ⟨env, mode, r i⟩ lhs op rhs := by
  simp only [Steps.logical_eq]
  refine A.bind (h.eval hr hlhs) fun a => ?_
  cases Value.decided? op a with
  | some v => exact A.pure v
  | none => exact A.bind (h.eval hr hrhs) fun b => A.ofOutcome (Value.ordinary_logical op a b)

/-- A relation is aligned. -/
theorem relation (op : RelationOp) :
    A.Aligned fun i => (s i).relation ⟨env, mode, r i⟩ lhs op rhs := by
  refine A.bind (h.eval hr hlhs) fun a => ?_
  refine A.bind (h.eval hr hrhs) fun b => ?_
  cases Value.relate? a op b with
  | none => exact A.fail _
  | some holds => exact A.pure _

/-- Putting an element before a list is aligned. -/
theorem cons : A.Aligned fun i => (s i).cons ⟨env, mode, r i⟩ lhs rhs := by
  refine A.bind (h.eval hr hlhs) fun v => ?_
  refine A.bind (h.eval hr hrhs) fun vs => ?_
  cases vs with
  | list vs => exact A.pure _
  | _ => exact A.fail _

end

/-- A conditional is aligned, which evaluates one of its branches. -/
theorem conditional {condition yes no : Expr} (hcondition : A.Meets condition)
    (hyes : A.Meets yes) (hno : A.Meets no) :
    A.Aligned fun i => (s i).conditional ⟨env, mode, r i⟩ condition yes no := by
  refine A.bind (h.eval hr hcondition) fun v => ?_
  cases v with
  | bool b =>
    cases b with
    | true => exact h.eval hr hyes
    | false => exact h.eval hr hno
  | _ => exact A.fail _

section

variable {operand : Expr} (hoperand : A.Meets operand)

include hoperand

/-- A cast is aligned. -/
theorem cast (ty : Ty) : A.Aligned fun i => (s i).cast ⟨env, mode, r i⟩ ty operand := by
  simp only [Steps.cast_eq]
  cases hconvert : Value.castLeaf? ty with
  | none => exact h.eval hr hoperand
  | some convert =>
    refine A.bind (h.eval hr hoperand) fun v => A.ofOutcome ?_
    exact Value.ordinary_mapLeaves (Value.ordinary_castLeaf hconvert) v

/-- A component of a tuple is aligned. -/
theorem component (index : Nat) :
    A.Aligned fun i => (s i).component ⟨env, mode, r i⟩ operand index := by
  refine A.bind (h.eval hr hoperand) fun v => ?_
  cases v with
  | tuple elements =>
    simp only
    cases nth? elements index with
    | none => exact A.fail _
    | some v => exact A.pure v
  | _ => exact A.fail _

/-- Unboxing is aligned. -/
theorem unbox : A.Aligned fun i => (s i).unbox ⟨env, mode, r i⟩ operand := by
  refine A.bind (h.eval hr hoperand) fun v => ?_
  cases v with
  | boxed v => exact A.pure v
  | _ => exact A.fail _

/-- An arithmetic negation is aligned. -/
theorem negate : A.Aligned fun i => (s i).eval ⟨env, mode, r i⟩ operand >>= fun v =>
    EvalM.ofOutcome v.negate :=
  A.bind (h.eval hr hoperand) fun v => A.ofOutcome (Value.ordinary_negate v)

/-- A logical negation is aligned. -/
theorem logicalNot : A.Aligned fun i => (s i).eval ⟨env, mode, r i⟩ operand >>= fun v =>
    EvalM.ofOutcome v.logicalNot :=
  A.bind (h.eval hr hoperand) fun v => A.ofOutcome (Value.ordinary_logicalNot v)

/-- Selecting a field is aligned. -/
theorem field (name : String) : A.Aligned fun i =>
    (s i).eval ⟨env, mode, r i⟩ operand >>= fun v => EvalM.ofOutcome (v.project name) :=
  A.bind (h.eval hr hoperand) fun v => A.ofOutcome (Value.ordinary_project name v)

end

/-! ## References -/

/-- The defaults of record fields are aligned. -/
theorem defaults (scope : String) {fields : List FieldDecl}
    (hfields : ∀ field ∈ fields, ∀ e, field.default = some e → A.Meets e)
    (bindings : List (String × Ty × Value)) :
    A.Aligned fun i => (s i).defaults ⟨env, mode, r i⟩
      (env.bindValues scope .classScope bindings) fields := by
  induction fields generalizing bindings with
  | nil => exact A.pure []
  | cons field more ih =>
    obtain ⟨hfield, hmore⟩ := List.forall_mem_cons.mp hfields
    simp only [Steps.defaults]
    cases hdefault : field.default with
    | none => exact A.fail _
    | some default =>
      have hr' := A.admits_bindValues hr scope .classScope bindings nofun
      refine A.bind (h.evalInner hr' (hfield default hdefault)) fun v => ?_
      simp only [Env.define_bindValues]
      exact A.map (ih hmore _) (v :: ·)

/-- A record made of defaults is aligned. -/
theorem defaultRecord {record : RecordClass}
    (hfields : ∀ field ∈ record.fields, ∀ e, field.default = some e → A.Meets e) :
    A.Aligned fun i => (s i).defaultRecord ⟨env, mode, r i⟩ record :=
  A.map (h.defaults hr record.path.text hfields [])
    fun fields => Value.record record.path fields (record.fields.map (·.name)) (-1)

/-- Reading a variable without a binding is aligned. -/
theorem unbound (found : Found) (name : String) (ty : Ty) :
    A.Aligned fun i =>
      (s i).unbound (ev.withLimit (limit i)) ⟨env, mode, r i⟩ found name ty := by
  -- neither the limit nor the reporting takes part in the choices
  show A.Aligned fun i =>
    if (!found.declared.variability.isEvaluable && !mode.readsVariables) = true then _ else _
  refine A.ite (fun _ => A.fail _) fun _ => ?_
  simp only
  cases hrecord : env.defaultedRecord? found.declared.ty with
  | some record =>
    have hkeeps := A.admits_keepsTo hr
    exact h.defaultRecord hr fun field hfield e => hkeeps.defaultedRecord hrecord hfield
  | none =>
    show A.Aligned fun _ =>
      let declared := if found.declared.ty.isUnknown then ty else found.declared.ty
      if ev.config.flags.deferUnbound && !declared.isUnknown then
        Pure.pure (Value.empty found.scope name declared)
      else if mode.reportsUnbound then EvalM.fail (.unbound name)
      else EvalM.fail .notConstant
    refine A.ite (fun _ => A.pure _) fun _ => ?_
    exact A.ite (fun _ => A.fail _) fun _ => A.fail _

/-- Reading a variable is aligned. -/
theorem readVariable (name : String) (ty : Ty) :
    A.Aligned fun i =>
      (s i).readVariable (ev.withLimit (limit i)) ⟨env, mode, r i⟩ name ty := by
  simp only [Steps.readVariable]
  cases hfound : env.lookup name with
  | none => exact A.fail _
  | some found =>
    simp only
    cases hbinding : found.declared.binding with
    | value v => exact A.pure v
    | unbound => exact h.unbound hr found name ty
    | expression e variability cached =>
      show A.Aligned fun i =>
        if (!Request.mayRead ⟨env, mode, .silent⟩ found variability) = true then _ else _
      refine A.ite (fun _ => A.fail _) fun _ => ?_
      cases cached with
      | some v => exact A.pure v
      | none => exact h.force hr hfound hbinding

/-- Selecting fields with subscripts is aligned. -/
theorem selectFields {fields : Reference}
    (hfields : ∀ part ∈ fields, ∀ e ∈ part.subscripts.filterMap Subscript.expr?, A.Meets e)
    (v : Value) : A.Aligned fun i => (s i).selectFields ⟨env, mode, r i⟩ fields v := by
  induction fields generalizing v with
  | nil => exact A.pure v
  | cons part more ih =>
    obtain ⟨hpart, hmore⟩ := List.forall_mem_cons.mp hfields
    simp only [Steps.selectFields]
    refine A.bind (A.liftOutcome (Value.ordinary_project part.ident v)) fun field => ?_
    refine A.bind (h.applySubscripts hr hpart field) fun picked => ?_
    exact ih hmore picked

section

variable {parts : Reference}
  (hparts : ∀ e ∈ (Reference.subscripts parts).filterMap Subscript.expr?, A.Meets e)

include hparts

/-- A reference does the same in all runs if reading its variable does, however this is done. -/
theorem reference_of_read {read : ι → EvalM Value} (hread : A.Aligned read) :
    A.Aligned fun i =>
      EvalM.count (fun c => { c with references := c.references + 1 }) >>= fun _ =>
        read i >>= fun v =>
          (s i).applySubscripts ⟨env, mode, r i⟩ (Reference.subscripts (env.splitReference parts).1)
            v >>= (s i).selectFields ⟨env, mode, r i⟩ (env.splitReference parts).2 := by
  obtain ⟨hdeclared, hfields⟩ := env.splitReference_sublist parts
  have hpart : ∀ part ∈ parts, ∀ e ∈ part.subscripts.filterMap Subscript.expr?, A.Meets e := by
    intro part hpart e he
    obtain ⟨subscript, hsubscript, he⟩ := List.mem_filterMap.mp he
    have hmem := List.mem_flatMap.mpr ⟨part, hpart, hsubscript⟩
    exact hparts e (List.mem_filterMap.mpr ⟨subscript, hmem, he⟩)
  refine A.bind (A.count fun _ => rfl) fun _ => A.bind hread fun v => ?_
  refine A.bind (h.applySubscripts hr ?_ v) fun picked => ?_
  · intro e he
    obtain ⟨subscript, hsubscript, he⟩ := List.mem_filterMap.mp he
    obtain ⟨part, hmem, hsubscript⟩ := List.mem_flatMap.mp hsubscript
    exact hpart part (hdeclared.subset hmem) e (List.mem_filterMap.mpr ⟨subscript, hsubscript, he⟩)
  · exact h.selectFields hr (fun part hmem => hpart part (hfields.subset hmem)) picked

/-- Evaluating a reference is aligned. -/
theorem reference (ty : Ty) :
    A.Aligned fun i =>
      (s i).reference (ev.withLimit (limit i)) ⟨env, mode, r i⟩ parts ty := by
  have hread := h.readVariable hr (Reference.name (env.splitReference parts).1)
    (if (env.splitReference parts).2.isEmpty then ty else .unknown)
  exact h.reference_of_read hr hparts hread

end

/-! ## Reductions -/

section

variable (hiterates : A.Iterates)

include hiterates

/-- Asking a guard whether a value passes is aligned. -/
theorem passes (name : String) (ty : Ty) {guard : Expr} (hguard : A.Meets guard) (v : Value) :
    A.Aligned fun i => (s i).passes ⟨env, mode, r i⟩ name ty guard v := by
  have hr' := A.admits_bindValues hr iteratorScopeName .iteratorScope [(name, ty, v)]
    fun _ => hiterates
  refine A.bind (h.evalInner hr' hguard) fun verdict => ?_
  cases verdict with
  | bool b => exact A.pure b
  | _ => exact A.fail _

/-- The values that one iterator runs through are aligned. -/
theorem sequence {it : Iterator} (hsource : A.Meets it.source)
    (hguard : ∀ guard, it.guard = some guard → A.Meets guard) :
    A.Aligned fun i => (s i).sequence ⟨env, mode, r i⟩ it := by
  refine A.bind (h.eval hr hsource) fun source => ?_
  cases source.elements? with
  | none => exact A.fail _
  | some candidates =>
    simp only
    cases hit : it.guard with
    | none => exact A.pure _
    | some guard =>
      exact A.filterM fun v _ => h.passes hr hiterates it.name it.ty (hguard guard hit) v

/-- The body of a reduction at one tuple of values is aligned. -/
theorem bodyValue (iterators : List Iterator) {body : Expr} (hbody : A.Meets body)
    (values : List Value) :
    A.Aligned fun i => (s i).bodyValue ⟨env, mode, r i⟩ iterators body values :=
  h.eval (A.admits_bindValues hr iteratorScopeName .iteratorScope _ fun _ => hiterates) hbody

/-- One step of the fold of a reduction is aligned. -/
theorem foldStep {info : ReductionInfo} (hfold : ∀ fold, info.fold = some fold → A.Meets fold)
    (acc next : Value) : A.Aligned fun i => (s i).foldStep ⟨env, mode, r i⟩ info acc next := by
  simp only [Steps.foldStep]
  cases hinfo : info.fold with
  | none => exact A.ofOutcome (Value.ordinary_foldNamed _ acc next)
  | some fold =>
    have hr' := A.admits_bindValues hr iteratorScopeName .iteratorScope
      [(info.valueName, info.ty, next), (info.resultName, info.ty, acc)] fun _ => hiterates
    exact h.evalInner hr' (hfold fold hinfo)

end

/-- A reduction is aligned. -/
theorem reduction {info : ReductionInfo} {body : Expr} {iterators : List Iterator}
    (he : A.Meets (.reduction info body iterators)) :
    A.Aligned fun i => (s i).reduction ⟨env, mode, r i⟩ info body iterators := by
  have hparts := h.inside he
  have hiterates := A.iterates he
  simp only [Expr.inside, Expr.children, List.mem_append, List.mem_flatMap, Option.mem_toList]
    at hparts
  have hbody := hparts body (.inl (.inl (.inr List.mem_cons_self)))
  have hvalue := fun values => h.bodyValue hr hiterates iterators hbody values
  refine A.bind (A.mapM fun it hit => ?_) fun sequences => ?_
  · refine h.sequence hr hiterates (hparts _ ?_) fun guard hguard => hparts guard ?_
    · exact .inl (.inl (.inl ⟨it, hit, List.mem_cons_self⟩))
    · exact .inl (.inl (.inl ⟨it, hit, List.mem_cons_of_mem _ (Option.mem_toList.mpr hguard)⟩))
  refine A.bind (A.liftOutcome (ordinary_bindingTuples _ sequences)) fun tuples => ?_
  cases tuples with
  | nil =>
    simp only
    cases hinfo : info.default with
    | none => exact A.pure _
    | some default => exact h.eval hr (hparts default (.inl (.inr hinfo)))
  | cons first others =>
    simp only
    cases Gathering.ofName info.path.last with
    | fold =>
      refine A.bind (hvalue first) fun acc => A.foldlM acc fun acc tuple _ => ?_
      refine A.bind (hvalue tuple) fun v => h.foldStep hr hiterates (fun fold hfold => ?_) acc v
      exact hparts fold (.inr hfold)
    | _ => exact A.map (A.mapM fun tuple _ => hvalue tuple) _

/-! ## Built-in functions of expressions -/

/-- A division whose divisor is tested first is aligned. -/
theorem quotient (name : String) (zero : String → String → Cause)
    {divide : Value → Value → Outcome Value} (hdivide : ∀ a b, Ordinary (divide a b))
    {args : List Expr} (hargs : ∀ e ∈ args, A.Meets e) :
    A.Aligned fun i => Steps.quotient name zero divide (s i) ⟨env, mode, r i⟩ args := by
  refine A.bind ?_ fun operands => A.ofOutcome (hdivide operands.1 operands.2)
  refine A.bind (A.liftOutcome (Builtin.ordinary_takes name 2 args)) fun _ => ?_
  match args, hargs with
  | [x, y], hargs =>
    refine A.bind (h.eval hr (hargs x List.mem_cons_self)) fun a => ?_
    refine A.bind (h.eval hr (hargs y (List.mem_cons_of_mem x List.mem_cons_self))) fun b => ?_
    exact A.ite (fun _ => A.fail _) fun _ => A.pure _
  | [], _ => exact A.fail _
  | [_], _ => exact A.fail _
  | _ :: _ :: _ :: _, _ => exact A.fail _

omit h hr in
/-- A function of one expression is aligned if its rule for the expression is. -/
theorem onlyArg (name : String) {args : List Expr} {rule : ι → Expr → EvalM Value}
    (hrule : ∀ e more, args = e :: more → A.Aligned fun i => rule i e) :
    A.Aligned fun i => Steps.onlyArg name args (rule i) := by
  refine A.bind (A.liftOutcome (Builtin.ordinary_takes name 1 args)) fun _ => ?_
  cases args with
  | nil => exact A.fail _
  | cons e more => exact hrule e more rfl

section

variable {args : List Expr} (hargs : ∀ e ∈ args, A.Meets e)

include hargs

/-- A call of `noEvent` is aligned. -/
theorem noEvent : A.Aligned fun i => (s i).noEvent ⟨env, mode, r i⟩ args := by
  refine onlyArg "noEvent" fun e more hcons => h.eval hr (hargs e ?_)
  rw [hcons]
  exact List.mem_cons_self

/-- A call of `smooth` is aligned. -/
theorem smooth : A.Aligned fun i => (s i).smooth ⟨env, mode, r i⟩ args := by
  refine A.bind (A.liftOutcome (Builtin.ordinary_takes _ 2 args)) fun _ => ?_
  match args, hargs with
  | _ :: e :: _, hargs => exact h.eval hr (hargs e (List.mem_cons_of_mem _ List.mem_cons_self))
  | [], _ => exact A.fail _
  | [_], _ => exact A.fail _

/-- A call of `print` is aligned. -/
theorem print : A.Aligned fun i => (s i).print ⟨env, mode, r i⟩ args := by
  refine onlyArg "print" fun e more hcons => ?_
  have he : A.Meets e := hargs e (by rw [hcons]; exact List.mem_cons_self)
  refine A.bind (h.eval hr he) fun v => ?_
  cases v.unboxed with
  | string text => exact A.bind (A.modifyLog ⟨fun _ => rfl, fun _ _ => rfl⟩) fun _ => A.pure _
  | _ => exact A.fail _

/-- A call of `simplify` is aligned. -/
theorem simplified :
    A.Aligned fun i =>
      Steps.simplified (ev.withLimit (limit i)) (s i) ⟨env, mode, r i⟩ args := by
  refine A.bind (A.liftOutcome (Builtin.ordinary_takesBetween _ 1 2 args)) fun _ => ?_
  cases args with
  | nil => exact A.fail _
  | cons e more => exact h.eval hr (h.simplify (hargs e List.mem_cons_self))

end

section

variable {path : Path} {args : List Expr} {ty : Ty} {impure : Bool}
  (hcall : A.Meets (.call path args ty true impure))

include hcall

/-- A call of `ndims` is aligned. -/
theorem ndims (hname : path.last = "ndims") :
    A.Aligned fun i => (s i).ndims ⟨env, mode, r i⟩ args := by
  refine onlyArg "ndims" fun e more hcons => h.rank hr hcall ?_
  simp [hcons, Expr.measured?, hname]

/-- A call of `size` is aligned. -/
theorem sizeCall (hname : path.last = "size") :
    A.Aligned fun i => (s i).sizeCall ⟨env, mode, r i⟩ args := by
  refine A.bind (A.liftOutcome (Builtin.ordinary_takesBetween _ 1 2 args)) fun _ => ?_
  cases args with
  | nil => exact A.fail _
  | cons e more =>
    refine h.size hr hcall (by simp [Expr.measured?, hname]) fun d hd => ?_
    exact h.inside hcall d (List.mem_cons_of_mem e (List.mem_of_mem_head? hd))

/-- A built-in function is evaluated from the values of its arguments or by one of these rules. -/
theorem applyRule {extended : Bool} {rule : Builtin.Rule}
    (hrule : Builtin.rule? path.last extended = some rule) :
    A.Aligned fun i =>
      (s i).applyRule (ev.withLimit (limit i)) ⟨env, mode, r i⟩ args rule := by
  have hargs : ∀ e ∈ args, A.Meets e := h.inside hcall
  cases rule with
  | ofValues f =>
    exact A.bind (h.evalAll hr hargs) fun values =>
      A.ofOutcome (Builtin.ordinary_of_rule hrule values)
  | ofExprs f =>
    rcases Builtin.rule?_ofExprs hrule with
      rfl | rfl | rfl | ⟨hname, rfl⟩ | rfl | rfl | ⟨-, rfl⟩ | ⟨hname, rfl⟩ | rfl
    · exact h.quotient hr "div" .divisionByZero Builtin.ordinary_integerDivide hargs
    · exact h.quotient hr "mod" .moduloByZero Builtin.ordinary_modulo hargs
    · exact h.quotient hr "rem" .moduloByZero Builtin.ordinary_remainder hargs
    · exact h.ndims hr hcall hname
    · exact h.noEvent hr hargs
    · exact h.print hr hargs
    · exact h.simplified hr hargs
    · exact h.sizeCall hr hcall hname
    · exact h.smooth hr hargs

/-- A call of a built-in function is aligned. -/
theorem callBuiltin {extended : Bool} {rule : Builtin.Rule}
    (hrule : Builtin.rule? path.last extended = some rule) :
    A.Aligned fun i =>
      (s i).callBuiltin (ev.withLimit (limit i)) ⟨env, mode, r i⟩ args rule :=
  A.bind (A.count fun _ => rfl) fun _ => h.applyRule hr hcall hrule

end

/-! ## Calls -/

/-- A call is aligned. -/
theorem call {path : Path} {args : List Expr} {ty : Ty} {builtin impure : Bool}
    (hcall : A.Meets (.call path args ty builtin impure)) :
    A.Aligned fun i =>
      (s i).call (ev.withLimit (limit i)) ⟨env, mode, r i⟩ (.call path args ty builtin impure)
        path args builtin impure := by
  simp only [Steps.call_eq, Evaluator.flags_withLimit]
  cases hsmooth : Steps.smoothZero? path args builtin with
  | some e =>
    have hmem : e ∈ args := by
      rw [(Steps.smoothZero?_eq_some.mp hsmooth).1]
      exact List.mem_cons_of_mem _ List.mem_cons_self
    exact h.eval hr (h.inside hcall e hmem)
  | none =>
    simp only
    cases builtin with
    | true =>
      cases hrule : Builtin.rule? path.last ev.config.flags.metamodelica with
      | none => exact A.fail _
      | some rule => exact h.callBuiltin hr hcall hrule
    | false =>
      cases impure with
      | true => exact A.fail _
      | false => exact h.callFunction hr hcall

/-! ## Every form of expression -/

/-- Evaluation by the rule for the form of an expression does the same in all runs, unless this is
quoted code. -/
theorem rule_of_unquoted {e : Expr} (he : A.Meets e) (hcode : ∀ fragment, e ≠ .code fragment) :
    A.Aligned fun i => (s i).rule (ev.withLimit (limit i)) ⟨env, mode, r i⟩ e := by
  have hparts := h.inside he
  -- the first, second and third direct subexpression
  have hfirst : ∀ {part rest}, e.inside = part :: rest → A.Meets part := fun hcons =>
    hparts _ (hcons ▸ List.mem_cons_self)
  have hsecond : ∀ {first part rest}, e.inside = first :: part :: rest → A.Meets part :=
    fun hcons => hparts _ (hcons ▸ List.mem_cons_of_mem _ List.mem_cons_self)
  cases e with
  | integer n => exact A.pure _
  | real x => exact A.pure _
  | bool b => exact A.pure _
  | string text => exact A.pure _
  | enumeration path index => exact A.pure _
  | array ty _ elements => exact h.array hr ty hparts
  | matrix _ rows =>
    exact h.matrix hr fun row hrow part hpart =>
      hparts part (List.mem_flatten.mpr ⟨row, hrow, hpart⟩)
  | range ty start step stop =>
    refine h.range hr ty (hfirst rfl) (fun d hd => hparts d ?_) (hparts stop ?_)
    · simp [Expr.inside, Expr.children, hd]
    · simp [Expr.inside, Expr.children]
  | tuple elements => exact A.map (h.evalAll hr hparts) _
  | cast ty operand => exact h.cast hr (hfirst rfl) ty
  | reference parts ty =>
    exact h.reference hr hparts ty
  | binary lhs op rhs => exact h.binary hr (hfirst rfl) (hsecond rfl) op
  | unary op operand => exact h.negate hr (hfirst rfl)
  | logical lhs op rhs => exact h.logical hr (hfirst rfl) (hsecond rfl) op
  | logicalNot operand => exact h.logicalNot hr (hfirst rfl)
  | relation lhs op rhs => exact h.relation hr (hfirst rfl) (hsecond rfl) op
  | conditional condition yes no =>
    refine h.conditional hr (hfirst rfl) (hsecond rfl) (hparts no ?_)
    simp [Expr.inside, Expr.children]
  | call path args _ builtin impure => exact h.call hr he
  | record path args fields => exact A.map (h.evalAll hr hparts) _
  | unionRecord path index args fields => exact A.map (h.evalAll hr hparts) _
  | subscripted operand subscripts =>
    refine A.bind (h.eval hr (hfirst rfl)) fun v => h.applySubscripts hr (fun part hpart => ?_) v
    exact hparts part (List.mem_cons_of_mem operand hpart)
  | component operand index => exact h.component hr (hfirst rfl) index
  | field operand name => exact h.field hr (hfirst rfl) name
  | size operand dim =>
    refine h.size hr he rfl fun d hd => hparts d ?_
    simp [Expr.inside, Expr.children, hd]
  | list elements => exact A.map (h.evalAll hr hparts) _
  | cons head tail => exact h.cons hr (hfirst rfl) (hsecond rfl)
  | present content => exact A.map (h.eval hr (hfirst rfl)) _
  | absent => exact A.pure _
  | boxed content => exact A.map (h.eval hr (hfirst rfl)) _
  | unbox operand _ => exact h.unbox hr (hfirst rfl)
  | reduction info body iterators => exact h.reduction hr he
  | code fragment => exact absurd rfl (hcode fragment)

end Evaluates

namespace Stepwise

variable {ev : Evaluator} {limit : ι → Nat} {s : ι → Steps} (h : A.Stepwise ev limit s)
  {env : Env} {mode : Mode} {r : ι → Reporting} (hr : A.Admits env mode r)

include h hr

/-! ## Quoted code -/

/-- Mapping the parts of quoted code by splices is aligned. -/
theorem mapParts (code : Code) :
    A.Aligned fun i => code.mapParts ((s i).splice ⟨env, mode, r i⟩) := by
  have hs := fun c => h.splice hr c
  cases code with
  | integer n => exact A.pure _
  | real x => exact A.pure _
  | string text => exact A.pure _
  | bool b => exact A.pure _
  | last => exact A.pure _
  | reference path subscripts => exact A.map (A.mapM fun c _ => hs c) _
  | binary lhs op rhs => exact A.bind (hs lhs) fun a => A.map (hs rhs) _
  | logical lhs op rhs => exact A.bind (hs lhs) fun a => A.map (hs rhs) _
  | relation lhs op rhs => exact A.bind (hs lhs) fun a => A.map (hs rhs) _
  | unary op operand => exact A.map (hs operand) _
  | logicalUnary op operand => exact A.map (hs operand) _
  | conditional condition yes elseIfs no =>
    refine A.bind (hs condition) fun c => A.bind (hs yes) fun y => ?_
    refine A.bind (A.mapM fun branch _ => ?_) fun branches => A.map (hs no) _
    exact A.bind (hs branch.1) fun c => A.map (hs branch.2) _
  | call function args named =>
    refine A.bind (A.mapM fun c _ => hs c) fun args => ?_
    exact A.map (A.mapM fun arg _ => A.map (hs arg.2) _) _
  | array elements => exact A.map (A.mapM fun c _ => hs c) _
  | matrix rows => exact A.map (A.mapM fun row _ => A.mapM fun c _ => hs c) _
  | range start step stop =>
    refine A.bind (hs start) fun a => ?_
    exact A.bind (A.optionMapM fun d _ => hs d) fun d => A.map (hs stop) _
  | tuple elements => exact A.map (A.mapM fun c _ => hs c) _
  | list elements => exact A.map (A.mapM fun c _ => hs c) _

/-- Splicing the parts of quoted code is aligned. -/
theorem spliceParts (code : Code) :
    A.Aligned fun i =>
      (s i).spliceParts (ev.withLimit (limit i)) ⟨env, mode, r i⟩ code := by
  simp only [Steps.spliceParts]
  cases code.marked? with
  | none => exact h.mapParts hr code
  | some marked =>
    simp only [Steps.spliceMarked, Evaluator.withLimit]
    cases helaborate : ev.elaborate env marked with
    | none => exact A.fail _
    | some e =>
      refine A.bind (h.eval hr (h.keeps.elaborate helaborate)) fun v => ?_
      cases v.toCode? with
      | none => exact A.fail _
      | some code => exact A.pure code

/-- Evaluating quoted code is aligned. -/
theorem quote (fragment : Fragment) :
    A.Aligned fun i => (s i).quote ⟨env, mode, r i⟩ fragment := by
  cases fragment with
  | expression code => exact A.map (h.splice hr code) _
  | typeName path => exact A.pure _
  | componentName path => exact A.pure _

/-- Evaluation by the rule for the form of an expression does the same in all runs. -/
theorem rule {e : Expr} (he : A.Meets e) :
    A.Aligned fun i => (s i).rule (ev.withLimit (limit i)) ⟨env, mode, r i⟩ e := by
  by_cases hcode : ∃ fragment, e = .code fragment
  · obtain ⟨fragment, rfl⟩ := hcode
    exact h.quote hr fragment
  · exact h.rule_of_unquoted hr he fun fragment heq => hcode ⟨fragment, heq⟩

end Stepwise

/-! ## The step above -/

namespace Stepwise

variable {ev : Evaluator} {limit levels : ι → Nat}
  (h : A.Stepwise ev limit fun i => (ev.withLimit (limit i)).steps (levels i))
  {env : Env} {mode : Mode} {r : ι → Reporting} (hr : A.Admits env mode r)

include h hr

/-- With one level more evaluation is aligned. -/
theorem evalAfter_succ (k : Nat) {e : Expr} (he : A.Meets e) :
    A.Aligned fun i =>
      ((ev.withLimit (limit i)).steps (levels i + 1)).evalAfter k ⟨env, mode, r i⟩ e := by
  cases k with
  | zero => exact A.bind (A.count fun _ => rfl) fun _ => h.rule hr he
  | succ k => exact h.evalAfter hr k he

/-- With one level more splicing is aligned. -/
theorem splice_succ (code : Code) :
    A.Aligned fun i =>
      ((ev.withLimit (limit i)).steps (levels i + 1)).splice ⟨env, mode, r i⟩ code :=
  h.spliceParts hr code

end Stepwise

end Alignment

end ModelicaFold
