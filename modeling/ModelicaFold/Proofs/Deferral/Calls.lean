import ModelicaFold.Proofs.Deferral.References

/-!
# The rules of reductions and calls

A call that is handed to the executor is out of reach of the rules. The executor is taken to follow
a plan (`Evaluator.Respects`) that does not look at placeholders either: it asks for the same bodies
in the same order, with values filled in. With this there is a lemma for each form of expression,
and `Steps.Lead.rule` is the case distinction over them.
-/

namespace ModelicaFold

open EvalM Outcome Value

/-! ## Binding tuples -/

section

variable {α β : Type} {R : α → β → Prop} {sequences : List (List α)} {sequences' : List (List β)}
  (h : List.Forall₂ (List.Forall₂ R) sequences sequences')

include h

/-- Related sequences have related combinations. -/
theorem forall₂_combinations :
    List.Forall₂ (List.Forall₂ R) (combinations sequences) (combinations sequences') := by
  induction h with
  | nil => exact .cons .nil .nil
  | cons hitems _ ih =>
    rw [combinations_cons, combinations_cons]
    exact forall₂_flatMap (ih.imp fun _ _ hrest =>
      forall₂_map (hitems.imp fun _ _ hab => .cons hab hrest))

/-- Related sequences are run through in step by related tuples. -/
theorem forall₂_lockstep (n : Nat) :
    List.Forall₂ (List.Forall₂ R) (lockstep n sequences) (lockstep n sequences') := by
  induction n generalizing sequences sequences' with
  | zero => exact .nil
  | succ n ih =>
    refine .cons (List.rel_filterMap (fun _ _ hitems => ?_) h) (ih (forall₂_map (h.imp ?_)))
    · cases hitems with
      | nil => exact .none
      | cons hab _ => exact .some hab
    · exact fun _ _ => forall₂_tail

/-- Related sequences have related binding tuples, of either kind. -/
theorem yields_bindingTuples (kind : IteratorKind) :
    Yields (List.Forall₂ (List.Forall₂ R)) (bindingTuples kind sequences)
      (bindingTuples kind sequences') := by
  simp only [bindingTuples, map_eq_of_forall₂ (h.imp fun _ _ hitems => hitems.length_eq)]
  cases kind with
  | thread => exact .ite (yields_fail _ _) (yields_ok (forall₂_lockstep h _))
  | combine =>
    simp only
    cases combinationCount (sequences'.map List.length) with
    | none => exact yields_fail _ _
    | some n => exact .ite (yields_ok (forall₂_combinations h)) (yields_fail _ _)

end

/-- Iterators bound to values that are filled in make bindings that are. -/
theorem bindingsFilled_zip (iterators : List Iterator) {vs ws : List Value}
    (h : AllFilled true vs ws) :
    BindingsFilled ((iterators.zip vs).map fun (it, v) => (it.name, it.ty, v))
      ((iterators.zip ws).map fun (it, v) => (it.name, it.ty, v)) := by
  induction h generalizing iterators with
  | nil =>
    rw [List.zip_nil_right]
    exact .nil
  | cons hvw _ ih =>
    cases iterators with
    | nil => exact .nil
    | cons it iterators => exact .cons ⟨rfl, rfl, hvw⟩ (ih iterators)

/-- Values are gathered to a value that is filled in as they are. -/
theorem Gathering.filled_gather (g : Gathering) {vs ws : List Value} (h : AllFilled true vs ws)
    (shape : List Nat) : (g.gather vs shape).Filled true (g.gather ws shape) := by
  cases g with
  | array =>
    have hunboxed := forall₂_map (h.imp fun _ _ hvw => hvw.unboxed)
    exact .nest .arrayOf hunboxed shape
  | list => exact .nest .listOf h shape
  | reversedList => exact .nest .listOf (List.rel_reverse h) shape
  | fold => exact .fail

/-- Requests within iterators bound to related values are related. -/
theorem Request.Filled.bindIterators {start : Env} {req req' : Request} (h : req.Filled start req')
    {bindings bindings' : List (String × Ty × Value)}
    (hbindings : BindingsFilled bindings bindings') :
    (req.within (req.env.bindIterators bindings)).Filled start
      (req'.within (req'.env.bindIterators bindings')) :=
  h.bindValues iteratorScopeName .iteratorScope hbindings

/-! ## Neighbouring phases -/

/-- What an executor does with a call, and what it does where values are filled in. Where it fails
without asking for the value of a body nothing is said of the other one. -/
inductive Execution.Filled : Execution → Execution → Prop where
  | failed (f : Failure) (execution : Execution) : Filled (.finish (.error f)) execution
  | finish {v w : Value} (h : v.Filled true w) : Filled (.finish (.ok v)) (.finish (.ok w))
  | body (scope : String) {parameters parameters' : List (String × Ty × Value)}
      (h : BindingsFilled parameters parameters') (e : Expr) (r r' : Reporting)
      {next next' : Value → Execution}
      (hnext : ∀ v w, v.Filled true w → Filled (next v) (next' w)) :
      Filled (.body scope parameters e r next) (.body scope parameters' e r' next')

/-- The neighbouring phases do not look at placeholders: the executor follows a plan that goes on in
the same way where values are filled in, and quoted code has the same type there. -/
structure Evaluator.Respects (ev : Evaluator) (plan : Plan) (start : Env) : Prop where
  executes : ev.Executes plan
  plan : ∀ functions {env env' : Env}, start.Extends env → start.Filled env env' →
    ∀ call {vs ws : List Value}, AllFilled true vs ws → ∀ mode,
      (plan functions env call vs mode).Filled (plan functions env' call ws mode)
  elaborate : ∀ {env env' : Env}, start.Extends env → start.Filled env env' →
    ∀ code, ev.elaborate env' code = ev.elaborate env code

/-- An evaluator without neighbours has none that look at placeholders. -/
theorem Evaluator.respects_alone (config : Config) (start : Env) :
    (Evaluator.alone config).Respects (fun _ _ _ _ _ => .finish (Cause.fail .notConstant)) start :=
  ⟨fun _ _ _ _ _ => rfl, fun _ _ _ _ _ _ _ _ _ _ => .failed _ _, fun _ _ _ => rfl⟩

/-- Executions that are filled in lead each other if evaluation of bodies does. -/
theorem Execution.leads_run {start : Env} {reenter reenter' : Reentry} {env env' : Env}
    {mode : Mode} (hreenter : ∀ {env env' : Env}, start.Extends env → start.Filled env env' →
      ∀ e r r', Leads (Value.Filled true) (reenter env e mode r) (reenter' env' e mode r'))
    (hmeets : start.Extends env) (henv : start.Filled env env') {execution execution' : Execution}
    (h : execution.Filled execution') :
    Leads (Value.Filled true) (execution.run reenter env mode)
      (execution'.run reenter' env' mode) := by
  induction h with
  | failed f execution => exact leads_throw f _
  | finish hvw => exact leads_pure hvw
  | body scope hparameters e r r' _ ih =>
    refine (hreenter ?_ ?_ e r r').bind ih
    · exact hmeets.bindValues scope .functionScope _
    · exact henv.bindValues scope .functionScope hparameters

namespace Steps.Lead

variable {start : Env} {s s' : Steps} (h : s.Lead start s') {req req' : Request}
  (hreq : req.Filled start req')

include h hreq

/-! ## Reductions -/

/-- Asking a guard whether a value passes leads to the same answer. -/
theorem passes (name : String) (ty : Ty) (guard : Expr) {v w : Value} (hvw : v.Filled true w) :
    Leads Eq (s.passes req name ty guard v) (s'.passes req' name ty guard w) := by
  have hbindings : BindingsFilled [(name, ty, v)] [(name, ty, w)] := .cons ⟨rfl, rfl, hvw⟩ .nil
  refine (h.evalInner (hreq.bindIterators hbindings) guard).bind fun verdict verdict' hverdict => ?_
  cases hverdict with
  | bool b => exact leads_pure rfl
  | _ => exact leads_fail _ _

/-- The values that one iterator runs through lead. -/
theorem sequence (it : Iterator) :
    Leads (AllFilled true) (s.sequence req it) (s'.sequence req' it) := by
  refine (h.eval hreq it.source).bind fun source source' hsource => ?_
  cases helements : source.elements? with
  | none => exact leads_fail _ _
  | some candidates =>
    obtain ⟨candidates', helements', hall⟩ := hsource.elements? helements
    rw [helements']
    simp only
    cases it.guard with
    | none => exact leads_pure hall
    | some guard => exact .filterM hall fun v w => h.passes hreq it.name it.ty guard

/-- The body of a reduction at one tuple of values leads. -/
theorem bodyValue (iterators : List Iterator) (body : Expr) {vs ws : List Value}
    (hall : AllFilled true vs ws) :
    Leads (Filled true) (s.bodyValue req iterators body vs)
      (s'.bodyValue req' iterators body ws) :=
  h.eval (hreq.bindIterators (bindingsFilled_zip iterators hall)) body

/-- One step of the fold of a reduction leads. -/
theorem foldStep (info : ReductionInfo) {acc acc' next next' : Value} (hacc : acc.Filled true acc')
    (hnext : next.Filled true next') :
    Leads (Filled true) (s.foldStep req info acc next) (s'.foldStep req' info acc' next') := by
  simp only [Steps.foldStep]
  cases info.fold with
  | none => exact (leads_ofOutcome ((strict₂_foldNamed _).yields hacc hnext)).filled
  | some fold =>
    have hbindings : BindingsFilled
        [(info.valueName, info.ty, next), (info.resultName, info.ty, acc)]
        [(info.valueName, info.ty, next'), (info.resultName, info.ty, acc')] :=
      .cons ⟨rfl, rfl, hnext⟩ (.cons ⟨rfl, rfl, hacc⟩ .nil)
    exact h.evalInner (hreq.bindIterators hbindings) fold

/-- The rule for reductions leads. -/
theorem reduction (info : ReductionInfo) (body : Expr) (iterators : List Iterator) :
    Leads (Filled true) (s.reduction req info body iterators)
      (s'.reduction req' info body iterators) := by
  refine (Leads.mapM_same fun it _ => h.sequence hreq it).bind ?_
  intro sequences sequences' hsequences
  refine (leads_liftOutcome (yields_bindingTuples hsequences info.kind)).bind ?_
  intro tuples tuples' htuples
  have hvalue : ∀ vs ws, AllFilled true vs ws → Leads (Filled true)
      (s.bodyValue req iterators body vs) (s'.bodyValue req' iterators body ws) :=
    fun _ _ => h.bodyValue hreq iterators body
  cases htuples with
  | nil =>
    simp only
    cases info.default with
    | none => exact leads_pure .fail
    | some default => exact h.eval hreq default
  | cons hfirst hothers =>
    simp only
    cases Gathering.ofName info.path.last with
    | fold =>
      refine (hvalue _ _ hfirst).bind fun acc acc' hacc => .foldlM hothers ?_ hacc
      intro acc acc' tuple tuple' hacc htuple
      exact (hvalue _ _ htuple).bind fun v w hvw => h.foldStep hreq info hacc hvw
    | _ =>
      refine (Leads.mapM (.cons hfirst hothers) hvalue).map fun vs ws hall => ?_
      rw [map_eq_of_forall₂ (hsequences.imp fun _ _ hitems => hitems.length_eq), List.length_cons,
        List.length_cons, hothers.length_eq]
      exact Gathering.filled_gather _ hall _

/-! ## Built-in functions of expressions -/

/-- The rule for divisions with a tested divisor leads. -/
theorem quotient (name : String) (zero : String → String → Cause)
    {divide : Value → Value → Outcome Value} (hdivide : Strict₂ divide) (args : List Expr) :
    Leads (Filled true) (Steps.quotient name zero divide s req args)
      (Steps.quotient name zero divide s' req' args) := by
  simp only [Steps.quotient, Steps.quotientOperands, bind_assoc]
  refine (leads_liftOutcome (yields_refl (fun _ => rfl) _)).bind_eq fun _ => ?_
  match args with
  | [x, y] =>
    simp only [bind_assoc]
    refine (h.eval hreq x).bind fun a a' ha => (h.eval hreq y).bind fun b b' hb => ?_
    refine leads_of_complete hb (fun C log v D log' hrun => ?_) fun heq => ?_
    · obtain ⟨⟨a₁, b₁⟩, _, _, hrun, hdiv⟩ := gives_bind.mp hrun
      split at hrun
      · cases hrun
      · obtain ⟨heq, -, -⟩ := gives_pure.mp hrun
        cases heq
        exact (hdivide a b v (gives_ofOutcome.mp hdiv).1).2
    · subst heq
      by_cases hzero : b'.isZero = true
      · rw [if_pos hzero]
        exact leads_fail _ _
      · rw [if_neg hzero, if_neg hzero]
        exact (leads_ofOutcome (hdivide.yields ha (.refl b'))).filled
  | [] => exact leads_fail _ _
  | [_] => exact leads_fail _ _
  | _ :: _ :: _ :: _ => exact leads_fail _ _

omit h hreq in
/-- A function of one expression leads if its rule does. -/
theorem onlyArg (name : String) {args : List Expr} {rule rule' : Expr → EvalM Value}
    (hrule : ∀ e more, args = e :: more → Leads (Filled true) (rule e) (rule' e)) :
    Leads (Filled true) (Steps.onlyArg name args rule) (Steps.onlyArg name args rule') := by
  refine (leads_liftOutcome (yields_refl (fun _ => rfl) _)).bind_eq fun _ => ?_
  cases args with
  | nil => exact leads_fail _ _
  | cons e more => exact hrule e more rfl

/-- The rule for `noEvent` leads. -/
theorem noEvent (args : List Expr) :
    Leads (Filled true) (s.noEvent req args) (s'.noEvent req' args) :=
  onlyArg "noEvent" fun e _ _ => h.eval hreq e

/-- The rule for `smooth` leads. -/
theorem smooth (args : List Expr) :
    Leads (Filled true) (s.smooth req args) (s'.smooth req' args) := by
  refine (leads_liftOutcome (yields_refl (fun _ => rfl) _)).bind_eq fun _ => ?_
  match args with
  | _ :: e :: _ => exact h.eval hreq e
  | [] => exact leads_fail _ _
  | [_] => exact leads_fail _ _

/-- The rule for `print` leads. -/
theorem print (args : List Expr) :
    Leads (Filled true) (s.print req args) (s'.print req' args) := by
  refine onlyArg "print" fun e _ _ => (h.eval hreq e).bind fun v w hvw => ?_
  have hunboxed := hvw.unboxed
  generalize v.unboxed = content, w.unboxed = content' at hunboxed
  cases hunboxed with
  | string text => exact (leads_modifyLog _ _).bind_eq fun _ => leads_pure .noReturn
  | _ => exact leads_fail _ _

/-- The rule for `simplify` leads. -/
theorem simplified (ev : Evaluator) (args : List Expr) :
    Leads (Filled true) (Steps.simplified ev s req args) (Steps.simplified ev s' req' args) := by
  refine (leads_liftOutcome (yields_refl (fun _ => rfl) _)).bind_eq fun _ => ?_
  cases args with
  | nil => exact leads_fail _ _
  | cons e more => exact h.eval hreq (ev.simplify e)

section

variable {name : String} {args : List Expr}
  (hinsists : Steps.Insists (Builtin.demands name args) s s' req req')

include hinsists

omit h hreq in
/-- The rule for `ndims` leads where sizes are demanded. -/
theorem ndims (hname : name = "ndims") :
    Leads (Filled true) (s.ndims req args) (s'.ndims req' args) := by
  refine onlyArg "ndims" fun e more hcons => rank hinsists ?_
  rw [hcons, Builtin.demands_measured (.inr hname)]
  exact List.Subset.refl _

/-- The rule for `size` leads where sizes are demanded. -/
theorem sizeCall (hname : name = "size") :
    Leads (Filled true) (s.sizeCall req args) (s'.sizeCall req' args) := by
  refine (leads_liftOutcome (yields_refl (fun _ => rfl) _)).bind_eq fun _ => ?_
  cases args with
  | nil => exact leads_fail _ _
  | cons e more =>
    refine h.size hreq more.head? hinsists ?_
    rw [Builtin.demands_measured (.inl hname)]
    exact List.Subset.refl _

/-- A built-in function of values leads where what it demands of its arguments is insisted on. -/
theorem ofValues {extended : Bool} {f : Builtin.Function}
    (hrule : Builtin.rule? name extended = some (.ofValues f)) :
    Leads (Filled true) (s.evalAll req args >>= fun values => ofOutcome (f values))
      (s'.evalAll req' args >>= fun values => ofOutcome (f values)) := by
  rcases Builtin.tolerates_of_rule hrule with hrespects | ⟨hname, hrespects⟩ | hname
  · exact (h.evalAll hreq args).bind fun vs ws hall => leads_ofOutcome (hrespects true vs ws hall)
  · have hall : Leads (AllFilled false) (s.evalAll req args) (s'.evalAll req' args) :=
      evalAll_shaped hinsists fun e he => by
        rw [Builtin.demands_of_readsShape hname]
        exact List.mem_map_of_mem he
    refine hall.bind fun vs ws hall => leads_ofOutcome ((hrespects vs ws hall).mono ?_)
    exact fun _ _ hvw => hvw.of_shaped (.inl rfl)
  · have hall : Leads Eq (s.evalAll req args) (s'.evalAll req' args) :=
      evalAll_complete hinsists fun e he => by
        rw [Builtin.demands_of_readsWhole hname]
        exact List.mem_map_of_mem he
    exact hall.bind_eq fun vs => leads_ofOutcome (Builtin.yields_same _)

/-- The rule of a built-in function leads where what it demands of its arguments is insisted on. -/
theorem applyRule (ev : Evaluator) {extended : Bool} {rule : Builtin.Rule}
    (hrule : Builtin.rule? name extended = some rule) :
    Leads (Filled true) (s.applyRule ev req args rule) (s'.applyRule ev req' args rule) := by
  cases rule with
  | ofValues f => exact h.ofValues hreq hinsists hrule
  | ofExprs f =>
    rcases Builtin.rule?_ofExprs hrule with
      rfl | rfl | rfl | ⟨hname, rfl⟩ | rfl | rfl | ⟨-, rfl⟩ | ⟨hname, rfl⟩ | rfl
    · exact h.quotient hreq "div" .divisionByZero Builtin.strict₂_integerDivide args
    · exact h.quotient hreq "mod" .moduloByZero Builtin.strict₂_modulo args
    · exact h.quotient hreq "rem" .moduloByZero Builtin.strict₂_remainder args
    · exact ndims hinsists hname
    · exact h.noEvent hreq args
    · exact h.print hreq args
    · exact h.simplified hreq ev args
    · exact h.sizeCall hreq hinsists hname
    · exact h.smooth hreq args

end

/-! ## Calls -/

/-- The arguments of a call lead. -/
theorem arguments (args : List Expr) :
    Leads (AllFilled true) (s.arguments req args) (s'.arguments req' args) :=
  .mapM_same fun e _ => (h.eval hreq e).reporting req.reporting req'.reporting

section

variable {ev : Evaluator} {plan : Plan} (hev : ev.Respects plan start)

include hev

/-- A delegated call leads if the executor follows a plan that does not look at placeholders. -/
theorem delegate (call : Expr) {vs ws : List Value} (hall : AllFilled true vs ws) :
    Leads (Filled true) (s.delegate ev req call vs) (s'.delegate ev req' call ws) := by
  refine (leads_count _).bind_eq fun _ => ?_
  simp only [hev.executes _ _ _ _ _, hreq.mode]
  refine leads_getFunctions.bind_eq fun functions => ?_
  refine Execution.leads_run (fun {env env'} hmeets henv e r r' => ?_) hreq.meets hreq.env
    (hev.plan functions hreq.meets hreq.env call hall req.mode)
  have hbody : Request.Filled start ⟨env, req.mode, r⟩ ⟨env', req.mode, r'⟩ := ⟨hmeets, henv, rfl⟩
  exact (h.evalInner hbody e).reporting r r'

/-- A call of a function of the model leads. -/
theorem callFunction (call : Expr) (path : Path) {args : List Expr} {demands : Demands}
    (hinsists : Steps.Insists demands s s' req req')
    (hdemands : (Builtin.External.function? req.env path).isSome = true →
      ∀ e ∈ args, (e, .complete) ∈ demands) :
    Leads (Filled true) (s.callFunction ev req call path args)
      (s'.callFunction ev req' call path args) := by
  simp only [Steps.callFunction, hreq.env.function?_eq]
  cases hknown : Builtin.External.function? req.env path with
  | none => exact (h.arguments hreq args).bind fun vs ws hall => h.delegate hreq hev call hall
  | some f =>
    have hargs : Leads Eq (s.arguments req args) (s'.arguments req' args) := .mapM_eq fun e he =>
      (hinsists (hdemands (hknown ▸ rfl) e he) 0).complete.reporting req.reporting req'.reporting
    refine hargs.bind_eq fun values => (leads_count _).bind_eq fun _ => ?_
    cases f values with
    | ok v => exact leads_pure (.refl v)
    | error known =>
      have hdelegate := h.delegate hreq hev call (Filled.refl_all values)
      refine hdelegate.attempt (fun v w hvw => leads_pure hvw) fun f C log v D log' hrun => ?_
      simp only at hrun
      split at hrun
      · cases hrun
      · cases hrun

/-- The rule for calls leads. -/
theorem call (path : Path) (args : List Expr) (ty : Ty) (builtin impure : Bool)
    (hinsists : Steps.Insists ((Expr.call path args ty builtin impure).demands req.env) s s' req
      req') :
    Leads (Filled true) (s.call ev req (.call path args ty builtin impure) path args builtin impure)
      (s'.call ev req' (.call path args ty builtin impure) path args builtin impure) := by
  simp only [Steps.call_eq]
  cases Steps.smoothZero? path args builtin with
  | some e => exact h.eval hreq e
  | none =>
    simp only
    cases builtin with
    | true =>
      cases hrule : Builtin.rule? path.last ev.config.flags.metamodelica with
      | none => exact leads_fail _ _
      | some rule =>
        exact (leads_count _).bind_eq fun _ => h.applyRule hreq hinsists ev hrule
    | false =>
      cases impure with
      | true => exact leads_fail _ _
      | false =>
        refine h.callFunction hreq hev _ path hinsists fun hknown e he => ?_
        simp only [Expr.demands, hknown, if_true]
        exact List.mem_map_of_mem he

/-! ## Every form of expression -/

/-- Evaluation by the rule for the form of an expression leads the same evaluation where values are
filled in. -/
theorem rule (e : Expr) (hinsists : Steps.Insists (e.demands req.env) s s' req req') :
    Leads (Filled true) (s.rule ev req e) (s'.rule ev req' e) := by
  cases e with
  | integer n => exact leads_pure (.refl _)
  | real x => exact leads_pure (.refl _)
  | bool b => exact leads_pure (.refl _)
  | string text => exact leads_pure (.refl _)
  | enumeration path index => exact leads_pure (.refl _)
  | array ty _ elements => exact h.array hreq ty elements
  | matrix _ rows => exact matrix hinsists
  | range ty start step stop => exact h.range hreq ty start step stop
  | tuple elements => exact (h.evalAll hreq elements).map fun _ _ => .tuple
  | cast ty operand => exact h.cast hreq ty operand
  | reference parts ty =>
    exact h.reference hreq ev parts ty hinsists fun e => List.mem_map_of_mem
  | binary lhs op rhs => exact h.binary hreq lhs op rhs hinsists
  | unary op operand => exact h.strict hreq strict_negate operand
  | logical lhs op rhs => exact h.logical hreq lhs op rhs
  | logicalNot operand => exact h.strict hreq strict_logicalNot operand
  | relation lhs op rhs => exact h.relation hreq lhs op rhs
  | conditional condition yes no => exact h.conditional hreq condition yes no
  | call path args ty builtin impure => exact h.call hreq hev path args ty builtin impure hinsists
  | record path args fields =>
    exact (h.evalAll hreq args).map fun _ _ => .record path fields (-1)
  | unionRecord path index args fields =>
    exact (h.evalAll hreq args).map fun _ _ => .record path fields index
  | subscripted operand subscripts =>
    refine (h.eval hreq operand).bind fun v w hvw => ?_
    exact h.applySubscripts hreq hinsists (fun e => List.mem_map_of_mem) hvw
  | component operand index => exact h.component hreq operand index
  | field operand name => exact h.field hreq operand name
  | size operand dim => exact h.size hreq dim hinsists (List.Subset.refl _)
  | list elements => exact (h.evalAll hreq elements).map fun _ _ => .listOf
  | cons head tail => exact h.cons hreq head tail
  | present content => exact (h.eval hreq content).map fun _ _ => .present
  | absent => exact leads_pure .absent
  | boxed content => exact (h.eval hreq content).map fun _ _ => .boxed
  | unbox operand ty => exact h.unbox hreq operand
  | reduction info body iterators => exact h.reduction hreq info body iterators
  | code fragment => exact h.quote hreq fragment

end

end Steps.Lead

end ModelicaFold
