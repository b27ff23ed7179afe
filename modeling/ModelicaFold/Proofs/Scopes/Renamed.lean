import ModelicaFold.Proofs.Runs.Resembling
import ModelicaFold.Proofs.Runs.Rules
import ModelicaFold.Proofs.Scopes.Relabelling

/-!
# Evaluation under a new name

In corresponding environments an expression and the renamed one are evaluated alike, up to the words of
failures, which quote expressions (`Relabelling.respects_steps`). There is one lemma for each rule, in
the order of the modules that define them; the rules for quoted code and for functions of the model are
not among them.
-/

namespace ModelicaFold

open EvalM

namespace EvalM.Resembles

variable {s : Steps} {req req' : Request}

/-! ## The rule for reductions -/

/-- A guard lets a value pass under both names if it is evaluated alike. -/
theorem passes {name name' : String} {ty ty' : Ty} {guard guard' : Expr} {v : Value}
    (h : Resembles (s.evalInner (req.within (req.env.bindIterators [(name, ty, v)])) guard)
      (s.evalInner (req'.within (req'.env.bindIterators [(name', ty', v)])) guard')) :
    Resembles (s.passes req name ty guard v) (s.passes req' name' ty' guard' v) := by
  refine h.bind fun verdict => ?_
  cases verdict with
  | bool b => exact .refl _
  | _ => exact .fail rfl

/-- An iterator runs through the same values if its source and its guard are evaluated alike. -/
theorem sequence {it it' : Iterator} {ψ : Expr → Expr} (hguard : it'.guard = it.guard.map ψ)
    (hsource : Resembles (s.eval req it.source) (s.eval req' it'.source))
    (hpasses : ∀ guard, it.guard = some guard → ∀ v,
      Resembles (s.passes req it.name it.ty guard v)
        (s.passes req' it'.name it'.ty (ψ guard) v)) :
    Resembles (s.sequence req it) (s.sequence req' it') := by
  refine hsource.bind fun source => ?_
  cases source.elements? with
  | none => exact .fail rfl
  | some candidates =>
    simp only [hguard]
    cases hit : it.guard with
    | none => exact .refl _
    | some guard => exact .filterM (hpasses guard hit)

/-- Reductions resemble each other if their sequences, defaults and fold steps do, and their bodies for
every tuple with a value for each iterator. -/
theorem reduction {info info' : ReductionInfo} {body body' : Expr} {iterators iterators' : List Iterator}
    {φ : Expr → Expr} (hkind : info'.kind = info.kind) (hpath : info'.path = info.path)
    (hsequences : Resembles (iterators.mapM (s.sequence req)) (iterators'.mapM (s.sequence req')))
    (hdefault : info'.default = info.default.map φ)
    (hvalue : ∀ default, info.default = some default →
      Resembles (s.eval req default) (s.eval req' (φ default)))
    (hbody : ∀ values : List Value, values.length = iterators.length →
      Resembles (s.bodyValue req iterators body values) (s.bodyValue req' iterators' body' values))
    (hfold : ∀ acc next, Resembles (s.foldStep req info acc next) (s.foldStep req' info' acc next)) :
    Resembles (s.reduction req info body iterators) (s.reduction req' info' body' iterators') := by
  unfold Steps.reduction
  rw [hkind, hpath]
  refine hsequences.bind_of_gives fun {sequences _ _ _ _} hgives => ?_
  have hlength : sequences.length = iterators.length := (gives_mapM hgives).length_eq.symm
  refine (refl (liftM (bindingTuples info.kind sequences))).bind_of_gives
    fun {tuples _ _ _ _} htuples => ?_
  have hbody : ∀ tuple ∈ tuples, Resembles (s.bodyValue req iterators body tuple)
      (s.bodyValue req' iterators' body' tuple) := fun tuple htuple => hbody tuple
    ((length_of_mem_bindingTuples (gives_ofOutcome.mp htuples).1 htuple).trans hlength)
  cases tuples with
  | nil =>
    simp only [hdefault]
    cases hinfo : info.default with
    | none => exact .refl _
    | some default => exact hvalue default hinfo
  | cons first others =>
    obtain ⟨hfirst, hothers⟩ := List.forall_mem_cons.mp hbody
    simp only
    cases Gathering.ofName info.path.last with
    | fold =>
      refine hfirst.bind fun acc => foldlM acc fun acc tuple htuple => ?_
      exact (hothers tuple htuple).bind fun v => hfold acc v
    | _ => exact (mapM hbody).map _

end EvalM.Resembles

/-! ## Arguments of calls -/

/-- Renaming arguments does not change their number. -/
theorem Builtin.takesBetween_rename (ρ : Renaming) (name : String) (least most : Nat)
    (args : List Expr) :
    takesBetween name least most (args.map (Expr.rename ρ)) = takesBetween name least most args := by
  simp only [takesBetween, List.length_map]

/-- Renaming does not make a call `smooth(0, e)`, nor take one away. -/
theorem Steps.smoothZero?_rename (ρ : Renaming) (path : Path) (args : List Expr) (builtin : Bool) :
    smoothZero? path (args.map (Expr.rename ρ)) builtin
      = (smoothZero? path args builtin).map (Expr.rename ρ) := by
  cases hsmooth : smoothZero? path args builtin with
  | some e =>
    obtain ⟨rfl, hrest⟩ := smoothZero?_eq_some.mp hsmooth
    exact smoothZero?_eq_some.mpr ⟨rfl, hrest⟩
  | none =>
    refine Option.eq_none_iff_forall_ne_some.mpr fun e' hsmooth' => ?_
    obtain ⟨hargs, hrest⟩ := smoothZero?_eq_some.mp hsmooth'
    obtain ⟨order, more, rfl, horder, hmore⟩ := List.map_eq_cons_iff.mp hargs
    obtain ⟨e, rest, rfl, -, hnil⟩ := List.map_eq_cons_iff.mp hmore
    obtain rfl := List.map_eq_nil_iff.mp hnil
    rw [Expr.rename_eq_integer] at horder
    rw [smoothZero?_eq_some.mpr ⟨by rw [horder], hrest⟩] at hsmooth
    cases hsmooth

/-! ## Corresponding environments -/

namespace Relabelling

/-- Evaluation one level down does not depend on the name of the iterator. -/
def Respects (R : Relabelling) (ev : Evaluator) (s : Steps) : Prop :=
  ∀ {ρ : Renaming} {req : Request} {env' : Env}, R.Corresponds ev ρ req.env env' →
    ∀ k {e : Expr}, R.Meets ρ e →
      Resembles (s.evalAfter k req e) (s.evalAfter k (req.within env') (e.rename ρ))

namespace Respects

variable {R : Relabelling} {ev : Evaluator} {s : Steps} (h : R.Respects ev s) {ρ : Renaming}
  {req : Request} {env' : Env} (hc : R.Corresponds ev ρ req.env env')

include h hc

/-! ## Subexpressions -/

/-- An operand is evaluated as it is renamed. -/
theorem eval {e : Expr} (he : R.Meets ρ e) :
    Resembles (s.eval req e) (s.eval (req.within env') (e.rename ρ)) := h hc 0 he

/-- An expression one level down is evaluated as it is renamed. -/
theorem evalInner {e : Expr} (he : R.Meets ρ e) :
    Resembles (s.evalInner req e) (s.evalInner (req.within env') (e.rename ρ)) := h hc 1 he

/-- A list of expressions is evaluated as it is renamed. -/
theorem evalAll {es : List Expr} (hes : ∀ e ∈ es, R.Meets ρ e) :
    Resembles (s.evalAll req es) (s.evalAll (req.within env') (es.map (Expr.rename ρ))) :=
  .mapM_map fun e he => h.eval hc (hes e he)

/-- Subscripts are applied as they are renamed. -/
theorem applySubscripts {subscripts : List Subscript}
    (hsubscripts : ∀ e ∈ subscripts.filterMap Subscript.expr?, R.Meets ρ e) (v : Value) :
    Resembles (s.applySubscripts req subscripts v)
      (s.applySubscripts (req.within env') (subscripts.map (Subscript.rename ρ)) v) := by
  induction subscripts generalizing v with
  | nil => exact .refl _
  | cons subscript rest ih =>
    cases subscript with
    | index e =>
      obtain ⟨he, hrest⟩ := List.forall_mem_cons.mp hsubscripts
      simp only [List.map_cons, Subscript.rename, Steps.applySubscripts]
      refine (h.eval hc he).bind fun index => (Resembles.refl _).bind fun position => ?_
      exact (Resembles.refl _).bind fun element => ih hrest element
    | slice e =>
      obtain ⟨he, hrest⟩ := List.forall_mem_cons.mp hsubscripts
      simp only [List.map_cons, Subscript.rename, Steps.applySubscripts]
      refine (h.eval hc he).bind fun indices => ?_
      refine (Resembles.mapM fun index _ => ?_).map Value.arrayOf
      refine (Resembles.refl _).bind fun position => (Resembles.refl _).bind fun element => ?_
      exact ih hrest element
    | whole =>
      simp only [List.map_cons, Subscript.rename, Steps.applySubscripts, List.isEmpty_map]
      refine .ite (fun _ => .refl _) fun _ => ?_
      cases v with
      | array elements dims =>
        refine .ite (fun _ => .refl _) fun _ => ?_
        exact (Resembles.mapM fun element _ => ih hsubscripts element).map Value.arrayOf
      | _ => exact ih hsubscripts _

/-! ## Sizes -/

/-- A dimension is evaluated as it is renamed. -/
theorem dimension {d : Dimension} (hd : ∀ e, d.expr? = some e → R.Meets ρ e) :
    Resembles (s.dimension req d) (s.dimension (req.within env') (d.rename ρ)) := by
  cases d with
  | computed e =>
    refine (h.evalInner hc (hd e rfl)).attempt (fun v => ?_) fun f g hfg => ?_
    · cases v with
      | integer n => exact .refl _
      | _ => exact .fail rfl
    · exact .throwIfFatal hfg (.fail rfl)
  | _ => exact .refl _

/-- The sizes of a value are those of the value renamed. -/
theorem evaluatedSizes {e : Expr} (he : R.Meets ρ e) :
    Resembles (s.evaluatedSizes req e) (s.evaluatedSizes (req.within env') (e.rename ρ)) := by
  refine (h.eval hc he).attempt (fun v => ?_) fun f g hfg => .throwIfFatal hfg (.fail rfl)
  cases v with
  | array elements dims => exact .refl _
  | _ => exact .fail rfl

/-- The sizes of an expression are those of the expression renamed. -/
theorem sizes {e : Expr} (he : R.Meets ρ e) :
    Resembles (s.sizes req e) (s.sizes (req.within env') (e.rename ρ)) := by
  have hdims : ∀ d ∈ Steps.announced e, ∀ size, d.expr? = some size → R.Meets ρ size :=
    fun d hd size hsize => he.size hd hsize
  simp only [Steps.sizes, Steps.announced_rename]
  cases hannounced : Steps.announced e with
  | nil => exact (h.eval hc he).map Value.dims
  | cons d ds =>
    rw [hannounced] at hdims
    refine (Resembles.mapM_map fun d hd => h.dimension hc (hdims d hd)).attempt
      (fun sizes => .refl _) fun f g hfg => ?_
    exact .throwIfFatal hfg (h.evaluatedSizes hc he)

/-- The rule for sizes is as it is for renamed operands. -/
theorem size {e : Expr} (he : R.Meets ρ e) {dim : Option Expr} (hdim : ∀ d, dim = some d → R.Meets ρ d) :
    Resembles (s.size req e dim)
      (s.size (req.within env') (e.rename ρ) (dim.map (Expr.rename ρ))) := by
  refine (h.sizes hc he).bind fun dims => ?_
  cases dim with
  | none => exact .refl _
  | some dim => exact (h.eval hc (hdim dim rfl)).bind fun v => .refl _

/-- The rule for ranks is as it is for renamed operands. -/
theorem rank {e : Expr} (he : R.Meets ρ e) :
    Resembles (s.rank req e) (s.rank (req.within env') (e.rename ρ)) :=
  (h.sizes hc he).map fun dims => Value.integer dims.length

/-! ## Constructors and operators -/

/-- The rule for arrays is as it is for renamed elements. -/
theorem array (ty : Ty) {elements : List Expr} (helements : ∀ e ∈ elements, R.Meets ρ e) :
    Resembles (s.array req ty elements)
      (s.array (req.within env') (ty.rename ρ) (elements.map (Expr.rename ρ))) := by
  simp only [Steps.array, Steps.arrayOfType_rename]
  exact (h.evalAll hc helements).map _

/-- The rule for matrices is as it is for renamed rows. -/
theorem matrix {rows : List (List Expr)} (hrows : ∀ row ∈ rows, ∀ e ∈ row, R.Meets ρ e) :
    Resembles (s.matrix req rows)
      (s.matrix (req.within env') (rows.map (List.map (Expr.rename ρ)))) := by
  refine (Resembles.mapM_map fun row hrow => ?_).bind fun blocks => .refl _
  exact (h.evalAll hc (hrows row hrow)).bind fun values => .refl _

/-- The rule for ranges is as it is for renamed bounds. -/
theorem range (ty : Ty) {start stop : Expr} {step : Option Expr} (hstart : R.Meets ρ start)
    (hstep : ∀ e, step = some e → R.Meets ρ e) (hstop : R.Meets ρ stop) :
    Resembles (s.range req ty start step stop)
      (s.range (req.within env') (ty.rename ρ) (start.rename ρ) (step.map (Expr.rename ρ))
        (stop.rename ρ)) := by
  simp only [Steps.range, Ty.elementType_rename, Value.rangeElements_rename]
  refine (h.eval hc hstart).bind fun a => ?_
  refine (Resembles.optionMapM_map fun e he => h.eval hc (hstep e he)).bind fun d => ?_
  exact (h.eval hc hstop).bind fun b => .refl _

section

variable {lhs rhs : Expr} (hlhs : R.Meets ρ lhs) (hrhs : R.Meets ρ rhs)

include hlhs hrhs

/-- The rule for arithmetic operators is as it is for renamed operands. -/
theorem binary (op : BinaryOp) :
    Resembles (s.binary req lhs op rhs)
      (s.binary (req.within env') (lhs.rename ρ) op (rhs.rename ρ)) := by
  refine (h.eval hc hlhs).bind fun a => (h.eval hc hrhs).bind fun b => ?_
  exact .ite (fun _ => .fail rfl) fun _ => .refl _

/-- The rule for conjunctions and disjunctions is as it is for renamed operands. -/
theorem logical (op : LogicalOp) :
    Resembles (s.logical req lhs op rhs)
      (s.logical (req.within env') (lhs.rename ρ) op (rhs.rename ρ)) := by
  simp only [Steps.logical_eq]
  refine (h.eval hc hlhs).bind fun a => ?_
  cases Value.decided? op a with
  | some v => exact .refl _
  | none => exact (h.eval hc hrhs).bind fun b => .refl _

/-- The rule for relations is as it is for renamed operands. -/
theorem relation (op : RelationOp) :
    Resembles (s.relation req lhs op rhs)
      (s.relation (req.within env') (lhs.rename ρ) op (rhs.rename ρ)) :=
  (h.eval hc hlhs).bind fun _ => (h.eval hc hrhs).bind fun _ => .refl _

/-- The rule for putting an element before a list is as it is for renamed operands. -/
theorem cons :
    Resembles (s.cons req lhs rhs) (s.cons (req.within env') (lhs.rename ρ) (rhs.rename ρ)) :=
  (h.eval hc hlhs).bind fun _ => (h.eval hc hrhs).bind fun _ => .refl _

end

/-- The rule for conditionals is as it is for renamed branches. -/
theorem conditional {condition yes no : Expr} (hcondition : R.Meets ρ condition) (hyes : R.Meets ρ yes)
    (hno : R.Meets ρ no) :
    Resembles (s.conditional req condition yes no)
      (s.conditional (req.within env') (condition.rename ρ) (yes.rename ρ) (no.rename ρ)) := by
  refine (h.eval hc hcondition).bind fun v => ?_
  cases v with
  | bool b =>
    cases b with
    | true => exact h.eval hc hyes
    | false => exact h.eval hc hno
  | _ => exact .refl _

/-- The rule for casts is as it is for renamed operands. -/
theorem cast (ty : Ty) {operand : Expr} (hoperand : R.Meets ρ operand) :
    Resembles (s.cast req ty operand)
      (s.cast (req.within env') (ty.rename ρ) (operand.rename ρ)) := by
  simp only [Steps.cast_eq, Value.castLeaf?_rename]
  cases Value.castLeaf? ty with
  | none => exact h.eval hc hoperand
  | some convert => exact (h.eval hc hoperand).bind fun v => .refl _

/-! ## References -/

omit h hc in
/-- A variable without a binding is read as before if a placeholder keeps its type. -/
theorem unbound {found : Found} {x : String} (hbinding : found.declared.binding = .unbound)
    (hallowed : R.Allows ev x found.declared) {ty ty' : Ty} (hty : R.Placeholders x → ty' = ty) :
    s.unbound ev (req.within env') found x ty' = s.unbound ev req found x ty := by
  obtain ⟨hrecord, hplaceholders⟩ := hallowed hbinding
  have hnone : ∀ env : Env, env.defaultedRecord? found.declared.ty = none := by
    intro env
    cases hdeclared : found.declared.ty <;> simp_all [Env.defaultedRecord?, Ty.isRecord]
  simp only [Steps.unbound, hnone]
  cases hdeclared : found.declared.ty.isUnknown with
  | false => rfl
  | true =>
    cases hdefer : ev.config.flags.deferUnbound with
    | false => rfl
    | true =>
      rw [hty (hplaceholders hdefer hdeclared)]
      rfl

omit h in
/-- One variable is read alike under both its names. -/
theorem readVariable {x x' : String}
    (hsame : R.SameVariable ev x x' (req.env.lookup x) (env'.lookup x')) {ty ty' : Ty}
    (hty : R.Placeholders x → ty' = ty) :
    Resembles (s.readVariable ev req x ty) (s.readVariable ev (req.within env') x' ty') := by
  have hmayRead : ∀ found v, (req.within env').mayRead found v = req.mayRead found v := by
    intro found v
    simp only [Request.mayRead, Request.within, hc.inIteratorScope]
  simp only [Steps.readVariable, show (req.within env').env = env' from rfl]
  generalize req.env.lookup x = found at hsame
  generalize env'.lookup x' = found' at hsame
  cases hsame with
  | none => exact .fail rfl
  | value hvalue hvalue' =>
    simp only [hvalue, hvalue']
    exact .refl _
  | declared hname hallowed =>
    subst hname
    rename_i found
    cases hbinding : found.declared.binding with
    | value v =>
      simp only [hbinding]
      exact .refl _
    | unbound =>
      simp only [hbinding]
      exact .of_eq (unbound hbinding hallowed hty).symm
    | expression e v cached =>
      -- the binding is evaluated where the variable is declared, in both runs
      simp only [hbinding, hmayRead]
      exact .refl _

/-- Fields are selected as they are renamed. -/
theorem selectFields {fields : Reference}
    (hfields : ∀ part ∈ fields, ∀ e ∈ part.subscripts.filterMap Subscript.expr?, R.Meets ρ e)
    (v : Value) :
    Resembles (s.selectFields req fields v)
      (s.selectFields (req.within env') (fields.map (RefPart.rename ρ)) v) := by
  induction fields generalizing v with
  | nil => exact .refl _
  | cons part more ih =>
    obtain ⟨hpart, hmore⟩ := List.forall_mem_cons.mp hfields
    simp only [List.map_cons, Steps.selectFields, RefPart.ident_rename, RefPart.subscripts_rename]
    refine (Resembles.refl _).bind fun field => ?_
    exact (h.applySubscripts hc hpart field).bind fun picked => ih hmore picked

/-- The rule for references is as it is for renamed references. -/
theorem reference {parts : Reference} {ty : Ty} (he : R.Meets ρ (.reference parts ty)) :
    Resembles (s.reference ev req parts ty)
      (s.reference ev (req.within env') (Reference.rename ρ parts) (ty.rename ρ)) := by
  obtain ⟨hclear, hplaceholder⟩ := he.suits
  have hpart : ∀ part ∈ parts, ∀ e ∈ part.subscripts.filterMap Subscript.expr?, R.Meets ρ e := by
    intro part hpart e he'
    obtain ⟨subscript, hsubscript, he'⟩ := List.mem_filterMap.mp he'
    have hmem := List.mem_flatMap.mpr ⟨part, hpart, hsubscript⟩
    exact he.children nofun e (List.mem_filterMap.mpr ⟨subscript, hmem, he'⟩)
  have hsplit := req.env.splitReference_append parts
  have hsame := hc.lookup_reference (hclear.splitReference req.env)
  simp only [Steps.reference, show (req.within env').env = env' from rfl,
    hc.splitReference_rename hclear, Reference.subscripts_rename, List.isEmpty_map]
  generalize (req.env.splitReference parts).1 = declared at hsplit hsame
  generalize (req.env.splitReference parts).2 = fields at hsplit
  subst hsplit
  refine (Resembles.refl _).bind fun _ => (readVariable hc hsame fun hx => ?_).bind fun v => ?_
  · cases fields with
    | nil => exact hplaceholder (by rwa [List.append_nil])
    | cons part more => rfl
  · refine (h.applySubscripts hc (fun e he' => ?_) v).bind fun picked => ?_
    · obtain ⟨subscript, hsubscript, he'⟩ := List.mem_filterMap.mp he'
      obtain ⟨part, hmem, hsubscript⟩ := List.mem_flatMap.mp hsubscript
      exact hpart part (List.mem_append_left _ hmem) e
        (List.mem_filterMap.mpr ⟨subscript, hsubscript, he'⟩)
    · exact h.selectFields hc (fun part hmem => hpart part (List.mem_append_right _ hmem)) picked

/-! ## Reductions -/

/-- The rule for reductions is as it is for renamed ones, whose iterators hide the name. -/
theorem reduction {info : ReductionInfo} {body : Expr} {iterators : List Iterator}
    (he : R.Meets ρ (.reduction info body iterators)) :
    Resembles (s.reduction req info body iterators)
      (s.reduction (req.within env') (info.rename ρ)
        (body.rename (ρ.shadow (iterators.map Iterator.name))) (iterators.map (Iterator.rename ρ))) := by
  have hdeclared : ∀ {bound sub}, (bound, sub) ∈ (Expr.reduction info body iterators).positions →
      ∀ x ∈ bound, R.Declared x := fun hmem => he.suits _ hmem
  have hmeets : ∀ {bound sub}, (bound, sub) ∈ (Expr.reduction info body iterators).positions →
      R.Meets (ρ.shadow bound) sub := fun hmem => he.position hmem
  simp only [Expr.mem_positions_reduction] at hdeclared hmeets
  obtain ⟨path, kind, ty, default, valueName, resultName, fold⟩ := info
  refine .reduction (φ := Expr.rename ρ) rfl rfl (.mapM_map fun it hit => ?_)
    (Expr.renameOption_eq ρ default) (fun value hvalue => ?_) (fun values hlength => ?_)
    fun acc next => ?_
  · -- the sequences
    refine .sequence (Iterator.guard_rename ρ it) ?_ fun guard hguard v => .passes ?_
    · have hsource := hmeets (.inl ⟨it, hit, rfl, rfl⟩)
      rw [Renaming.shadow_nil] at hsource
      rw [Iterator.source_rename]
      exact h.eval hc hsource
    · rw [Iterator.name_rename, Iterator.ty_rename]
      exact h.evalInner
        (hc.shadow (Ty.rename ρ) [(it.name, it.ty, v)]
          (hdeclared (.inr (.inl ⟨it, hit, rfl, hguard⟩))))
        (hmeets (.inr (.inl ⟨it, hit, rfl, hguard⟩)))
  · have hdefault := hmeets (.inr (.inr (.inr (.inl ⟨rfl, hvalue⟩))))
    rw [Renaming.shadow_nil] at hdefault
    exact h.eval hc hdefault
  · -- the body
    exact h.eval
      (hc.bindTuple moves_id (Ty.rename ρ) (Iterator.name_rename ρ) (Iterator.ty_rename ρ) hlength
        (hdeclared (.inr (.inr (.inl ⟨rfl, rfl⟩)))))
      (hmeets (.inr (.inr (.inl ⟨rfl, rfl⟩))))
  · -- the fold expression
    cases fold with
    | none => exact .refl _
    | some fold =>
      exact h.evalInner
        (hc.shadow (Ty.rename ρ) [(valueName, ty, next), (resultName, ty, acc)]
          (hdeclared (.inr (.inr (.inr (.inr ⟨rfl, rfl⟩))))))
        (hmeets (.inr (.inr (.inr (.inr ⟨rfl, rfl⟩)))))

/-! ## Built-in functions of expressions -/

section

variable {args : List Expr} (hargs : ∀ e ∈ args, R.Meets ρ e)

include hargs

/-- The rule for divisions with a tested divisor is as it is for renamed arguments. -/
theorem quotient (name : String) {zero : String → String → Cause}
    (hzero : ∀ x y x' y', (zero x y).code = (zero x' y').code)
    (divide : Value → Value → Outcome Value) :
    Resembles (Steps.quotient name zero divide s req args)
      (Steps.quotient name zero divide s (req.within env') (args.map (Expr.rename ρ))) := by
  refine Resembles.bind ?_ fun operands => .refl _
  simp only [Steps.quotientOperands, Builtin.takes, Builtin.takesBetween_rename]
  refine (Resembles.refl _).bind fun _ => ?_
  match args, hargs with
  | [x, y], hargs =>
    refine (h.eval hc (hargs x List.mem_cons_self)).bind fun a => ?_
    refine (h.eval hc (hargs y (List.mem_cons_of_mem x List.mem_cons_self))).bind fun b => ?_
    exact .ite (fun _ => .fail (hzero _ _ _ _)) fun _ => .refl _
  | [], _ => exact .refl _
  | [_], _ => exact .refl _
  | _ :: _ :: _ :: _, _ => exact .refl _

omit h hc in
/-- A function of one expression is as it is for the renamed one if its rule is. -/
theorem onlyArg (name : String) {rule rule' : Expr → EvalM Value}
    (hrule : ∀ e, R.Meets ρ e → Resembles (rule e) (rule' (e.rename ρ))) :
    Resembles (Steps.onlyArg name args rule)
      (Steps.onlyArg name (args.map (Expr.rename ρ)) rule') := by
  simp only [Steps.onlyArg, Builtin.takes, Builtin.takesBetween_rename]
  refine (Resembles.refl _).bind fun _ => ?_
  cases args with
  | nil => exact .refl _
  | cons e more => exact hrule e (hargs e List.mem_cons_self)

/-- The rule for `noEvent` is as it is for renamed arguments. -/
theorem noEvent :
    Resembles (s.noEvent req args) (s.noEvent (req.within env') (args.map (Expr.rename ρ))) :=
  onlyArg hargs "noEvent" fun _ he => h.eval hc he

/-- The rule for `ndims` is as it is for renamed arguments. -/
theorem ndims :
    Resembles (s.ndims req args) (s.ndims (req.within env') (args.map (Expr.rename ρ))) :=
  onlyArg hargs "ndims" fun _ he => h.rank hc he

/-- The rule for `print` is as it is for renamed arguments. -/
theorem print :
    Resembles (s.print req args) (s.print (req.within env') (args.map (Expr.rename ρ))) :=
  onlyArg hargs "print" fun _ he => (h.eval hc he).bind fun _ => .refl _

/-- The rule for `smooth` is as it is for renamed arguments. -/
theorem smooth :
    Resembles (s.smooth req args) (s.smooth (req.within env') (args.map (Expr.rename ρ))) := by
  simp only [Steps.smooth, Builtin.takes, Builtin.takesBetween_rename]
  refine (Resembles.refl _).bind fun _ => ?_
  match args, hargs with
  | _ :: e :: _, hargs => exact h.eval hc (hargs e (List.mem_cons_of_mem _ List.mem_cons_self))
  | [], _ => exact .refl _
  | [_], _ => exact .refl _

/-- The rule for `size` is as it is for renamed arguments. -/
theorem sizeCall :
    Resembles (s.sizeCall req args) (s.sizeCall (req.within env') (args.map (Expr.rename ρ))) := by
  simp only [Steps.sizeCall, Builtin.takesBetween_rename]
  refine (Resembles.refl _).bind fun _ => ?_
  cases args with
  | nil => exact .refl _
  | cons e more =>
    simp only [List.map_cons, List.head?_map]
    exact h.size hc (hargs e List.mem_cons_self) fun d hd =>
      hargs d (List.mem_cons_of_mem e (List.mem_of_mem_head? hd))

/-- A built-in function other than `simplify` is evaluated from the values of its arguments or by one of
these rules. -/
theorem applyRule {name : String} {extended : Bool} {rule : Builtin.Rule} (hname : name ≠ "simplify")
    (hrule : Builtin.rule? name extended = some rule) :
    Resembles (s.applyRule ev req args rule)
      (s.applyRule ev (req.within env') (args.map (Expr.rename ρ)) rule) := by
  cases rule with
  | ofValues f => exact (h.evalAll hc hargs).bind fun values => .refl _
  | ofExprs f =>
    rcases Builtin.rule?_ofExprs hrule with
      rfl | rfl | rfl | ⟨-, rfl⟩ | rfl | rfl | ⟨hsimplify, -⟩ | ⟨-, rfl⟩ | rfl
    · exact h.quotient hc hargs "div" (fun _ _ _ _ => rfl) _
    · exact h.quotient hc hargs "mod" (fun _ _ _ _ => rfl) _
    · exact h.quotient hc hargs "rem" (fun _ _ _ _ => rfl) _
    · exact h.ndims hc hargs
    · exact h.noEvent hc hargs
    · exact h.print hc hargs
    · exact absurd hsimplify hname
    · exact h.sizeCall hc hargs
    · exact h.smooth hc hargs

end

/-! ## Calls -/

/-- The rule for calls is as it is for renamed arguments. -/
theorem call {path : Path} {args : List Expr} {ty : Ty} {builtin impure : Bool}
    (he : R.Meets ρ (.call path args ty builtin impure)) (call call' : Expr) :
    Resembles (s.call ev req call path args builtin impure)
      (s.call ev (req.within env') call' path (args.map (Expr.rename ρ)) builtin impure) := by
  have hargs : ∀ e ∈ args, R.Meets ρ e := he.children nofun
  have hsuits := he.suits
  simp only [Steps.call_eq, Steps.smoothZero?_rename]
  cases hsmooth : Steps.smoothZero? path args builtin with
  | some e =>
    have hmem : e ∈ args := by
      rw [(Steps.smoothZero?_eq_some.mp hsmooth).1]
      exact List.mem_cons_of_mem _ List.mem_cons_self
    exact h.eval hc (hargs e hmem)
  | none =>
    cases builtin with
    | true =>
      simp only [Option.map_none, if_true]
      cases hrule : Builtin.rule? path.last ev.config.flags.metamodelica with
      | none => exact .refl _
      | some rule => exact (Resembles.refl _).bind fun _ => h.applyRule hc hargs hsuits hrule
    | false =>
      obtain rfl : impure = true := hsuits
      exact .refl _

/-! ## Every form of expression -/

/-- Evaluation by the rule for the form of an expression does not depend on the name of the iterator. -/
theorem rule {e : Expr} (he : R.Meets ρ e) :
    Resembles (s.rule ev req e) (s.rule ev (req.within env') (e.rename ρ)) := by
  by_cases hreduction : ∃ info body iterators, e = .reduction info body iterators
  · obtain ⟨info, body, iterators, rfl⟩ := hreduction
    simp only [Expr.rename, Iterator.renameAll_eq]
    exact h.reduction hc he
  have hchildren := he.children fun info body iterators heq =>
    hreduction ⟨info, body, iterators, heq⟩
  -- the first, second and third direct subexpression
  have hfirst : ∀ {part rest}, e.children = part :: rest → R.Meets ρ part := fun hcons =>
    hchildren _ (hcons ▸ List.mem_cons_self)
  have hsecond : ∀ {first part rest}, e.children = first :: part :: rest → R.Meets ρ part :=
    fun hcons => hchildren _ (hcons ▸ List.mem_cons_of_mem _ List.mem_cons_self)
  cases e with
  | integer | real | bool | string | enumeration | absent => exact .refl _
  | code fragment => exact he.suits.elim
  | reference parts ty =>
    rw [Expr.rename_reference]
    exact h.reference hc he
  | reduction info body iterators => exact absurd ⟨info, body, iterators, rfl⟩ hreduction
  | call path args ty builtin impure =>
    simp only [Expr.rename, Expr.renameAll_eq]
    exact h.call hc he _ _
  | array ty _ elements =>
    simp only [Expr.rename, Expr.renameAll_eq]
    exact h.array hc ty hchildren
  | matrix _ rows =>
    simp only [Expr.rename, Expr.renameRows_eq]
    exact h.matrix hc fun row hrow part hpart =>
      hchildren part (List.mem_flatten.mpr ⟨row, hrow, hpart⟩)
  | range ty start step stop =>
    simp only [Expr.rename, Expr.renameOption_eq]
    refine h.range hc ty (hfirst rfl) (fun d hd => hchildren d ?_) (hchildren stop ?_)
    · simp [Expr.children, hd]
    · simp [Expr.children]
  | tuple elements | record _ elements _ | unionRecord _ _ elements _ | list elements =>
    simp only [Expr.rename, Expr.renameAll_eq]
    exact (h.evalAll hc hchildren).bind fun _ => .refl _
  | subscripted operand subscripts =>
    simp only [Expr.rename, Subscript.renameAll_eq]
    refine (h.eval hc (hfirst rfl)).bind fun v => h.applySubscripts hc (fun part hpart => ?_) v
    exact hchildren part (List.mem_cons_of_mem operand hpart)
  | size operand dim =>
    simp only [Expr.rename, Expr.renameOption_eq]
    exact h.size hc (hfirst rfl) fun d hd => hchildren d (by simp [Expr.children, hd])
  | cast ty operand => exact h.cast hc ty (hfirst rfl)
  | binary lhs op rhs => exact h.binary hc (hfirst rfl) (hsecond rfl) op
  | logical lhs op rhs => exact h.logical hc (hfirst rfl) (hsecond rfl) op
  | relation lhs op rhs => exact h.relation hc (hfirst rfl) (hsecond rfl) op
  | cons head tail => exact h.cons hc (hfirst rfl) (hsecond rfl)
  | conditional condition yes no =>
    refine h.conditional hc (hfirst rfl) (hsecond rfl) (hchildren no ?_)
    simp [Expr.children]
  | unary | logicalNot | component | field | present | boxed | unbox =>
    exact (h.eval hc (hfirst rfl)).bind fun _ => .refl _

end Respects

/-- With any number of levels left. -/
theorem respects_steps (R : Relabelling) (ev : Evaluator) (n : Nat) : R.Respects ev (ev.steps n) := by
  induction n with
  | zero => exact fun _ _ _ _ => .refl _
  | succ n ih =>
    intro ρ req env' hc k e he
    cases k with
    | zero => exact (Resembles.refl _).bind fun _ => ih.rule hc he
    | succ k => exact ih hc k he

end Relabelling

end ModelicaFold
