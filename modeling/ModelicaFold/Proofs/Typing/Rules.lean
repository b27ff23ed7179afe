import ModelicaFold.Proofs.Memory.Contexts
import ModelicaFold.Proofs.Reductions.Collecting
import ModelicaFold.Proofs.Runs.Alternatives
import ModelicaFold.Proofs.Runs.Outcome
import ModelicaFold.Proofs.Typing.Judgement

/-!
# The rules on typed expressions

Steps are sound if evaluation by them of any typed expression does not fail internally and gives a
value of the type. If the steps one level down are sound, so is every rule; there is one lemma for
each rule, in the order of the modules that define them. Remembered values keep their types, since a
value is remembered under the key of the binding that it is the value of.
-/

namespace ModelicaFold

open EvalM (safe_pure safe_fail safe_throw safe_ofOutcome)
open Value (Fits)

variable {τ : KeyTypes} {start : Env}

/-- Evaluation of typed expressions does not fail internally, and gives values of their types. -/
def Steps.Sound (τ : KeyTypes) (start : Env) (s : Steps) : Prop :=
  ∀ k (req : Request) e d t, start.Extends req.env → HasType τ req.env e d t →
    (s.evalAfter k req e).Safe (Context.WellTyped τ) (Fits d t)

/-- A context stays well typed when it remembers a value of the type of its key. -/
theorem Context.WellTyped.remember {ctx : Context} (hctx : ctx.WellTyped τ) {key : String}
    {v : Value} (hv : ∀ d t, τ key = some (d, t) → v.Fits d t) :
    (ctx.remember key v).WellTyped τ := by
  intro key' w d t hw hkey
  by_cases heq : key' = key
  · subst heq
    cases hknown : ctx.constant? key' with
    | some known =>
      rw [constant?_remember_of_some hknown] at hw
      exact hctx (hknown.trans hw) hkey
    | none =>
      rw [constant?_remember_self fun w h => by rw [hknown] at h; cases h] at hw
      cases hw
      exact hv d t hkey
  · rw [constant?_remember_of_ne heq] at hw
    exact hctx hw hkey

namespace Steps

section

variable {s : Steps} (hs : s.Sound τ start) {req : Request} (henv : start.Extends req.env)
  {d c c' : Bool} {t t' : ValueType}

include hs henv

/-! ## Subexpressions -/

/-- An operand with a type is safe to evaluate and gives a value of the type. -/
theorem safe_eval {e : Expr} (he : HasType τ req.env e d t) :
    (s.eval req e).Safe (Context.WellTyped τ) (Fits d t) :=
  hs 0 req e d t henv he

/-- An expression with a type is safe to evaluate one level down. -/
theorem safe_evalInner {e : Expr} (he : HasType τ req.env e d t) :
    (s.evalInner req e).Safe (Context.WellTyped τ) (Fits d t) :=
  hs 1 req e d t henv he

/-- Expressions of one type are safe to evaluate and give values of it. -/
theorem safe_evalAll {es : List Expr} (hes : ∀ e ∈ es, HasType τ req.env e d t) :
    (s.evalAll req es).Safe (Context.WellTyped τ) fun vs => ∀ v ∈ vs, v.Fits d t :=
  .mapM_all fun e he => safe_eval hs henv (hes e he)

/-- Expressions each of a type of its own. -/
theorem safe_evalEach {es : List Expr} {ts : List ValueType} (hlength : es.length = ts.length)
    (hes : ∀ p ∈ es.zip ts, HasType τ req.env p.1 d p.2) :
    (s.evalAll req es).Safe (Context.WellTyped τ) (List.Forall₂ (Fits d) ts) := by
  induction es generalizing ts with
  | nil =>
    obtain rfl := List.length_eq_zero_iff.mp hlength.symm
    exact safe_pure .nil
  | cons e es ih =>
    cases ts with
    | nil => cases hlength
    | cons t ts =>
      obtain ⟨he, hes⟩ := List.forall_mem_cons.mp hes
      have hothers := ih (Nat.succ.inj hlength) hes
      simp only [evalAll, List.mapM_cons]
      refine (safe_eval hs henv he).bind fun v hv => hothers.bind fun vs hvs => ?_
      exact safe_pure (.cons hv hvs)

/-! ## Subscripts -/

omit hs henv in
/-- What follows at the element that a subscript picks. -/
theorem safe_selectAt {v i : Value} {kind : ScalarKind} {P : Value → Prop}
    (hkind : kind.IsPosition) (hi : i.Fits c (.scalar kind)) (hv : v.Fits d (.array t))
    {k : Value → EvalM Value}
    (hk : ∀ n w, v.select n = .ok w → w.Fits d t → (k w).Safe (Context.WellTyped τ) P) :
    EvalM.Safe (Context.WellTyped τ) P (do
      let element ← v.select (← i.position)
      k element) := by
  have hposition := safe_ofOutcome (I := Context.WellTyped τ) (Value.safe_position hkind hi)
  refine hposition.bind fun n _ => ?_
  have helement : Outcome.Safe (fun w => v.select n = .ok w ∧ w.Fits d t) (v.select n) := by
    have hselect := Value.safe_select hv n
    generalize v.select n = outcome at hselect ⊢
    cases hselect with
    | ok h => exact .ok ⟨rfl, h⟩
    | error h => exact .error h
  exact (safe_ofOutcome helement).bind fun w hw => hk n w hw.1 hw.2

omit hs henv in
/-- The first size is read without failing, whether there is one or not. -/
theorem safe_firstSize (dims : List Nat) :
    (firstSize dims).Safe (Context.WellTyped τ) fun _ => True := by
  cases dims with
  | nil => exact (EvalM.safe_modifyLog _).bind fun _ _ => safe_pure trivial
  | cons n inner => exact safe_pure trivial

/-- From a placeholder subscripts pick nothing: they fail, are all `:`, or slice at no index. -/
theorem safe_applySubscripts_empty {subscripts : List Subscript}
    (hsubscripts : SubscriptsPick τ req.env subscripts t t') (scope name : String) (ty : Ty) :
    (s.applySubscripts req subscripts (.empty scope name ty)).Safe (Context.WellTyped τ)
      fun w => ∀ t, w.Fits true (.array t) := by
  induction subscripts generalizing t t' with
  | nil => exact safe_pure fun t => .empty rfl _ _ _ _
  | cons subscript rest ih =>
    cases hsubscripts with
    | @index _ _ _ t _ _ _ hkind he hmore =>
      simp only [applySubscripts]
      refine (safe_eval hs henv he).bind fun i hi => ?_
      exact safe_selectAt hkind hi (.empty rfl (.array t) _ _ _) fun n w hw _ => by cases hw
    | @slice _ _ _ _ t _ _ _ hkind he hmore =>
      simp only [applySubscripts]
      refine (safe_eval hs henv he).bind fun indices hindices => ?_
      refine EvalM.Safe.bind (.mapM_all (R := fun _ => False) fun i hi => ?_) fun picked hpicked =>
        safe_pure fun t => Value.fits_arrayOf fun v hv => (hpicked v hv).elim
      have hi := hindices.leaves i hi
      exact safe_selectAt hkind hi (.empty rfl (.array t) _ _ _) fun n w hw _ => by cases hw
    | whole hmore =>
      simp only [applySubscripts]
      exact .ite (fun _ => safe_pure fun t => .empty rfl _ _ _ _) fun _ => ih hmore

/-- Subscripts that fit a type are safe to apply to its values. -/
theorem safe_applySubscripts {subscripts : List Subscript}
    (hsubscripts : SubscriptsPick τ req.env subscripts t t') {v : Value} (hv : v.Fits d t) :
    (s.applySubscripts req subscripts v).Safe (Context.WellTyped τ) (Fits d t') := by
  induction subscripts generalizing v t t' with
  | nil =>
    cases hsubscripts
    exact safe_pure hv
  | cons subscript rest ih =>
    cases hsubscripts with
    | index hkind he hmore =>
      simp only [applySubscripts]
      refine (safe_eval hs henv he).bind fun i hi => ?_
      exact safe_selectAt hkind hi hv fun n w _ hw => ih hmore hw
    | slice hkind he hmore =>
      simp only [applySubscripts]
      refine (safe_eval hs henv he).bind fun indices hindices => ?_
      refine EvalM.Safe.bind (.mapM_all fun i hi => ?_) fun picked hpicked =>
        safe_pure (Value.fits_arrayOf hpicked)
      exact safe_selectAt hkind (hindices.leaves i hi) hv fun n w _ hw => ih hmore hw
    | whole hmore =>
      simp only [applySubscripts]
      refine .ite (fun hnil => ?_) fun _ => ?_
      · obtain rfl := List.isEmpty_iff.mp hnil
        cases hmore
        exact safe_pure hv
      · cases hv with
        | empty h =>
          subst h
          exact (safe_applySubscripts_empty hs henv hmore _ _ _).mono fun w hw => hw _
        | array h =>
          refine .ite (fun _ => ?_) fun _ => ?_
          · exact (safe_firstSize _).bind fun n _ =>
              safe_pure (.array fun v hv => absurd hv List.not_mem_nil)
          refine EvalM.Safe.bind (.mapM_all fun element helement => ih hmore (h element helement))
            fun picked hpicked => safe_pure (Value.fits_arrayOf hpicked)

/-! ## Sizes -/

/-- A declared dimension with a type is safe to evaluate. -/
theorem safe_dimension {dim : Dimension}
    (hdim : ∀ e, dim = .computed e → HasType τ req.env e d t) :
    (s.dimension req dim).Safe (Context.WellTyped τ) fun _ => True := by
  cases dim with
  | computed e =>
    refine (safe_evalInner hs henv (hdim e rfl)).attempt.bind fun outcome houtcome => ?_
    cases houtcome with
    | error h => exact .ite (fun _ => safe_throw h) fun _ => safe_fail rfl
    | @ok v h =>
      cases v with
      | integer n => exact .ite (fun _ => safe_fail rfl) fun _ => safe_pure trivial
      | _ => exact safe_fail rfl
  | unknown => exact safe_fail rfl
  | _ => exact safe_pure trivial

/-- The sizes of an expression with a type are safe to find. -/
theorem safe_sizes {operand : Expr}
    (hdims : ∀ e, .computed e ∈ announced operand → HasType τ req.env e c (.scalar .integer))
    (h : HasType τ req.env operand d t) :
    (s.sizes req operand).Safe (Context.WellTyped τ) fun _ => True := by
  have heval := safe_eval hs henv h
  have hannounced : ∀ dim ∈ announced operand,
      (s.dimension req dim).Safe (Context.WellTyped τ) fun _ => True := by
    intro dim hmem
    exact safe_dimension hs henv fun e heq => hdims e (heq ▸ hmem)
  unfold sizes
  generalize announced operand = dims at hannounced ⊢
  cases dims with
  | nil => exact heval.bind fun v _ => safe_pure trivial
  | cons dim more =>
    refine (EvalM.Safe.mapM_all hannounced).attempt.bind fun outcome houtcome => ?_
    cases houtcome with
    | ok _ => exact safe_pure trivial
    | error hf =>
      refine .ite (fun _ => safe_throw hf) fun _ => heval.attempt.bind fun outcome houtcome => ?_
      cases houtcome with
      | error hf => exact .ite (fun _ => safe_throw hf) fun _ => safe_fail rfl
      | @ok v _ =>
        cases v with
        | array elements dims => exact safe_pure trivial
        | _ => exact safe_fail rfl

omit hs henv in
/-- A size is an Integer or an overflow. -/
theorem safe_sizeValue (n : Nat) : (sizeValue n).Safe (Fits d (.scalar .integer)) :=
  (safe_inRange "size" n).mono fun _ h => h.solid

/-- All sizes of an expression with a type make an array of Integers. -/
theorem safe_allSizes {operand : Expr}
    (hdims : ∀ e, .computed e ∈ announced operand → HasType τ req.env e c (.scalar .integer))
    (h : HasType τ req.env operand c' t) :
    (s.size req operand none).Safe (Context.WellTyped τ) (Fits d (.array (.scalar .integer))) := by
  refine (safe_sizes hs henv hdims h).bind fun dims _ => ?_
  have hvalues := Outcome.Safe.mapM fun n (_ : n ∈ dims) => safe_sizeValue (d := d) n
  exact (safe_ofOutcome hvalues).bind fun values hvalues => safe_pure (Value.fits_arrayOf hvalues)

/-- One size of an expression with a type is an Integer. -/
theorem safe_size {b : Bool} {operand dim : Expr}
    (hdims : ∀ e, .computed e ∈ announced operand → HasType τ req.env e c (.scalar .integer))
    (h : HasType τ req.env operand c' t) (hdim : HasType τ req.env dim b (.scalar .integer)) :
    (s.size req operand (some dim)).Safe (Context.WellTyped τ) (Fits d (.scalar .integer)) := by
  refine (safe_sizes hs henv hdims h).bind fun dims _ => ?_
  refine (safe_eval hs henv hdim).bind fun v hv => ?_
  cases hv with
  | empty _ => exact safe_fail rfl
  | integer k =>
    simp only
    cases nth? dims k with
    | none => exact safe_fail rfl
    | some n => exact safe_ofOutcome (safe_sizeValue n)

/-! ## Constructors and operators -/

omit hs henv in
/-- Values of one type make an array of the type. -/
theorem fits_arrayOfType (ty : Ty) {values : List Value} (h : ∀ v ∈ values, v.Fits d t) :
    (arrayOfType ty values).Fits d (.array t) := by
  unfold arrayOfType
  split
  · exact .array fun v hv => absurd hv List.not_mem_nil
  · exact Value.fits_arrayOf h

/-- An array constructor is safe and gives an array of the type of its elements. -/
theorem safe_array (ty : Ty) {es : List Expr} (h : ∀ e ∈ es, HasType τ req.env e d t) :
    (s.array req ty es).Safe (Context.WellTyped τ) (Fits d (.array t)) :=
  (safe_evalAll hs henv h).bind fun _ hvalues => safe_pure (fits_arrayOfType ty hvalues)

omit hs henv in
/-- Scalars side by side are one row. -/
theorem safe_rowBlock {kind : ScalarKind} {values : List Value}
    (h : ∀ v ∈ values, v.Fits d (.scalar kind)) :
    (rowBlock values).Safe (Fits d (.arrays 2 (.scalar kind))) := by
  have hscalars : (values.all fun v => !v.isArray) = true := by
    rw [List.all_eq_true]
    intro v hv
    rw [(h v hv).isArray_eq_false]
    rfl
  rw [rowBlock, if_pos hscalars]
  refine .ok (Value.fits_arrayOf fun v hv => ?_)
  rw [List.mem_singleton.mp hv]
  exact Value.fits_arrayOf h

omit hs henv in
/-- Arrays one below the other. -/
theorem safe_stack {parts : List Value} (h : ∀ v ∈ parts, v.Fits d (.array t)) :
    (Value.concat 1 parts).Safe (Fits d (.array t)) := by
  have hjoinable : (Value.joinable 1 parts).Safe fun _ => True := by
    unfold Value.joinable
    split
    · exact Outcome.safe_fail rfl
    · refine .ite (fun _ => Outcome.safe_fail rfl) fun _ => ?_
      split
      · exact Outcome.safe_fail rfl
      · exact .ok trivial
  refine hjoinable.bind fun first _ => .ok (.array fun v hv => ?_)
  obtain ⟨part, hpart, hv⟩ := List.mem_flatMap.mp hv
  cases h part hpart with
  | empty _ => cases hv
  | array h => exact h v hv

/-- A matrix constructor of scalars is safe and gives a matrix of their type. -/
theorem safe_matrix {kind : ScalarKind} {rows : List (List Expr)}
    (h : ∀ row ∈ rows, ∀ e ∈ row, HasType τ req.env e d (.scalar kind)) :
    (s.matrix req rows).Safe (Context.WellTyped τ) (Fits d (.arrays 2 (.scalar kind))) := by
  refine EvalM.Safe.bind (.mapM_all fun row hrow => ?_) fun blocks hblocks =>
    .ite (fun _ => safe_pure (.array fun v hv => absurd hv List.not_mem_nil)) fun _ =>
      safe_ofOutcome (safe_stack hblocks)
  have hvalues := safe_evalAll hs henv fun e he => h row hrow e he
  exact hvalues.bind fun values hvalues => safe_ofOutcome (safe_rowBlock hvalues)

/-- A range is safe and gives an array of the type of its bounds. -/
theorem safe_range {kind : ScalarKind} {start stop : Expr} {step : Option Expr} (ty : Ty)
    (hkind : kind.HasRange step.isSome) (hstart : HasType τ req.env start false (.scalar kind))
    (hstep : ∀ e ∈ step, HasType τ req.env e c (.scalar kind))
    (hstop : HasType τ req.env stop false (.scalar kind)) :
    (s.range req ty start step stop).Safe (Context.WellTyped τ)
      (Fits d (.array (.scalar kind))) := by
  have hsteps : (step.mapM (s.eval req)).Safe (Context.WellTyped τ) fun value =>
      value.isSome = step.isSome ∧ ∀ v ∈ value, v.Fits c (.scalar kind) := by
    cases step with
    | none => exact safe_pure ⟨rfl, fun v hv => by cases hv⟩
    | some e =>
      refine (safe_eval hs henv (hstep e rfl)).bind fun v hv => safe_pure ⟨rfl, fun w hw => ?_⟩
      cases hw
      exact hv
  refine (safe_eval hs henv hstart).bind fun a ha => hsteps.bind fun value hvalue => ?_
  refine (safe_eval hs henv hstop).bind fun b hb => ?_
  have helements := Value.safe_rangeElements ty.elementType (hvalue.1 ▸ hkind) ha hvalue.2 hb
  refine (safe_ofOutcome helements).bind fun elements helements => safe_pure (.array fun v hv => ?_)
  exact (helements v hv).solid

/-- A binary operator is safe if it is on values of the types of its operands. -/
theorem safe_binary {lhs rhs : Expr} {op : BinaryOp} {t₁ t₂ : ValueType}
    (hlhs : HasType τ req.env lhs c t₁) (hrhs : HasType τ req.env rhs c' t₂)
    (hop : ∀ a b : Value, a.Fits c t₁ → b.Fits c' t₂ → (Value.binary op a b).Safe (Fits false t)) :
    (s.binary req lhs op rhs).Safe (Context.WellTyped τ) (Fits d t) := by
  refine (safe_eval hs henv hlhs).bind fun a ha => (safe_eval hs henv hrhs).bind fun b hb => ?_
  refine .ite (fun _ => safe_fail rfl) fun _ => ?_
  exact safe_ofOutcome ((hop a b ha hb).mono fun v hv => hv.solid)

/-- A conjunction or disjunction of Booleans is safe and gives Booleans. -/
theorem safe_logical {lhs rhs : Expr} (op : LogicalOp) {n : Nat}
    (hlhs : HasType τ req.env lhs c (.arrays n (.scalar .boolean)))
    (hrhs : HasType τ req.env rhs c' (.arrays n (.scalar .boolean))) :
    (s.logical req lhs op rhs).Safe (Context.WellTyped τ)
      (Fits d (.arrays n (.scalar .boolean))) := by
  rw [logical_eq]
  refine (safe_eval hs henv hlhs).bind fun a ha => ?_
  cases hdecided : Value.decided? op a with
  | some v => exact safe_pure (Value.fits_decided? ha hdecided).solid
  | none =>
    refine (safe_eval hs henv hrhs).bind fun b hb => ?_
    exact safe_ofOutcome ((Value.safe_logical op ha hb).mono fun v hv => hv.solid)

/-- A relation is safe and gives a Boolean. -/
theorem safe_relation {lhs rhs : Expr} (op : RelationOp) {t₁ t₂ : ValueType}
    (hlhs : HasType τ req.env lhs c t₁) (hrhs : HasType τ req.env rhs c' t₂) :
    (s.relation req lhs op rhs).Safe (Context.WellTyped τ) (Fits d (.scalar .boolean)) := by
  refine (safe_eval hs henv hlhs).bind fun a _ => (safe_eval hs henv hrhs).bind fun b _ => ?_
  cases Value.relate? a op b with
  | none => exact safe_fail rfl
  | some holds => exact safe_pure (.bool holds)

/-- A conditional is safe and gives a value of the type of its branches. -/
theorem safe_conditional {condition yes no : Expr}
    (hcondition : HasType τ req.env condition c (.scalar .boolean))
    (hyes : HasType τ req.env yes d t) (hno : HasType τ req.env no d t) :
    (s.conditional req condition yes no).Safe (Context.WellTyped τ) (Fits d t) := by
  refine (safe_eval hs henv hcondition).bind fun v hv => ?_
  cases hv with
  | empty _ => exact safe_fail rfl
  | bool b =>
    cases b with
    | true => exact safe_eval hs henv hyes
    | false => exact safe_eval hs henv hno

/-- A cast of scalars is safe and gives scalars of the new kind. -/
theorem safe_cast {ty : Ty} {operand : Expr} {kind kind' : ScalarKind} {n : Nat}
    (hkind : ty.castKind? = some kind')
    (h : HasType τ req.env operand c (.arrays n (.scalar kind))) :
    (s.cast req ty operand).Safe (Context.WellTyped τ) (Fits d (.arrays n (.scalar kind'))) := by
  obtain ⟨convert, hconvert, hleaves⟩ := Value.mapsLeaves_castLeaf hkind
  simp only [cast_eq, hconvert]
  refine (safe_eval hs henv h).bind fun v hv => ?_
  exact safe_ofOutcome ((Value.safe_mapLeaves hleaves hv).mono fun w hw => hw.solid)

/-- A cast to a type without a conversion is safe and keeps the type. -/
theorem safe_castOther {ty : Ty} {operand : Expr} (hkind : ty.castKind? = none)
    (h : HasType τ req.env operand d t) :
    (s.cast req ty operand).Safe (Context.WellTyped τ) (Fits d t) := by
  simp only [cast_eq, Value.castLeaf?_eq_none hkind]
  exact safe_eval hs henv h

/-! ## Tuples, lists and boxes -/

/-- A component of a tuple is safe to take and has the type at its position. -/
theorem safe_component {ts : List ValueType} {operand : Expr} {index : Nat}
    (hindex : nth? ts index = some t) (h : HasType τ req.env operand d (.tuple ts)) :
    (s.component req operand index).Safe (Context.WellTyped τ) (Fits d t) := by
  obtain ⟨hpos, hget⟩ := nth?_eq_some_iff.mp hindex
  refine (safe_eval hs henv h).bind fun v hv => ?_
  cases hv with
  | empty _ => exact safe_fail rfl
  | @tuple _ elements helements =>
    obtain ⟨w, hw, hfits⟩ := Value.fits_getElem? helements hget
    have hfound : nth? elements index = some w := nth?_eq_some_iff.mpr ⟨hpos, hw⟩
    simp only [hfound]
    exact safe_pure hfits

/-- Putting an element before a list of its type is safe. -/
theorem safe_cons {head tail : Expr} (hhead : HasType τ req.env head d t)
    (htail : HasType τ req.env tail d (.list t)) :
    (s.cons req head tail).Safe (Context.WellTyped τ) (Fits d (.list t)) := by
  refine (safe_eval hs henv hhead).bind fun v hv => (safe_eval hs henv htail).bind fun w hw => ?_
  cases hw with
  | empty _ => exact safe_fail rfl
  | list h =>
    refine safe_pure (.list fun u hu => ?_)
    rw [Array.toList_append] at hu
    rcases List.mem_cons.mp hu with rfl | hu
    · exact hv
    · exact h u hu

/-- Unboxing is safe and gives a value of the type inside. -/
theorem safe_unbox {operand : Expr} (h : HasType τ req.env operand d (.boxed t)) :
    (s.unbox req operand).Safe (Context.WellTyped τ) (Fits d t) := by
  refine (safe_eval hs henv h).bind fun v hv => ?_
  cases hv with
  | empty _ => exact safe_fail rfl
  | boxed hcontent => exact safe_pure hcontent

/-! ## References -/

omit henv in
/-- The defaults of record fields are safe to evaluate and give values of the field types. -/
theorem safe_defaults {env : Env} (hextends : start.Extends env) (scope : String)
    {fields : List FieldDecl} {ts : List ValueType} (bindings : List (String × Ty × Value))
    (h : DefaultsHaveTypes τ (env.bindValues scope .classScope bindings) fields d ts) :
    (s.defaults req (env.bindValues scope .classScope bindings) fields).Safe (Context.WellTyped τ)
      (List.Forall₂ (Fits d) ts) := by
  induction fields generalizing bindings ts with
  | nil =>
    cases h
    exact safe_pure .nil
  | cons field more ih =>
    cases h with
    | cons hdefault he hmore =>
      simp only [defaults, hdefault]
      have hscope : start.Extends (req.within (env.bindValues scope .classScope bindings)).env :=
        hextends.bindValues scope .classScope bindings
      refine (safe_evalInner hs hscope he).bind fun v hv => ?_
      have hmore := hmore v hv
      rw [Env.define_bindValues] at hmore ⊢
      exact (ih _ hmore).bind fun vs hvs => safe_pure (.cons hv hvs)

/-- A record made of defaults is safe to make. -/
theorem safe_defaultRecord {r : RecordClass} {ts : List ValueType}
    (h : DefaultsHaveTypes τ (req.env.push r.path.text .classScope) r.fields d ts) :
    (s.defaultRecord req r).Safe (Context.WellTyped τ)
      (Fits d (.record (r.fields.map (·.name)) ts)) :=
  (safe_defaults hs henv r.path.text [] h).bind fun _ hfields => safe_pure (.record hfields)

/-- A binding gives a value of the type of its key, whether it is remembered or evaluated. -/
theorem safe_force (hstart : start.WellTyped τ) {name : String} {found : Found} {e : Expr}
    {variability : Variability} {cached : Option Value} (hfound : req.env.lookup name = some found)
    (hbinding : found.declared.binding = .expression e variability cached)
    (hkey : τ (Context.key found.scope name) = some (d, t)) :
    (s.force req found name e).Safe (Context.WellTyped τ) (Fits d t) := by
  have hextends := henv.found hfound hbinding
  obtain ⟨hframes, hlookup, hscope, -⟩ := henv.lookup hfound fun v hv => by
    rw [hbinding] at hv
    cases hv
  have htyped := (hstart hframes hlookup hbinding (by rw [Env.key, ← hscope]; exact hkey)).1
  have heval : (s.eval (req.within found.env) e).Safe (Context.WellTyped τ) (Fits d t) :=
    safe_eval hs hextends htyped
  cases hiterator : found.isIterator with
  | true =>
    rw [force_iterator hiterator]
    exact .ite (fun _ => safe_fail rfl) fun _ => heval
  | false =>
    intro ctx log hctx
    cases hknown : ctx.constant? (Context.key found.scope name) with
    | some v =>
      rw [force_known hiterator hknown]
      exact .ok ⟨hctx hknown hkey, hctx⟩
    | none =>
      cases hrefers : e.refersTo name with
      | true =>
        rw [force_self hiterator hknown hrefers]
        exact .error rfl
      | false =>
        have hrun := heval ctx log hctx
        cases hvalue : (s.eval (req.within found.env) e ctx log).1 with
        | error f =>
          rw [force_of_error hiterator hknown hrefers hvalue]
          rw [hvalue] at hrun
          cases hrun with
          | error h => exact .error h
        | ok done =>
          rw [force_of_ok hiterator hknown hrefers hvalue]
          rw [hvalue] at hrun
          cases hrun with
          | ok h =>
            refine .ok ⟨h.1, h.2.remember fun d' t' hkey' => ?_⟩
            rw [hkey] at hkey'
            cases hkey'
            exact h.1

/-- A variable with a type is safe to read. -/
theorem safe_readVariable (ev : Evaluator) (hstart : start.WellTyped τ) {name : String} (ty : Ty)
    (h : VariableHasType τ req.env name d t) :
    (s.readVariable ev req name ty).Safe (Context.WellTyped τ) (Fits d t) := by
  cases h with
  | undeclared hnone =>
    simp only [readVariable, hnone]
    exact safe_fail rfl
  | value hfound hbinding hv =>
    simp only [readVariable, hfound, hbinding]
    exact safe_pure hv
  | unbound hfound hbinding hclass =>
    simp only [readVariable, hfound, hbinding, unbound, hclass]
    refine .ite (fun _ => safe_fail rfl) fun _ => ?_
    refine .ite (fun _ => safe_pure (.empty rfl _ _ _ _)) fun _ => ?_
    exact .ite (fun _ => safe_fail rfl) fun _ => safe_fail rfl
  | defaults hfound hbinding hclass hdefaults =>
    simp only [readVariable, hfound, hbinding, unbound, hclass]
    exact .ite (fun _ => safe_fail rfl) fun _ => safe_defaultRecord hs henv hdefaults
  | @expression _ _ _ _ _ _ _ _ cached hfound hbinding hkey hd =>
    simp only [readVariable, hfound, hbinding]
    refine .ite (fun _ => safe_fail rfl) fun _ => ?_
    cases cached with
    | none =>
      exact (safe_force hs henv hstart hfound hbinding hkey).mono fun v hv => hv.weaken hd
    | some v =>
      obtain ⟨hframes, hlookup, hscope, -⟩ := henv.lookup hfound fun v hv => by
        rw [hbinding] at hv
        cases hv
      have hknown := (hstart hframes hlookup hbinding (by rw [Env.key, ← hscope]; exact hkey)).2
      exact safe_pure ((hknown v rfl).weaken hd)

/-- Fields with subscripts that fit a type are safe to select. -/
theorem safe_selectFields {fields : Reference} (hfields : FieldsSelect τ req.env fields t t')
    {v : Value} (hv : v.Fits d t) :
    (s.selectFields req fields v).Safe (Context.WellTyped τ) (Fits d t') := by
  induction fields generalizing v t with
  | nil =>
    cases hfields
    exact safe_pure hv
  | cons part more ih =>
    cases hfields with
    | cons hname ht hsubscripts hmore =>
      simp only [selectFields]
      refine (safe_ofOutcome (Value.safe_project hname ht hv)).bind fun field hfield => ?_
      refine (safe_applySubscripts hs henv hsubscripts hfield).bind fun picked hpicked => ?_
      exact ih hmore hpicked

/-- A reference with a type is safe to evaluate. -/
theorem safe_reference (ev : Evaluator) (hstart : start.WellTyped τ) {parts : Reference} (ty : Ty)
    {t₁ t₂ : ValueType}
    (hvariable : VariableHasType τ req.env (Reference.name (req.env.splitReference parts).1) d t₁)
    (hsubscripts :
      SubscriptsPick τ req.env (Reference.subscripts (req.env.splitReference parts).1) t₁ t₂)
    (hfields : FieldsSelect τ req.env (req.env.splitReference parts).2 t₂ t) :
    (s.reference ev req parts ty).Safe (Context.WellTyped τ) (Fits d t) := by
  refine (EvalM.safe_count _).bind fun _ _ => ?_
  refine (safe_readVariable hs henv ev hstart _ hvariable).bind fun v hv => ?_
  refine (safe_applySubscripts hs henv hsubscripts hv).bind fun picked hpicked => ?_
  exact safe_selectFields hs henv hfields hpicked

end

end Steps

end ModelicaFold
