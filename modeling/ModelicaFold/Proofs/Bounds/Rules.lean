import ModelicaFold.Proofs.Bounds.Concurrence
import ModelicaFold.Proofs.Bounds.Evaluation
import ModelicaFold.Proofs.Bounds.Functions
import ModelicaFold.Proofs.Runs.Alternatives
import ModelicaFold.Proofs.Typing.Reductions

/-!
# The rules on ranked values

Steps concur if evaluation by them does in every ranked environment. If the steps one level down
concur, so do the rule with direct accesses and the rule without; there is one lemma for each rule,
in the order of the modules that define them. All values that evaluation meets are then ranked, and
in particular the arrays that `:` is applied to.
-/

namespace ModelicaFold

open EvalM (Concurs concurs_pure concurs_map concurs_fail concurs_throw concurs_ofOutcome
  concurs_ofAccess concurs_count concurs_getContext concurs_modifyContext)
open Value (Ranked)

/-- Evaluation and splicing by two kinds of steps do the same in ranked environments. -/
structure Steps.Concur (s s' : Steps) : Prop where
  evalAfter : ∀ k (req : Request) e, req.env.Ranked →
    (s.evalAfter k req e).Concurs Ranked (s'.evalAfter k req e)
  splice : ∀ (req : Request) code, req.env.Ranked →
    (s.splice req code).Concurs (fun _ => True) (s'.splice req code)

namespace Steps.Concur

variable {s s' : Steps} (h : s.Concur s') {req : Request} (henv : req.env.Ranked)

include h henv

/-! ## Subexpressions -/

/-- Evaluation of an operand concurs. -/
theorem eval (e : Expr) : (s.eval req e).Concurs Ranked (s'.eval req e) := h.evalAfter 0 req e henv

/-- Evaluation one level down concurs. -/
theorem evalInner (e : Expr) : (s.evalInner req e).Concurs Ranked (s'.evalInner req e) :=
  h.evalAfter 1 req e henv

/-- Evaluating a list of expressions concurs. -/
theorem evalAll (es : List Expr) :
    (s.evalAll req es).Concurs (fun vs => ∀ v ∈ vs, v.Ranked) (s'.evalAll req es) :=
  .mapM fun e _ => h.eval henv e

/-! ## Subscripts -/

omit h henv in
/-- What follows at the element that a subscript picks. -/
theorem selectAt {v i : Value} (hv : v.Ranked) {k l : Value → EvalM Value} {P : Value → Prop}
    (hk : ∀ w, w.Ranked → (k w).Concurs P (l w)) :
    EvalM.Concurs P (do let element ← v.select (← i.position); k element)
      (do let element ← v.select (← i.position); l element) := by
  have hposition := concurs_ofOutcome (Outcome.ensures_true i.position)
  exact hposition.bind fun n _ => (concurs_ofOutcome (hv.select n)).bind hk

/-- An array that is ranked has a first size. -/
theorem applySubscripts (fault : Fault) (subscripts : List Subscript) {v : Value}
    (hv : v.Ranked) :
    (Direct.applySubscripts fault s req subscripts v).Concurs Ranked
      (s'.applySubscripts req subscripts v) := by
  induction subscripts generalizing v with
  | nil => exact concurs_pure hv
  | cons subscript rest ih =>
    cases subscript with
    | index e =>
      simp only [Direct.applySubscripts, Steps.applySubscripts]
      exact (h.eval henv e).bind fun i _ => selectAt hv fun w hw => ih hw
    | slice e =>
      simp only [Direct.applySubscripts, Steps.applySubscripts]
      refine (h.eval henv e).bind fun indices _ => ?_
      exact concurs_map (.mapM fun i _ => selectAt hv fun w hw => ih hw)
        fun _ => Value.ranked_arrayOf
    | whole =>
      simp only [Direct.applySubscripts, Steps.applySubscripts]
      refine .ite (fun _ => concurs_pure hv) fun _ => ?_
      cases v with
      | array elements dims =>
        obtain ⟨hdims, helements⟩ := Value.ranked_array.mp hv
        refine .ite (fun _ => ?_) fun _ => ?_
        · cases dims with
          | nil => exact absurd rfl hdims
          | cons n inner =>
            refine .read (Access.inBounds_item rfl) (concurs_pure ?_)
            exact Value.ranked_empty (List.cons_ne_nil _ _)
        · exact concurs_map (.mapM fun element helement => ih (helements element helement))
            fun _ => Value.ranked_arrayOf
      | _ => exact ih hv

/-! ## Sizes -/

/-- The rule for a declared dimension concurs. -/
theorem dimension (dim : Dimension) :
    (s.dimension req dim).Concurs (fun _ => True) (s'.dimension req dim) := by
  cases dim with
  | computed e =>
    refine (h.evalInner henv e).attempt.bind fun outcome _ => ?_
    cases outcome with
    | error f => exact .ite (fun _ => concurs_throw f) fun _ => concurs_fail _
    | ok v =>
      cases v with
      | integer n => exact .ite (fun _ => concurs_fail _) fun _ => concurs_pure trivial
      | _ => exact concurs_fail _
  | unknown => exact concurs_fail _
  | _ => exact concurs_pure trivial

/-- The sizes of a value concur. -/
theorem evaluatedSizes (e : Expr) :
    (s.evaluatedSizes req e).Concurs (fun _ => True) (s'.evaluatedSizes req e) := by
  refine (h.eval henv e).attempt.bind fun outcome _ => ?_
  cases outcome with
  | error f => exact .ite (fun _ => concurs_throw f) fun _ => concurs_fail _
  | ok v =>
    cases v with
    | array elements dims => exact concurs_pure trivial
    | _ => exact concurs_fail _

/-- The sizes of an expression concur. -/
theorem sizes (e : Expr) : (s.sizes req e).Concurs (fun _ => True) (s'.sizes req e) := by
  unfold Steps.sizes
  cases announced e with
  | nil => exact (h.eval henv e).bind fun v _ => concurs_pure trivial
  | cons dim more =>
    refine (Concurs.mapM fun dim _ => h.dimension henv dim).attempt.bind fun outcome _ => ?_
    cases outcome with
    | ok sizes => exact concurs_pure trivial
    | error f => exact .ite (fun _ => concurs_throw f) fun _ => h.evaluatedSizes henv e

omit h henv in
/-- A size as a value is ranked. -/
theorem ensures_sizeValue (n : Nat) : (sizeValue n).Ensures Ranked := fun _ hv =>
  (isAtom_inRange hv).ranked

/-- The rule for sizes concurs. -/
theorem size (e : Expr) (dim : Option Expr) :
    (s.size req e dim).Concurs Ranked (s'.size req e dim) := by
  refine (h.sizes henv e).bind fun dims _ => ?_
  cases dim with
  | none =>
    exact concurs_map (concurs_ofOutcome (.mapM fun n _ => ensures_sizeValue n))
      fun _ => Value.ranked_arrayOf
  | some dim =>
    refine (h.eval henv dim).bind fun v _ => ?_
    cases v with
    | integer k =>
      dsimp only
      cases nth? dims k with
      | some n => exact concurs_ofOutcome (ensures_sizeValue n)
      | none => exact concurs_fail _
    | _ => exact concurs_fail _

/-- The rule for ranks concurs. -/
theorem rank (e : Expr) : (s.rank req e).Concurs Ranked (s'.rank req e) :=
  concurs_map (h.sizes henv e) fun _ _ => Value.IsAtom.ranked trivial

/-! ## Constructors and operators -/

/-- The rule for array constructors concurs. -/
theorem array (ty : Ty) (elements : List Expr) :
    (s.array req ty elements).Concurs Ranked (s'.array req ty elements) :=
  concurs_map (h.evalAll henv elements) fun _ => ranked_arrayOfType ty

/-- The rule for matrix constructors concurs. -/
theorem matrix (fault : Fault) (rows : List (List Expr)) :
    (Direct.matrix fault s req rows).Concurs Ranked (s'.matrix req rows) := by
  refine Concurs.bind (.mapM fun row _ => ?_) fun blocks hblocks =>
    .ite (fun _ => concurs_pure (Value.ranked_empty (List.cons_ne_nil _ _))) fun _ =>
      concurs_ofAccess (Direct.concat_inBounds 1 blocks) (Value.ensures_concat 1 hblocks) fault
  refine (h.evalAll henv row).bind fun values hvalues => ?_
  exact concurs_ofAccess (Direct.rowBlock_inBounds values) (ensures_rowBlock hvalues) fault

/-- The rule for ranges concurs. -/
theorem range (fault : Fault) (ty : Ty) (start : Expr) (step : Option Expr) (stop : Expr) :
    (Direct.range fault s req ty start step stop).Concurs Ranked
      (s'.range req ty start step stop) := by
  refine (h.eval henv start).bind fun a _ => ?_
  refine (Concurs.optionMapM fun d _ => h.eval henv d).bind fun d _ => ?_
  refine (h.eval henv stop).bind fun b _ => ?_
  refine concurs_map (concurs_ofAccess (Direct.rangeElements_inBounds a d b _)
    (fun _ => Value.atoms_rangeElements) fault) fun elements helements => ?_
  exact Value.ranked_array.mpr ⟨List.cons_ne_nil _ _, fun v hv => (helements v hv).ranked⟩

/-- The rule for arithmetic operators concurs. -/
theorem operation (fault : Fault) (lhs : Expr) (op : BinaryOp) (rhs : Expr) :
    (Direct.operation fault s req lhs op rhs).Concurs Ranked (s'.binary req lhs op rhs) := by
  refine (h.eval henv lhs).bind fun a ha => (h.eval henv rhs).bind fun b hb => ?_
  refine .ite (fun _ => concurs_fail _) fun _ => ?_
  exact concurs_ofAccess (Direct.binary_inBounds op a b) (ha.binary op hb) fault

/-- The rule for conjunctions and disjunctions concurs. -/
theorem logical (lhs : Expr) (op : LogicalOp) (rhs : Expr) :
    (s.logical req lhs op rhs).Concurs Ranked (s'.logical req lhs op rhs) := by
  rw [logical_eq, logical_eq]
  refine (h.eval henv lhs).bind fun a ha => ?_
  cases hdecided : Value.decided? op a with
  | some v =>
    refine concurs_pure ?_
    unfold Value.decided? at hdecided
    split at hdecided <;> cases hdecided <;> exact Value.IsAtom.ranked trivial
  | none =>
    exact (h.eval henv rhs).bind fun b _ => concurs_ofOutcome (ha.logical op b)

/-- The rule for relations concurs. -/
theorem relation (lhs : Expr) (op : RelationOp) (rhs : Expr) :
    (s.relation req lhs op rhs).Concurs Ranked (s'.relation req lhs op rhs) := by
  refine (h.eval henv lhs).bind fun a _ => (h.eval henv rhs).bind fun b _ => ?_
  cases Value.relate? a op b with
  | none => exact concurs_fail _
  | some holds => exact concurs_pure (Value.IsAtom.ranked trivial)

/-- The rule for conditionals concurs. -/
theorem conditional (condition yes no : Expr) :
    (s.conditional req condition yes no).Concurs Ranked (s'.conditional req condition yes no) := by
  refine (h.eval henv condition).bind fun v _ => ?_
  cases v with
  | bool b =>
    cases b with
    | true => exact h.eval henv yes
    | false => exact h.eval henv no
  | _ => exact concurs_fail _

/-- The rule for casts concurs. -/
theorem cast (ty : Ty) (operand : Expr) :
    (s.cast req ty operand).Concurs Ranked (s'.cast req ty operand) := by
  rw [cast_eq, cast_eq]
  cases hconvert : Value.castLeaf? ty with
  | none => exact h.eval henv operand
  | some convert =>
    exact (h.eval henv operand).bind fun v hv => concurs_ofOutcome (hv.cast hconvert)

/-! ## Tuples, lists and boxes -/

/-- The rule for components of tuples concurs. -/
theorem component (operand : Expr) (index : Nat) :
    (s.component req operand index).Concurs Ranked (s'.component req operand index) := by
  refine (h.eval henv operand).bind fun v hv => ?_
  cases v with
  | tuple elements =>
    dsimp only
    cases hitem : nth? elements index with
    | none => exact concurs_fail _
    | some w =>
      exact concurs_pure (hv.parts w (List.mem_of_getElem? (nth?_eq_some_iff.mp hitem).2))
  | _ => exact concurs_fail _

/-- The rule for putting an element before a list concurs. -/
theorem cons (head tail : Expr) :
    (s.cons req head tail).Concurs Ranked (s'.cons req head tail) := by
  refine (h.eval henv head).bind fun v hv => (h.eval henv tail).bind fun w hw => ?_
  cases w with
  | list vs =>
    refine concurs_pure (Value.ranked_list.mpr ?_)
    rw [Array.toList_append]
    exact List.forall_mem_cons.mpr ⟨hv, hw.parts⟩
  | _ => exact concurs_fail _

/-- The rule for unboxing concurs. -/
theorem unbox (operand : Expr) : (s.unbox req operand).Concurs Ranked (s'.unbox req operand) := by
  refine (h.eval henv operand).bind fun v hv => ?_
  cases v with
  | boxed content => exact concurs_pure (Value.ranked_boxed.mp hv)
  | _ => exact concurs_fail _

/-! ## References -/

omit henv in
/-- The defaults of record fields concur. -/
theorem defaults {env : Env} (henv : env.Ranked) (fields : List FieldDecl) :
    (s.defaults req env fields).Concurs (fun vs => ∀ v ∈ vs, v.Ranked)
      (s'.defaults req env fields) := by
  induction fields generalizing env with
  | nil => exact concurs_pure (List.forall_mem_nil _)
  | cons field more ih =>
    simp only [Steps.defaults]
    cases field.default with
    | none => exact concurs_fail _
    | some default =>
      refine (h.evalAfter 1 (req.within env) default henv).bind fun v hv => ?_
      refine (ih (henv.defineValue field.name field.ty hv)).bind fun vs hvs => concurs_pure ?_
      exact List.forall_mem_cons.mpr ⟨hv, hvs⟩

/-- A record made of defaults concurs. -/
theorem defaultRecord (r : RecordClass) :
    (s.defaultRecord req r).Concurs Ranked (s'.defaultRecord req r) :=
  concurs_map (h.defaults (henv.push _ _) r.fields) fun _ => Value.ranked_record.mpr

/-- Reading a variable without a binding concurs. -/
theorem unbound (ev : Evaluator) (found : Found) (name : String) (ty : Ty) :
    (s.unbound ev req found name ty).Concurs Ranked (s'.unbound ev req found name ty) := by
  refine .ite (fun _ => concurs_fail _) fun _ => ?_
  cases req.env.defaultedRecord? found.declared.ty with
  | some r => exact h.defaultRecord henv r
  | none =>
    refine .ite (fun _ => concurs_pure (Value.ranked_of_parts_eq_nil rfl rfl)) fun _ => ?_
    exact .ite (fun _ => concurs_fail _) fun _ => concurs_fail _

omit henv in
/-- Forcing a binding concurs. -/
theorem force {found : Found} (hfound : found.env.Ranked) (name : String) (e : Expr) :
    (s.force req found name e).Concurs Ranked (s'.force req found name e) := by
  refine concurs_getContext.bind fun ctx hctx => ?_
  cases hknown :
      if found.isIterator then none else ctx.constant? (Context.key found.scope name) with
  | some v =>
    simp only [Option.ite_none_left_eq_some] at hknown
    exact concurs_pure (hctx.constant? hknown.2)
  | none =>
    refine .ite (fun _ => concurs_fail _) fun _ => ?_
    refine (h.evalAfter 0 (req.within found.env) e hfound).bind fun v hv => ?_
    cases found.isIterator with
    | true => exact concurs_pure hv
    | false =>
      exact (concurs_modifyContext fun ctx hctx => hctx.remember _ hv).bind fun _ _ =>
        concurs_pure hv

/-- Reading a variable concurs. -/
theorem readVariable (ev : Evaluator) (name : String) (ty : Ty) :
    (s.readVariable ev req name ty).Concurs Ranked (s'.readVariable ev req name ty) := by
  unfold Steps.readVariable
  cases hlookup : req.env.lookup name with
  | none => exact concurs_fail _
  | some found =>
    obtain ⟨hfound, hvalues⟩ := henv.lookup hlookup
    dsimp only
    cases hbinding : found.declared.binding with
    | value v =>
      rw [hbinding] at hvalues
      exact concurs_pure (hvalues v List.mem_cons_self)
    | unbound => exact h.unbound henv ev found name ty
    | expression e variability cached =>
      refine .ite (fun _ => concurs_fail _) fun _ => ?_
      cases cached with
      | none => exact h.force hfound name e
      | some v =>
        rw [hbinding] at hvalues
        exact concurs_pure (hvalues v List.mem_cons_self)

/-- Selecting fields with subscripts concurs. -/
theorem selectFields (fault : Fault) (fields : Reference) {v : Value} (hv : v.Ranked) :
    (Direct.selectFields fault s req fields v).Concurs Ranked (s'.selectFields req fields v) := by
  induction fields generalizing v with
  | nil => exact concurs_pure hv
  | cons part more ih =>
    simp only [Direct.selectFields, Steps.selectFields]
    refine (concurs_ofOutcome (hv.project part.ident)).bind fun field hfield => ?_
    refine (h.applySubscripts henv fault part.subscripts hfield).bind fun picked hpicked => ?_
    exact ih hpicked

/-- The rule for references concurs. -/
theorem reference (fault : Fault) (ev : Evaluator) (r : Reference) (ty : Ty) :
    (Direct.reference fault s ev req r ty).Concurs Ranked (s'.reference ev req r ty) := by
  refine (concurs_count _).bind fun _ _ => .read (Direct.splitReference_inBounds req.env r) ?_
  refine (h.readVariable henv ev _ _).bind fun v hv => ?_
  refine (h.applySubscripts henv fault _ hv).bind fun w hw => ?_
  exact h.selectFields henv fault _ hw

/-! ## Reductions -/

/-- The values that one iterator runs through concur. -/
theorem sequence (it : Iterator) :
    (s.sequence req it).Concurs (fun vs => ∀ v ∈ vs, v.Ranked) (s'.sequence req it) := by
  refine (h.eval henv it.source).bind fun source hsource => ?_
  cases helements : source.elements? with
  | none => exact concurs_fail _
  | some candidates =>
    have hcandidates := hsource.elements helements
    dsimp only
    cases it.guard with
    | none => exact concurs_pure hcandidates
    | some guard =>
      refine (Concurs.filterM fun v hv => ?_).mono fun kept hkept v hv => hcandidates v (hkept v hv)
      have hscope : (req.env.bindIterators [(it.name, it.ty, v)]).Ranked :=
        henv.bindValues _ _ (List.forall_mem_singleton.mpr (hcandidates v hv))
      refine (h.evalAfter 1 (req.within _) guard hscope).bind fun verdict _ => ?_
      cases verdict with
      | bool b => exact concurs_pure trivial
      | _ => exact concurs_fail _

/-- The body of a reduction at one tuple of values concurs. -/
theorem bodyValue (iterators : List Iterator) (body : Expr) {values : List Value}
    (hvalues : ∀ v ∈ values, v.Ranked) :
    (s.bodyValue req iterators body values).Concurs Ranked
      (s'.bodyValue req iterators body values) := by
  refine h.evalAfter 0 _ body (henv.bindValues _ _ fun binding hbinding => ?_)
  obtain ⟨⟨it, v⟩, hmem, rfl⟩ := List.mem_map.mp hbinding
  exact hvalues v (List.of_mem_zip hmem).2

/-- One step of the fold of a reduction concurs. -/
theorem foldStep (info : ReductionInfo) {acc next : Value} (hacc : acc.Ranked)
    (hnext : next.Ranked) :
    (s.foldStep req info acc next).Concurs Ranked (s'.foldStep req info acc next) := by
  unfold Steps.foldStep
  cases info.fold with
  | none => exact concurs_ofOutcome (hacc.foldNamed _ hnext)
  | some fold =>
    refine h.evalAfter 1 _ fold (henv.bindValues _ _ ?_)
    simp [hacc, hnext]

omit h henv in
/-- The binding tuples of ranked values hold ranked values. -/
theorem ensures_bindingTuples (kind : IteratorKind) {sequences : List (List Value)}
    (hsequences : ∀ items ∈ sequences, ∀ v ∈ items, v.Ranked) :
    (bindingTuples kind sequences).Ensures fun tuples => ∀ tuple ∈ tuples, ∀ v ∈ tuple,
      v.Ranked := by
  intro tuples heq tuple htuple v hv
  have hmem := (heq ▸ safe_bindingTuples kind sequences).of_ok tuple htuple
  obtain ⟨items, hitems, hv⟩ := exists_mem_of_forall₂ hmem v hv
  exact hsequences items hitems v hv

/-- The rule for reductions concurs. -/
theorem reduction (fault : Fault) (info : ReductionInfo) (body : Expr)
    (iterators : List Iterator) :
    (Direct.reduction fault s req info body iterators).Concurs Ranked
      (s'.reduction req info body iterators) := by
  refine (Concurs.mapM fun it _ => h.sequence henv it).bind fun sequences hsequences => ?_
  refine (concurs_ofAccess (Direct.bindingTuples_inBounds info.kind sequences)
    (ensures_bindingTuples info.kind hsequences) fault).bind fun tuples htuples => ?_
  cases tuples with
  | nil =>
    dsimp only
    cases info.default with
    | some default => exact h.eval henv default
    | none => exact concurs_pure (Value.ranked_of_parts_eq_nil rfl rfl)
  | cons first others =>
    have hbody := fun tuple htuple => h.bodyValue henv iterators body (htuples tuple htuple)
    have hgather : ∀ (gathering : Gathering) (shape : List Nat), EvalM.Concurs Ranked
        (do
          let values ← (first :: others).mapM (s.bodyValue req iterators body)
          return gathering.gather values shape)
        (do
          let values ← (first :: others).mapM (s'.bodyValue req iterators body)
          return gathering.gather values shape) := fun gathering shape =>
      concurs_map (.mapM hbody) fun _ hvalues => gathering.ranked_gather hvalues shape
    dsimp only
    cases Gathering.ofName info.path.last with
    | fold =>
      refine (hbody first List.mem_cons_self).bind fun acc hacc => .foldlM hacc ?_
      intro acc tuple htuple hacc
      refine (hbody tuple (List.mem_cons_of_mem _ htuple)).bind fun next hnext => ?_
      exact h.foldStep henv info hacc hnext
    | array => exact hgather _ _
    | list => exact hgather _ _
    | reversedList => exact hgather _ _

end Steps.Concur

end ModelicaFold
