import Mathlib.Data.List.Flatten
import ModelicaFold.Proofs.Deferral.Rules

/-!
# The rules of subscripts, references and quoted code

A subscript selects nothing from a placeholder, so that there is no result where the second run
selects from an array that was filled in. Two kinds of subscripts do not select: a dimension that is
kept as a whole, and a slice without indices. Kept dimensions alone leave a placeholder as it is;
the indices of slices that come after them are demanded to be there
(`Steps.whole_of_gives`, `Steps.applySubscripts_whole`).

A variable is deferred where it is read (`Lead.unbound_given`). All other variables are declared
alike in both environments, and what is remembered of them is filled in likewise.
-/

namespace ModelicaFold

open EvalM Outcome Value

/-! ## Subscripts -/

namespace Subscript

/-- The slices after a kept dimension are among the slices. -/
theorem slicesAfterWhole_subset_slices (subscripts : List Subscript) :
    slicesAfterWhole subscripts ⊆ subscripts.filterMap slice? := by
  induction subscripts with
  | nil => exact List.nil_subset []
  | cons subscript rest ih =>
    cases subscript with
    | index e => exact ih
    | slice e => exact fun e he => List.mem_cons_of_mem _ (ih he)
    | whole => exact fun e he => he

/-- Among more subscripts more slices come after a dimension that is kept as a whole. -/
theorem slicesAfterWhole_subset {subscripts more : List Subscript} (h : subscripts.Sublist more) :
    slicesAfterWhole subscripts ⊆ slicesAfterWhole more := by
  induction h with
  | slnil => exact List.nil_subset []
  | @cons _ rest subscript _ ih =>
    cases subscript with
    | whole => exact fun e he => slicesAfterWhole_subset_slices rest (ih he)
    | _ => exact ih
  | @cons_cons _ _ subscript hrest ih =>
    cases subscript with
    | whole => exact fun e he => (hrest.filterMap slice?).subset he
    | _ => exact ih

end Subscript

namespace Steps

variable {s : Steps} {req : Request}

/-- The first size of an array is read without failing, whether there is one or not. -/
theorem gives_firstSize (dims : List Nat) (ctx : Context) (log : Log) :
    ∃ n log', (firstSize dims).Gives ctx log n ctx log' := by
  cases dims with
  | nil => exact ⟨0, { log with crashed := true }, rfl⟩
  | cons n inner => exact ⟨n, log, rfl⟩

/-- Dimensions of a value are kept as a whole: nothing is evaluated, and what is no array stays. -/
theorem applySubscripts_whole (s : Steps) (req : Request) {subscripts : List Subscript}
    (h : ∀ subscript ∈ subscripts, subscript = .whole) (v : Value) (ctx : Context) (log : Log) :
    ∃ w log', (s.applySubscripts req subscripts v).Gives ctx log w ctx log'
      ∧ (v.isArray = false → w = v ∧ log' = log) := by
  induction subscripts generalizing v log with
  | nil => exact ⟨v, log, rfl, fun _ => ⟨rfl, rfl⟩⟩
  | cons subscript rest ih =>
    obtain ⟨rfl, hrest⟩ := List.forall_mem_cons.mp h
    simp only [applySubscripts]
    by_cases hempty : rest.isEmpty = true
    · rw [if_pos hempty]
      exact ⟨v, log, rfl, fun _ => ⟨rfl, rfl⟩⟩
    rw [if_neg hempty]
    cases v with
    | array elements dims =>
      dsimp only
      by_cases helements : elements.isEmpty = true
      · obtain ⟨n, log', hn⟩ := gives_firstSize dims ctx log
        refine ⟨.array #[] [n], log', ?_, fun h => absurd h.symm Bool.false_ne_true⟩
        rw [if_pos helements]
        exact gives_bind.mpr ⟨n, ctx, log', hn, gives_pure.mpr ⟨rfl, rfl, rfl⟩⟩
      · have hkept : ∀ v ∈ elements.toList, ∀ log,
            ∃ w log', (s.applySubscripts req rest v).Gives ctx log w ctx log' := fun v _ log =>
          (ih hrest v log).imp fun w => Exists.imp fun log' => And.left
        obtain ⟨kept, log', hrun⟩ := exists_gives_mapM hkept log
        refine ⟨Value.arrayOf kept, log', ?_, fun h => absurd h.symm Bool.false_ne_true⟩
        rw [if_neg helements]
        exact gives_bind.mpr ⟨kept, ctx, log', hrun, gives_pure.mpr ⟨rfl, rfl, rfl⟩⟩
    | _ => exact ih hrest _ log

/-- The first size is the same in both evaluations. -/
theorem leads_firstSize (dims : List Nat) : Leads Eq (firstSize dims) (firstSize dims) := by
  cases dims with
  | nil => exact (leads_modifyLog _ _).map fun _ _ _ => rfl
  | cons n inner => exact leads_pure rfl

/-- Every index that is read as a position has no placeholder, so that the indices have none. -/
theorem complete_of_gives_positions {α : Type} {indices : Value} {k : Int → EvalM α}
    {C D : Context} {log log' : Log} {picked : List α}
    (h : (indices.flatten.mapM fun (index : Value) =>
      (liftM index.position : EvalM Int) >>= k).Gives C log picked D log') : indices.Complete := by
  refine complete_of_leaves fun index hindex => ?_
  obtain ⟨_, -, _, _, _, _, hrun⟩ := exists_mem_of_forall₂ (gives_mapM h).flip index hindex
  obtain ⟨i, _, _, hi, -⟩ := gives_bind.mp hrun
  exact strict_position index i (gives_ofOutcome.mp hi).1

/-- An array without elements has no placeholders. -/
theorem complete_of_isEmpty {elements : Array Value} (h : elements.isEmpty = true)
    (dims : List Nat) : (Value.array elements dims).Complete :=
  complete_array.mpr fun v hv => by
    rw [Array.isEmpty_iff.mp h] at hv
    exact absurd hv List.not_mem_nil

/-- From a placeholder nothing is selected. -/
theorem not_gives_select {v : Value} {ty : Ty} (hv : v.placeholder? = some ty) {index : Value}
    {k : Value → EvalM Value} {C D : Context} {log log' : Log} {w : Value} :
    ¬((liftM index.position : EvalM Int) >>= fun i =>
      (liftM (v.select i) : EvalM Value) >>= k).Gives C log w D log' := by
  intro h
  obtain ⟨i, _, _, -, h⟩ := gives_bind.mp h
  obtain ⟨element, _, _, h, -⟩ := gives_bind.mp h
  have h := (gives_ofOutcome.mp h).1
  cases v with
  | empty => exact fail_eq_ok.mp h
  | _ => cases hv

/-- Subscripts apply to a placeholder only if they keep it as a whole, or a slice has no indices. -/
theorem whole_of_gives {subscripts : List Subscript}
    (hinhabited : ∀ e ∈ subscripts.filterMap Subscript.slice?, ∀ ⦃C log indices D log'⦄,
      (s.eval req e).Gives C log indices D log' → indices.flatten ≠ [])
    {v : Value} {ty : Ty} (hv : v.placeholder? = some ty) {C D : Context} {log log' : Log}
    {w : Value} (h : (s.applySubscripts req subscripts v).Gives C log w D log') :
    ∀ subscript ∈ subscripts, subscript = .whole := by
  induction subscripts with
  | nil => exact fun subscript hmem => absurd hmem List.not_mem_nil
  | cons subscript rest ih =>
    cases subscript with
    | index e =>
      obtain ⟨index, _, _, -, h⟩ := gives_bind.mp h
      exact absurd h (not_gives_select hv)
    | slice e =>
      obtain ⟨indices, _, _, heval, h⟩ := gives_bind.mp h
      obtain ⟨kept, _, _, h, -⟩ := gives_bind.mp h
      have hindices := hinhabited e List.mem_cons_self heval
      obtain ⟨index, more, hcons⟩ := List.exists_cons_of_ne_nil hindices
      rw [hcons] at h
      cases gives_mapM h with
      | cons hfirst _ =>
        obtain ⟨_, _, _, _, hfirst⟩ := hfirst
        exact absurd hfirst (not_gives_select hv)
    | whole =>
      refine List.forall_mem_cons.mpr ⟨rfl, ?_⟩
      simp only [applySubscripts] at h
      split at h
      · rename_i hempty
        rw [List.isEmpty_iff.mp hempty]
        exact fun subscript hmem => absurd hmem List.not_mem_nil
      · cases v with
        | empty => exact ih hinhabited h
        | _ => cases hv

/-- What is no array in its box is no array. -/
theorem isArray_of_unboxed {v : Value} (h : v.unboxed.isArray = false) : v.isArray = false := by
  cases v with
  | array => exact h
  | _ => rfl

namespace Lead

variable {start : Env} {s s' : Steps} {req req' : Request}

/-- The dimensions of a placeholder that are kept as a whole are also kept of what is filled in. -/
theorem whole_placeholder (subscripts : List Subscript) {demands : Demands}
    (hinsists : Steps.Insists demands s s' req req')
    (hdemands : ∀ e ∈ subscripts.filterMap Subscript.slice?, (e, .inhabited) ∈ demands)
    (scope name : String) {ty : Ty} {w : Value} (hw : w.MayFill true ty) :
    Leads (Filled true) (s.applySubscripts req subscripts (.empty scope name ty))
      (s'.applySubscripts req' subscripts w) := by
  intro C log v D log' hrun C' hC log₀
  have hwhole := whole_of_gives
    (fun e he _ _ _ _ _ heval => (hinsists (hdemands e he) 0).allowed heval) rfl hrun
  obtain ⟨v', log₁, hkept, hv'⟩ := applySubscripts_whole s req hwhole (.empty scope name ty) C log
  obtain ⟨w', log₂, hkept', hw'⟩ := applySubscripts_whole s' req' hwhole w C' log₀
  obtain ⟨rfl, rfl⟩ := hv' rfl
  cases hkept.symm.trans hrun
  refine ⟨w', C', log₂, hkept', .empty scope name ?_, hC⟩
  refine hw.imp_right fun hunboxed => ?_
  rwa [(hw' (isArray_of_unboxed hunboxed)).1]

variable (h : s.Lead start s') (hreq : req.Filled start req')

include h hreq

/-- Applying subscripts leads where slices after a kept dimension are demanded to have indices. -/
theorem applySubscripts {subscripts : List Subscript} {demands : Demands}
    (hinsists : Steps.Insists demands s s' req req')
    (hdemands : ∀ e ∈ Subscript.slicesAfterWhole subscripts, (e, .inhabited) ∈ demands)
    {v w : Value} (hvw : v.Filled true w) :
    Leads (Filled true) (s.applySubscripts req subscripts v)
      (s'.applySubscripts req' subscripts w) := by
  induction subscripts generalizing v w with
  | nil => exact leads_pure hvw
  | cons subscript rest ih =>
    have hselect : (∀ e ∈ Subscript.slicesAfterWhole rest, (e, .inhabited) ∈ demands) → ∀ i : Int,
        Leads (Filled true) ((liftM (v.select i) : EvalM Value) >>= s.applySubscripts req rest)
          ((liftM (w.select i) : EvalM Value) >>= s'.applySubscripts req' rest) := fun hrest i =>
      (leads_liftOutcome (yields_select hvw i)).bind fun _ _ huw => ih hrest huw
    cases subscript with
    | index e =>
      refine (h.eval hreq e).bind fun index index' hindex => ?_
      refine (leads_liftOutcome (strict_position.yields hindex)).bind_eq fun i => ?_
      exact hselect hdemands i
    | slice e =>
      refine (h.eval hreq e).bind fun indices indices' hindices => ?_
      refine leads_of_complete hindices (fun C log v D log' hrun => ?_) fun heq => ?_
      · obtain ⟨picked, _, _, hpicked, -⟩ := gives_bind.mp hrun
        exact complete_of_gives_positions hpicked
      · subst heq
        refine (Leads.mapM_same fun index _ => ?_).map fun _ _ => Filled.arrayOf
        exact (leads_liftOutcome (yields_refl (fun _ => rfl) _)).bind_eq fun i => hselect hdemands i
    | whole =>
      have hrest := fun e he => hdemands e (Subscript.slicesAfterWhole_subset_slices rest he)
      have hkept := leads_pure hvw
      have hscalar := ih hrest hvw
      cases hvw with
      | empty scope name hw =>
        exact whole_placeholder (.whole :: rest) hinsists hdemands scope name hw
      | @array xs ys dims dims' hall hdims =>
        simp only [Steps.applySubscripts]
        refine .ite (fun _ => hkept) fun _ => ?_
        rw [show ys.isEmpty = xs.isEmpty by
          simp [Array.isEmpty, ← Array.length_toList, hall.length_eq]]
        refine .ite (fun hempty => ?_) fun _ => ?_
        · rw [hdims.resolve_right fun h => h.2 (complete_of_isEmpty hempty dims).shaped]
          exact (leads_firstSize _).bind_eq fun n => leads_pure (.refl _)
        · exact (Leads.mapM hall fun _ _ huw => ih hrest huw).map fun _ _ => Filled.arrayOf
      | _ =>
        simp only [Steps.applySubscripts]
        exact .ite (fun _ => hkept) fun _ => hscalar

/-! ## References -/

/-- The defaults of record fields lead. -/
theorem defaults (scope : String) (fields : List FieldDecl)
    {bindings bindings' : List (String × Ty × Value)}
    (hbindings : BindingsFilled bindings bindings') :
    Leads (AllFilled true)
      (s.defaults req (req.env.bindValues scope .classScope bindings) fields)
      (s'.defaults req' (req'.env.bindValues scope .classScope bindings') fields) := by
  induction fields generalizing bindings bindings' with
  | nil => exact leads_pure .nil
  | cons field more ih =>
    simp only [Steps.defaults]
    cases field.default with
    | none => exact leads_fail _ _
    | some default =>
      have hscope := hreq.bindValues scope .classScope hbindings
      refine (h.evalInner hscope default).bind fun v w hvw => ?_
      simp only [Env.define_bindValues]
      refine (ih ?_).map fun _ _ hall => .cons hvw hall
      exact List.rel_append hbindings (.cons ⟨rfl, rfl, hvw⟩ .nil)

/-- A record made of defaults leads. -/
theorem defaultRecord (record : RecordClass) :
    Leads (Filled true) (s.defaultRecord req record) (s'.defaultRecord req' record) :=
  (h.defaults hreq record.path.text record.fields .nil).map fun _ _ hall =>
    .record record.path _ (-1) hall

/-- Reading a variable leads that is declared alike without a binding. -/
theorem unbound (ev : Evaluator) {found found' : Found}
    (hdeclared : found'.declared = found.declared) (hscope : found'.scope = found.scope)
    (name : String) (ty : Ty) :
    Leads (Filled true) (s.unbound ev req found name ty) (s'.unbound ev req' found' name ty) := by
  simp only [Steps.unbound, hdeclared, hscope, hreq.mode, hreq.env.defaultedRecord?_eq]
  refine .ite (fun _ => leads_fail _ _) fun _ => ?_
  cases req.env.defaultedRecord? found.declared.ty with
  | some record => exact h.defaultRecord hreq record
  | none =>
    simp only
    refine .ite (fun _ => leads_pure (.refl _)) fun _ => ?_
    exact .ite (fun _ => leads_fail _ _) fun _ => leads_fail _ _

omit h hreq in
/-- What may be filled in for a variable of an unknown type may be filled in for every type. -/
theorem mayFill_declared {declared : Ty} {w : Value} (hw : w.MayFill true declared) (ty : Ty) :
    w.MayFill true (if declared.isUnknown then ty else declared) := by
  cases declared with
  | unknown => exact .inr (hw.resolve_left fun h => Bool.false_ne_true h.2)
  | _ => exact hw

omit h in
/-- What is deferred may be filled in. -/
theorem unbound_given (ev : Evaluator) {found : Found}
    (hty : start.NeverDefaults found.declared.ty) {w : Value}
    (hw : w.MayFill true found.declared.ty) (name : String) (ty : Ty) :
    Leads (Filled true) (s.unbound ev req found name ty) (pure w) := by
  have hdeclared := mayFill_declared hw ty
  simp only [Steps.unbound, hty req.env hreq.meets]
  generalize (if found.declared.ty.isUnknown = true then ty else found.declared.ty) = declared
    at hdeclared
  split
  · exact leads_fail _ _
  · split
    · exact leads_pure (.empty found.scope name hdeclared)
    · split
      · exact leads_fail _ _
      · exact leads_fail _ _

/-- Forcing a binding leads. -/
theorem force {found found' : Found} (hfound : found.Filled start found')
    (hmeets : start.Extends found.env) (name : String) (e : Expr) :
    Leads (Filled true) (s.force req found name e) (s'.force req' found' name e) := by
  simp only [Steps.force, hfound.scope, hfound.isIterator]
  refine leads_getContext.bind fun C C' hC => ?_
  have hconstant : Option.Rel (Filled true)
      (if found.isIterator = true then none else C.constant? (Context.key found.scope name))
      (if found.isIterator = true then none else C'.constant? (Context.key found.scope name)) := by
    split
    · exact .none
    · exact hC.constants _
  generalize (if found.isIterator = true then none else C.constant? _) = known,
    (if found.isIterator = true then none else C'.constant? _) = known' at hconstant
  cases hconstant with
  | some hvw => exact leads_pure hvw
  | none =>
    refine .ite (fun _ => leads_fail _ _) fun _ => ?_
    refine (h.eval (hreq.within hmeets hfound.env) e).bind fun v w hvw => ?_
    refine .ite (fun _ => ?_) fun _ => leads_pure hvw
    exact (leads_remember _ hvw).bind_eq fun _ => leads_pure hvw

/-- Reading a variable leads. -/
theorem readVariable (ev : Evaluator) (name : String) (ty : Ty) :
    Leads (Filled true) (s.readVariable ev req name ty) (s'.readVariable ev req' name ty) := by
  simp only [Steps.readVariable]
  cases hlookup : req.env.lookup name with
  | none => exact leads_fail _ _
  | some found =>
    obtain ⟨found', hlookup', hfound⟩ := exists_of_rel_some (hreq.env.lookup name) hlookup
    rw [hlookup']
    simp only
    have hdeclared := hfound.declared
    generalize hd : found.declared = declared, hd' : found'.declared = declared' at hdeclared
    cases hdeclared with
    | value ty variability hvw => exact leads_pure hvw
    | given variability hty hw =>
      exact unbound_given hreq ev (hd ▸ hty) (hd ▸ hw) name _
    | same =>
      cases hbinding : declared.binding with
      | value v => exact leads_pure (.refl v)
      | unbound => exact h.unbound hreq ev (hd'.trans hd.symm) hfound.scope name ty
      | expression e variability cached =>
        simp only [hreq.mayRead_eq hfound]
        refine .ite (fun _ => leads_fail _ _) fun _ => ?_
        cases cached with
        | some v => exact leads_pure (.refl v)
        | none =>
          exact h.force hreq hfound (hreq.meets.found hlookup (hd ▸ hbinding)) name e

/-- Selecting fields leads where the slices after a kept dimension are demanded to have indices. -/
theorem selectFields {fields : Reference} {demands : Demands}
    (hinsists : Steps.Insists demands s s' req req')
    (hdemands : ∀ part ∈ fields, ∀ e ∈ Subscript.slicesAfterWhole part.subscripts,
      (e, .inhabited) ∈ demands) {v w : Value} (hvw : v.Filled true w) :
    Leads (Filled true) (s.selectFields req fields v) (s'.selectFields req' fields w) := by
  induction fields generalizing v w with
  | nil => exact leads_pure hvw
  | cons part more ih =>
    obtain ⟨hpart, hmore⟩ := List.forall_mem_cons.mp hdemands
    refine (leads_liftOutcome (yields_project part.ident hvw)).bind fun field field' hfield => ?_
    exact (h.applySubscripts hreq hinsists hpart hfield).bind fun _ _ => ih hmore

/-- The rule for references leads where the slices after a kept dimension are demanded to have
indices. -/
theorem reference (ev : Evaluator) (parts : Reference) (ty : Ty) {demands : Demands}
    (hinsists : Steps.Insists demands s s' req req')
    (hdemands : ∀ e ∈ Subscript.slicesAfterWhole (Reference.subscripts parts),
      (e, .inhabited) ∈ demands) :
    Leads (Filled true) (s.reference ev req parts ty) (s'.reference ev req' parts ty) := by
  have hsublist := req.env.splitReference_sublist parts
  simp only [Steps.reference, hreq.env.splitReference_eq]
  refine (leads_count _).bind_eq fun _ => ?_
  refine (h.readVariable hreq ev _ _).bind fun v w hvw => ?_
  refine (h.applySubscripts hreq hinsists (fun e he => hdemands e ?_) hvw).bind ?_
  · refine Subscript.slicesAfterWhole_subset ?_ he
    exact hsublist.1.flatMap RefPart.subscripts
  · intro _ _ hfields
    refine h.selectFields hreq hinsists (fun part hpart e he => hdemands e ?_) hfields
    refine Subscript.slicesAfterWhole_subset ?_ he
    rw [← List.flatMap_singleton RefPart.subscripts part]
    exact ((List.singleton_sublist.mpr hpart).trans hsublist.2).flatMap RefPart.subscripts

/-! ## Quoted code -/

/-- Mapping the parts of quoted code by splices leads to the same code. -/
theorem mapParts (code : Code) :
    Leads Eq (code.mapParts (s.splice req)) (code.mapParts (s'.splice req')) := by
  have hs := h.splice hreq
  cases code with
  | integer n => exact leads_pure rfl
  | real x => exact leads_pure rfl
  | string text => exact leads_pure rfl
  | bool b => exact leads_pure rfl
  | last => exact leads_pure rfl
  | reference path subscripts => exact (Leads.mapM_eq fun c _ => hs c).map_eq _
  | binary lhs op rhs => exact (hs lhs).bind_eq fun a => (hs rhs).map_eq _
  | logical lhs op rhs => exact (hs lhs).bind_eq fun a => (hs rhs).map_eq _
  | relation lhs op rhs => exact (hs lhs).bind_eq fun a => (hs rhs).map_eq _
  | unary op operand => exact (hs operand).map_eq _
  | logicalUnary op operand => exact (hs operand).map_eq _
  | conditional condition yes elseIfs no =>
    refine (hs condition).bind_eq fun c => (hs yes).bind_eq fun y => ?_
    refine (Leads.mapM_eq fun branch _ => ?_).bind_eq fun branches => (hs no).map_eq _
    exact (hs branch.1).bind_eq fun c => (hs branch.2).map_eq _
  | call function args named =>
    refine (Leads.mapM_eq fun c _ => hs c).bind_eq fun args => ?_
    exact (Leads.mapM_eq fun arg _ => (hs arg.2).map_eq _).map_eq _
  | array elements => exact (Leads.mapM_eq fun c _ => hs c).map_eq _
  | matrix rows => exact (Leads.mapM_eq fun row _ => .mapM_eq fun c _ => hs c).map_eq _
  | range start step stop =>
    refine (hs start).bind_eq fun a => ?_
    refine (Leads.optionMapM fun d _ => hs d).bind fun d d' hd => ?_
    cases hd with
    | none => exact (hs stop).map_eq _
    | some heq => exact heq ▸ (hs stop).map_eq _
  | tuple elements => exact (Leads.mapM_eq fun c _ => hs c).map_eq _
  | list elements => exact (Leads.mapM_eq fun c _ => hs c).map_eq _

/-- Splicing the parts of quoted code leads to the same code. -/
theorem spliceParts {ev : Evaluator} (helaborate : ∀ code,
      ev.elaborate req'.env code = ev.elaborate req.env code) (code : Code) :
    Leads Eq (s.spliceParts ev req code) (s'.spliceParts ev req' code) := by
  simp only [Steps.spliceParts]
  cases code.marked? with
  | none => exact h.mapParts hreq code
  | some marked =>
    simp only [Steps.spliceMarked, helaborate]
    cases ev.elaborate req.env marked with
    | none => exact leads_fail _ _
    | some e =>
      refine (h.eval hreq e).bind fun v w hvw => ?_
      cases hcode : v.toCode? with
      | none => exact leads_fail _ _
      | some code =>
        rw [hvw.eq_of_complete (complete_of_toCode? (hcode ▸ rfl)), hcode]
        exact leads_pure rfl

/-- The rule for quoted code leads. -/
theorem quote (fragment : Fragment) :
    Leads (Filled true) (s.quote req fragment) (s'.quote req' fragment) := by
  cases fragment with
  | expression code => exact (h.splice hreq code).map fun _ _ heq => .of_eq (heq ▸ rfl)
  | typeName path => exact leads_pure (.refl _)
  | componentName path => exact leads_pure (.refl _)

end Lead

end Steps

end ModelicaFold
