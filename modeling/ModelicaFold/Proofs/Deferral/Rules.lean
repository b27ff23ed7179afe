import ModelicaFold.Proofs.Deferral.Wary
import ModelicaFold.Proofs.Runs.Rules

/-!
# The rules of constructors, operators, sizes and references

Where the steps below lead other ones, and insist on what is demanded of operands, a rule leads the
same rule in an environment with values filled in. There is one lemma for each rule, in the order of
the modules that define them.

Most rules have a result only where an operand has no placeholder, so that both runs go on with the
same value (`leads_of_complete`). The sizes that a type announces are tried first and may fail,
after which the operand itself is evaluated: there both runs have to fail together (`Accord`).
-/

namespace ModelicaFold

open EvalM Outcome Value

/-- Where a step succeeds only if a value has no placeholders, this value may be taken to be the
same. -/
theorem EvalM.leads_of_complete {arrays : Bool} {α α' : Type} {R : α → α' → Prop} {x : EvalM α}
    {x' : EvalM α'} {v w : Value} (hvw : v.Filled arrays w)
    (hcomplete : ∀ C log a D log', x.Gives C log a D log' → v.Complete)
    (h : w = v → Leads R x x') : Leads R x x' := fun C log a D log' hrun =>
  h (hvw.eq_of_complete (hcomplete C log a D log' hrun)) C log a D log' hrun

/-- Division is an arithmetic operator. -/
theorem BinaryOp.exists_of_isDivision {op : BinaryOp} (h : op.isDivision = true) :
    ∃ operands, op = .arith .div operands := by
  unfold isDivision at h
  split at h
  · exact ⟨_, rfl⟩
  · cases h

/-- A step that gives only values that are complete leads the same one. -/
theorem EvalM.Leads.filled {arrays : Bool} {x x' : EvalM Value} (h : Leads Eq x x') :
    Leads (Filled arrays) x x' :=
  h.mono fun _ _ => Filled.of_eq

/-- Counts of the log lead each other. -/
theorem EvalM.leads_count (f : Counters → Counters) : Leads Eq (count f) (count f) :=
  leads_modifyLog _ _

namespace EvalM

variable {α β : Type}

/-! ## Steps that fail together -/

/-- Steps of which both have the same result, or both fail and may be caught, or the first one fails
fatally. -/
def Accord (x x' : EvalM α) : Prop :=
  ∀ C log C', C.Filled C' → ∀ log₀,
    (∃ a D D', (x C log).1 = .ok (a, D) ∧ (x' C' log₀).1 = .ok (a, D') ∧ D.Filled D')
      ∨ ∃ f, (x C log).1 = .error f ∧ (f.cause.isFatal = true
        ∨ ∃ f', (x' C' log₀).1 = .error f' ∧ f.cause.isFatal = false ∧ f'.cause.isFatal = false)

/-- A pure step accords with itself. -/
theorem accord_pure (a : α) : Accord (pure a) (pure a) := fun C _ C' hC _ =>
  .inl ⟨a, C, C', rfl, rfl, hC⟩

/-- A failure that is not fatal accords with itself. -/
theorem accord_fail {c : Cause} (h : c.isFatal = false) :
    Accord (fail c : EvalM α) (fail c) := fun _ _ _ _ _ =>
  .inr ⟨.of c, rfl, .inr ⟨.of c, rfl, h, h⟩⟩

namespace Accord

/-- Sequences accord if their parts do. -/
theorem bind {x x' : EvalM α} {k k' : α → EvalM β} (hx : Accord x x')
    (hk : ∀ a, Accord (k a) (k' a)) : Accord (x >>= k) (x' >>= k') := by
  intro C log C' hC log₀
  rcases hx C log C' hC log₀ with ⟨a, D, D', hrun, hrun', hD⟩ | ⟨f, hrun, hf⟩
  · rw [bind_of_ok hrun, bind_of_ok hrun']
    exact hk a D _ D' hD _
  · rw [bind_of_error hrun]
    refine .inr ⟨f, rfl, hf.imp_right ?_⟩
    rintro ⟨f', hrun', hff'⟩
    rw [bind_of_error hrun']
    exact ⟨f', rfl, hff'⟩

/-- Mapping a list accords if the steps do. -/
theorem mapM {f f' : α → EvalM β} {items : List α} (h : ∀ a ∈ items, Accord (f a) (f' a)) :
    Accord (items.mapM f) (items.mapM f') := by
  induction items with
  | nil => exact accord_pure []
  | cons a items ih =>
    obtain ⟨ha, hitems⟩ := List.forall_mem_cons.mp h
    rw [List.mapM_cons, List.mapM_cons]
    exact ha.bind fun b => (ih hitems).bind fun bs => accord_pure (b :: bs)

/-- A failure that is handed over, but for a fatal one, which ends the first step. -/
theorem attempt {γ : Type} {S : β → γ → Prop} {x x' : EvalM α} {k : Except Failure α → EvalM β}
    {k' : Except Failure α → EvalM γ} (hx : Accord x x')
    (hok : ∀ a, Leads S (k (.ok a)) (k' (.ok a)))
    (hcaught : ∀ f f', f.cause.isFatal = false → f'.cause.isFatal = false →
      Leads S (k (.error f)) (k' (.error f')))
    (hfatal : ∀ f, f.cause.isFatal = true → k (.error f) = throw f) :
    Leads S (x.attempt >>= k) (x'.attempt >>= k') := by
  intro C log b D log' hrun C' hC log₀
  rcases hx C log C' hC log₀ with ⟨a, C₁, C₁', ha, ha', hC₁⟩ | ⟨f, hf, hff'⟩
  · rw [Gives, attempt_bind_of_ok k ha] at hrun
    unfold Gives
    rw [attempt_bind_of_ok k' ha']
    exact hok a C₁ _ b D log' hrun C₁' hC₁ _
  · rw [Gives, attempt_bind_of_error k hf] at hrun
    rcases hff' with hfatal' | ⟨f', hf', hcaught', hcaught''⟩
    · rw [hfatal f hfatal'] at hrun
      cases hrun
    · unfold Gives
      rw [attempt_bind_of_error k' hf']
      exact hcaught f f' hcaught' hcaught'' C _ b D log' hrun C' hC _

end Accord

/-- A step without placeholders that is insisted on fails only fatally. -/
theorem Insists.accord {x x' : EvalM Value} {k : Except Failure Value → EvalM β}
    (hx : Insists Demand.complete.Allows x x') (hok : ∀ v, Accord (k (.ok v)) (k (.ok v)))
    (hfatal : ∀ f, f.cause.isFatal = true → k (.error f) = throw f) :
    Accord (x.attempt >>= k) (x'.attempt >>= k) := by
  intro C log C' hC log₀
  cases hrun : (x C log).1 with
  | ok done =>
    obtain ⟨v, D⟩ := done
    obtain ⟨v', D', log₁, hrun', rfl, hD⟩ := hx.complete C log v D _ (run_eq hrun) C' hC log₀
    rw [attempt_bind_of_ok k hrun, attempt_bind_of_ok k (congrArg Prod.fst hrun')]
    exact hok v D _ D' hD _
  | error f =>
    have hf := hx.fatal C log f hrun
    rw [attempt_bind_of_error k hrun, hfatal f hf]
    exact .inr ⟨f, rfl, .inl hf⟩

end EvalM

namespace Steps.Lead

variable {start : Env} {s s' : Steps} (h : s.Lead start s') {req req' : Request}
  (hreq : req.Filled start req')

include h hreq

/-- Evaluation of an operand leads. -/
theorem eval (e : Expr) : Leads (Filled true) (s.eval req e) (s'.eval req' e) :=
  h.evalAfter hreq 0 e

/-- Evaluation one level down leads. -/
theorem evalInner (e : Expr) : Leads (Filled true) (s.evalInner req e) (s'.evalInner req' e) :=
  h.evalAfter hreq 1 e

/-- Evaluating a list of expressions leads. -/
theorem evalAll (es : List Expr) : Leads (AllFilled true) (s.evalAll req es) (s'.evalAll req' es) :=
  .mapM_same fun e _ => h.eval hreq e

/-- The value of an operand is known as well as demanded. -/
theorem eval_insists {demands : Demands} (hinsists : Steps.Insists demands s s' req req')
    (e : Expr) :
    Leads (fun v w => v.Filled true w ∧ ∀ d, (e, d) ∈ demands → d.Allows v) (s.eval req e)
      (s'.eval req' e) :=
  (h.eval hreq e).and fun _ _ _ _ _ hrun _ hd => (hinsists hd 0).allowed hrun

omit h hreq in
/-- Expressions whose sizes are demanded give values that are filled in by no arrays. -/
theorem evalAll_shaped {demands : Demands} (hinsists : Steps.Insists demands s s' req req')
    {es : List Expr} (hes : ∀ e ∈ es, (e, .shaped) ∈ demands) :
    Leads (AllFilled false) (s.evalAll req es) (s'.evalAll req' es) :=
  .mapM_same fun e he => (hinsists (hes e he) 0).shaped

omit h hreq in
/-- Expressions demanded as a whole give the same values. -/
theorem evalAll_complete {demands : Demands} (hinsists : Steps.Insists demands s s' req req')
    {es : List Expr} (hes : ∀ e ∈ es, (e, .complete) ∈ demands) :
    Leads Eq (s.evalAll req es) (s'.evalAll req' es) :=
  .mapM_eq fun e he => (hinsists (hes e he) 0).complete

/-! ## Constructors -/

omit h hreq in
/-- Values make an array of a type that is filled in as they are. -/
theorem filled_arrayOfType (ty : Ty) {vs ws : List Value} (hall : AllFilled true vs ws) :
    (Steps.arrayOfType ty vs).Filled true (Steps.arrayOfType ty ws) := by
  cases hall with
  | nil => exact .refl _
  | cons hvw hall => exact .arrayOf (.cons hvw hall)

/-- The rule for array constructors leads. -/
theorem array (ty : Ty) (elements : List Expr) :
    Leads (Filled true) (s.array req ty elements) (s'.array req' ty elements) :=
  (h.evalAll hreq elements).map fun _ _ => filled_arrayOfType ty

omit h hreq in
/-- The rule for matrix constructors leads where the sizes of all entries are demanded. -/
theorem matrix {rows : List (List Expr)}
    (hinsists : Steps.Insists (rows.flatten.map (·, .shaped)) s s' req req') :
    Leads (Filled true) (s.matrix req rows) (s'.matrix req' rows) := by
  have hblocks : Leads (AllFilled false)
      (rows.mapM fun row => do ofOutcome (Steps.rowBlock (← s.evalAll req row)))
      (rows.mapM fun row => do ofOutcome (Steps.rowBlock (← s'.evalAll req' row))) := by
    refine .mapM_same fun row hrow => (evalAll_shaped hinsists fun e he => ?_).bind ?_
    · exact List.mem_map_of_mem (List.mem_flatten.mpr ⟨row, hrow, he⟩)
    · exact fun vs ws hall => leads_ofOutcome (Steps.yields_rowBlock hall)
  refine hblocks.bind fun blocks blocks' hall => ?_
  rw [show blocks'.isEmpty = blocks.isEmpty by cases hall <;> rfl]
  refine .ite (fun _ => leads_pure (.refl _)) fun _ => ?_
  exact leads_ofOutcome ((yields_concat 1 hall).mono fun _ _ hvw => hvw.of_shaped (.inl rfl))

/-- The rule for ranges leads. -/
theorem range (ty : Ty) (start : Expr) (step : Option Expr) (stop : Expr) :
    Leads (Filled true) (s.range req ty start step stop) (s'.range req' ty start step stop) := by
  refine (h.eval hreq start).bind fun a a' ha => ?_
  refine (Leads.optionMapM fun e _ => h.eval hreq e).bind fun d d' hd => ?_
  refine (h.eval hreq stop).bind fun b b' hb => ?_
  refine (leads_liftOutcome (yields_rangeElements ha hd hb ty.elementType)).map ?_
  rintro elements _ rfl
  exact .refl _

/-! ## Operators -/

/-- An operand of an operation that succeeds only where it has no placeholder. -/
theorem strict {f : Value → Outcome Value} (hf : Strict f) (operand : Expr) :
    Leads (Filled true) (s.eval req operand >>= fun v => ofOutcome (f v))
      (s'.eval req' operand >>= fun v => ofOutcome (f v)) :=
  (h.eval hreq operand).bind fun _ _ hvw => (leads_ofOutcome (hf.yields hvw)).filled

/-- The rule for arithmetic operators leads where what it demands of its operands is insisted on. -/
theorem binary (lhs : Expr) (op : BinaryOp) (rhs : Expr)
    (hinsists : Steps.Insists ((Expr.binary lhs op rhs).demands req.env) s s' req req') :
    Leads (Filled true) (s.binary req lhs op rhs) (s'.binary req' lhs op rhs) := by
  refine (h.eval_insists hreq hinsists lhs).bind ?_
  rintro a a' ⟨ha, hlhs⟩
  refine (h.eval_insists hreq hinsists rhs).bind ?_
  rintro b b' ⟨hb, hrhs⟩
  have hyields : Yields Eq (Value.binary op a b) (Value.binary op a' b') := by
    refine yields_binary op ha hb ?_ ?_
    · rintro rfl
      refine ⟨hlhs .shaped List.mem_cons_self, hrhs .shaped ?_⟩
      exact List.mem_cons_of_mem _ List.mem_cons_self
    · rintro rfl
      exact hlhs .complete List.mem_cons_self
  cases hdivision : op.isDivision with
  | false => exact (leads_ofOutcome hyields).filled
  | true =>
    -- there is a result only where the divisor has no placeholder
    refine leads_of_complete hb (fun C log v D log' hrun => ?_) fun heq => ?_
    · rw [Bool.true_and] at hrun
      split at hrun
      · cases hrun
      · obtain ⟨hv, -, -⟩ := gives_ofOutcome.mp hrun
        obtain ⟨operands, rfl⟩ := BinaryOp.exists_of_isDivision hdivision
        by_cases hoperands : operands = .arrayScalar
        · subst hoperands
          exact hrhs .complete List.mem_cons_self
        · exact complete_of_division hv hoperands
    · subst heq
      exact .ite (fun _ => leads_fail _ _) fun _ => (leads_ofOutcome hyields).filled

/-- The rule for conjunctions and disjunctions leads. -/
theorem logical (lhs : Expr) (op : LogicalOp) (rhs : Expr) :
    Leads (Filled true) (s.logical req lhs op rhs) (s'.logical req' lhs op rhs) := by
  simp only [Steps.logical_eq]
  refine (h.eval hreq lhs).bind fun a a' ha => ?_
  refine leads_of_complete ha (fun C log v D log' hrun => ?_) fun heq => ?_
  · cases hdecided : Value.decided? op a with
    | some w => exact complete_of_decided? hdecided
    | none =>
      rw [hdecided] at hrun
      obtain ⟨b, _, _, -, hrun⟩ := gives_bind.mp hrun
      exact (strict₂_logical op a b v (gives_ofOutcome.mp hrun).1).1
  · subst heq
    cases Value.decided? op a' with
    | some v => exact leads_pure (.refl v)
    | none => exact h.strict hreq (fun b v hv => (strict₂_logical op a' b v hv).2) rhs

/-- The rule for relations leads. -/
theorem relation (lhs : Expr) (op : RelationOp) (rhs : Expr) :
    Leads (Filled true) (s.relation req lhs op rhs) (s'.relation req' lhs op rhs) := by
  refine (h.eval hreq lhs).bind fun a a' ha => (h.eval hreq rhs).bind fun b b' hb => ?_
  cases hholds : Value.relate? a op b with
  | none => exact leads_fail _ _
  | some holds =>
    obtain ⟨hac, hbc⟩ := complete_of_relate? hholds
    rw [ha.eq_of_complete hac, hb.eq_of_complete hbc, hholds]
    exact leads_pure (.refl _)

/-- The rule for conditionals leads. -/
theorem conditional (condition yes no : Expr) :
    Leads (Filled true) (s.conditional req condition yes no)
      (s'.conditional req' condition yes no) := by
  refine (h.eval hreq condition).bind fun v w hvw => ?_
  cases hvw with
  | bool b =>
    cases b with
    | true => exact h.eval hreq yes
    | false => exact h.eval hreq no
  | _ => exact leads_fail _ _

/-- The rule for casts leads. -/
theorem cast (ty : Ty) (operand : Expr) :
    Leads (Filled true) (s.cast req ty operand) (s'.cast req' ty operand) := by
  simp only [Steps.cast_eq]
  cases hconvert : Value.castLeaf? ty with
  | none => exact h.eval hreq operand
  | some convert => exact h.strict hreq (strict_castLeaf hconvert).mapLeaves operand

/-! ## Tuples, lists and boxes -/

/-- The rule for components of tuples leads. -/
theorem component (operand : Expr) (index : Nat) :
    Leads (Filled true) (s.component req operand index) (s'.component req' operand index) := by
  refine (h.eval hreq operand).bind fun v w hvw => ?_
  cases hvw with
  | tuple hall =>
    simp only
    cases hindex : nth? _ (index : Int) with
    | none => exact leads_fail _ _
    | some u =>
      obtain ⟨u', hindex', hu⟩ := nth?_of_forall₂ hall hindex
      rw [hindex']
      exact leads_pure hu
  | _ => exact leads_fail _ _

/-- The rule for putting an element before a list leads. -/
theorem cons (head tail : Expr) :
    Leads (Filled true) (s.cons req head tail) (s'.cons req' head tail) := by
  refine (h.eval hreq head).bind fun v w hvw => (h.eval hreq tail).bind fun vs ws hall => ?_
  cases hall with
  | list hall =>
    refine leads_pure (.list ?_)
    simp only [Array.toList_append]
    exact .cons hvw hall
  | _ => exact leads_fail _ _

/-- The rule for unboxing leads. -/
theorem unbox (operand : Expr) :
    Leads (Filled true) (s.unbox req operand) (s'.unbox req' operand) := by
  refine (h.eval hreq operand).bind fun v w hvw => ?_
  cases hvw with
  | boxed hcontent => exact leads_pure hcontent
  | _ => exact leads_fail _ _

/-- The rule for fields leads. -/
theorem field (operand : Expr) (name : String) :
    Leads (Filled true) (s.eval req operand >>= fun v => ofOutcome (v.project name))
      (s'.eval req' operand >>= fun v => ofOutcome (v.project name)) :=
  (h.eval hreq operand).bind fun _ _ hvw => leads_ofOutcome (yields_project name hvw)

/-! ## Sizes -/

omit h hreq in
/-- A dimension whose expression is insisted on. -/
theorem accord_dimension {d : Dimension}
    (hd : ∀ e, d = .computed e → EvalM.Insists Demand.complete.Allows (s.evalInner req e)
      (s'.evalInner req' e)) :
    Accord (s.dimension req d) (s'.dimension req' d) := by
  cases d with
  | known n => exact accord_pure n
  | enumeration path n => exact accord_pure n
  | boolean => exact accord_pure 2
  | unknown => exact accord_fail rfl
  | computed e =>
    refine (hd e rfl).accord (fun v => ?_) fun f hf => if_pos hf
    cases v with
    | integer n =>
      simp only
      split
      · exact accord_fail rfl
      · exact accord_pure _
    | _ => exact accord_fail rfl

omit h hreq in
/-- The sizes of a value are the same where they are demanded. -/
theorem evaluatedSizes {e : Expr}
    (he : EvalM.Insists Demand.shaped.Allows (s.eval req e) (s'.eval req' e)) :
    Leads Eq (s.evaluatedSizes req e) (s'.evaluatedSizes req' e) := by
  refine he.shaped.attempt (fun v w hvw => ?_) fun f C log b D log' hrun => ?_
  · cases hvw with
    | array hall hdims =>
      exact leads_pure (hdims.resolve_right fun h => Bool.false_ne_true h.1).symm
    | _ => exact leads_fail _ _
  · simp only at hrun
    split at hrun
    · cases hrun
    · cases hrun

omit h hreq in
/-- The sizes of an operand that is measured. -/
theorem sizes {e : Expr} {demands : Demands} (hinsists : Steps.Insists demands s s' req req')
    (hdemands : e.measuredDemands ⊆ demands) :
    Leads Eq (s.sizes req e) (s'.sizes req' e) := by
  have he := hinsists (hdemands List.mem_cons_self) 0
  have hcomputed : ∀ {d : Expr}, .computed d ∈ Steps.announced e → (d, .complete) ∈ demands := by
    intro d hd
    refine hdemands (List.mem_cons_of_mem _ (List.mem_map_of_mem ?_))
    exact List.mem_filterMap.mpr ⟨_, hd, rfl⟩
  simp only [Steps.sizes]
  generalize hdims : Steps.announced e = dims at hcomputed
  cases dims with
  | nil => exact he.shaped.map fun v w hvw => hvw.dims_eq.symm
  | cons d more =>
    have haccord : Accord ((d :: more).mapM (s.dimension req))
        ((d :: more).mapM (s'.dimension req')) :=
      .mapM fun d hd => accord_dimension fun e he => hinsists (hcomputed (he ▸ hd)) 1
    refine haccord.attempt (fun _ => leads_pure rfl) (fun f f' hf hf' => ?_) fun f hf => if_pos hf
    simp only [hf, hf', Bool.false_eq_true, if_false]
    exact evaluatedSizes he

/-- The rule for sizes leads where they are demanded. -/
theorem size {e : Expr} (dim : Option Expr) {demands : Demands}
    (hinsists : Steps.Insists demands s s' req req') (hdemands : e.measuredDemands ⊆ demands) :
    Leads (Filled true) (s.size req e dim) (s'.size req' e dim) := by
  refine (sizes hinsists hdemands).bind_eq fun dims => ?_
  cases dim with
  | none =>
    have hvalues := yields_refl (fun _ => rfl) (dims.mapM Steps.sizeValue)
    exact (leads_liftOutcome hvalues).map fun _ _ heq => .of_eq (heq ▸ rfl)
  | some dim =>
    refine (h.eval hreq dim).bind fun v w hvw => ?_
    cases hvw with
    | integer k =>
      simp only
      cases nth? dims k with
      | none => exact leads_fail _ _
      | some n => exact leads_liftOutcome (yields_refl .refl _)
    | _ => exact leads_fail _ _

omit h hreq in
/-- The rule for ranks leads where sizes are demanded. -/
theorem rank {e : Expr} {demands : Demands} (hinsists : Steps.Insists demands s s' req req')
    (hdemands : e.measuredDemands ⊆ demands) :
    Leads (Filled true) (s.rank req e) (s'.rank req' e) :=
  (sizes hinsists hdemands).map fun _ _ heq => .of_eq (heq ▸ rfl)

end Steps.Lead

end ModelicaFold
