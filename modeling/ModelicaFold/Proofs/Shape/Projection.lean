import ModelicaFold.Proofs.Runs.Levels

/-!
# References as projections

A reference reads the variable that its longest declared prefix names, applies all subscripts of this
prefix, and then selects a field and applies its subscripts for each identifier that is left. The same
can be written with the expressions for fields and subscripts (`Reference.projected`), which need a
level of the recursion limit each. Whatever is looked up, selected and subscripted on the way, both have
the same outcome, failures included, unless the longer form meets the limit (`reference_projects`).
-/

namespace ModelicaFold

open EvalM (LogInsensitive outcome)

namespace Reference

/-- The identifiers without their subscripts. -/
def bare (r : Reference) : Reference := r.map fun part => .mk part.ident []

/-- Selects fields of an expression one after the other, each with its subscripts. -/
def selecting (e : Expr) (fields : Reference) : Expr :=
  fields.foldl (fun e part => .subscripted (.field e part.ident) part.subscripts) e

/-- A reference written as the variable that its first `k` identifiers name, under all their subscripts,
with the other identifiers as fields. The type is known only if there are no fields. -/
def projected (r : Reference) (k : Nat) (ty : Ty) : Expr :=
  selecting (.subscripted (.reference (bare (r.take k)) (if (r.drop k).isEmpty then ty else .unknown))
    (subscripts (r.take k))) (r.drop k)

/-- A reference without its subscripts names the same variable. -/
theorem name_bare (r : Reference) : name (bare r) = name r := by
  unfold name bare
  rw [List.map_map]
  rfl

/-- A reference without its subscripts has none. -/
theorem subscripts_bare (r : Reference) : subscripts (bare r) = [] := by
  unfold subscripts bare
  rw [List.flatMap_eq_nil_iff]
  intro part hpart
  obtain ⟨_, _, rfl⟩ := List.mem_map.mp hpart
  rfl

end Reference

/-! ## The longest declared prefix -/

/-- The first `k` identifiers of a reference name a variable, and no more do. -/
structure LongestDeclared (env : Env) (r : Reference) (k : Nat) : Prop where
  pos : 0 < k
  le : k ≤ r.length
  declared : (env.lookup (Reference.name (r.take k))).isSome
  longest : ∀ j, k < j → j ≤ r.length → env.lookup (Reference.name (r.take j)) = none

namespace LongestDeclared

variable {env : Env} {r : Reference} {k : Nat}

/-- Looking from anywhere beyond it, the longest declared prefix is found. -/
theorem declaredPrefix_eq (h : LongestDeclared env r k) {n : Nat} (hk : k ≤ n) (hn : n ≤ r.length) :
    env.declaredPrefix r n = some k := by
  induction n with
  | zero => exact absurd h.pos (by omega)
  | succ n ih =>
    unfold Env.declaredPrefix
    by_cases hlast : k = n + 1
    · rw [← hlast, if_pos h.declared]
    · rw [h.longest (n + 1) (by omega) hn]
      exact ih (by omega) (by omega)

/-- A reference is split after its longest declared prefix. -/
theorem splitReference_eq (h : LongestDeclared env r k) :
    env.splitReference r = (r.take k, r.drop k) := by
  unfold Env.splitReference
  rw [h.declaredPrefix_eq h.le (Nat.le_refl _)]

/-- The declared prefix is as long without its subscripts. -/
theorem length_bare (h : LongestDeclared env r k) : (Reference.bare (r.take k)).length = k := by
  unfold Reference.bare
  rw [List.length_map, List.length_take_of_le h.le]

/-- The declared prefix alone, without subscripts, names the same variable. -/
theorem bare (h : LongestDeclared env r k) : LongestDeclared env (Reference.bare (r.take k)) k := by
  have hlength := h.length_bare
  refine ⟨h.pos, Nat.le_of_eq hlength.symm, ?_, ?_⟩
  · rw [List.take_of_length_le (Nat.le_of_eq hlength), Reference.name_bare]
    exact h.declared
  · intro j hj hle
    omega

/-- The declared prefix without its subscripts is split into itself and nothing. -/
theorem splitReference_bare (h : LongestDeclared env r k) :
    env.splitReference (Reference.bare (r.take k)) = (Reference.bare (r.take k), []) := by
  have hlength := h.length_bare
  rw [h.bare.splitReference_eq, List.take_of_length_le (Nat.le_of_eq hlength),
    List.drop_of_length_le (Nat.le_of_eq hlength)]

end LongestDeclared

/-! ## Expressions that come to a step -/

/-- However many levels are left, up to one more than `top`, an expression has the outcome of a step,
unless it meets the limit. -/
def ComesTo (ev : Evaluator) (req : Request) (top : Nat) (e : Expr) (x : EvalM Value) : Prop :=
  ∀ n ≤ top + 1, ∀ ctx,
    UpToLimit ev.config.recursionLimit (((ev.steps n).eval req e).outcome ctx) (x.outcome ctx)

section

variable {ev : Evaluator} (hpasses : ev.PassesFailuresOn) (hcall : ev.CallsInsensitively)
  {req : Request} {top : Nat}

include hcall

/-- An expression comes to a step if its rule does, with as many levels left as the step has. -/
theorem comesTo_of_rule {e : Expr} {x : EvalM Value}
    (h : ∀ n ≤ top, ∀ ctx, UpToLimit ev.config.recursionLimit
      (((ev.steps n).rule ev req e).outcome ctx) (x.outcome ctx)) : ComesTo ev req top e x := by
  intro n hn ctx
  cases n with
  | zero => exact .inr ⟨_, rfl, rfl⟩
  | succ n =>
    rw [hcall.outcome_eval_succ]
    exact h n (by omega) ctx

/-- Selecting a field comes to selecting it from what the expression comes to. -/
theorem ComesTo.field {e : Expr} {x : EvalM Value} (h : ComesTo ev req top e x) (name : String) :
    ComesTo ev req top (.field e name) (x >>= fun v => EvalM.ofOutcome (v.project name)) := by
  apply comesTo_of_rule hcall
  intro n hn ctx
  show UpToLimit _ (((ev.steps n).eval req e >>= fun v => EvalM.ofOutcome (v.project name)).outcome ctx) _
  rw [LogInsensitive.outcome_bind fun _ => .ofOutcome _, LogInsensitive.outcome_bind fun _ => .ofOutcome _]
  exact (h n (by omega) ctx).bind fun _ => .refl _

/-- A reference reads the variable that its declared part names, applies the subscripts of this part and
selects the fields that are left. -/
theorem outcome_reference {r declared fields : Reference}
    (h : req.env.splitReference r = (declared, fields)) (n : Nat) (ty : Ty) (ctx : Context) :
    ((ev.steps n).reference ev req r ty).outcome ctx
      = (((ev.steps n).readVariable ev req (Reference.name declared)
            (if fields.isEmpty then ty else .unknown)
          >>= (ev.steps n).applySubscripts req (Reference.subscripts declared))
        >>= (ev.steps n).selectFields req fields).outcome ctx := by
  have hread := hcall.readVariable n req (Reference.name declared)
    (if fields.isEmpty then ty else .unknown)
  have hpicked := hread.bind (hcall.applySubscripts n req (Reference.subscripts declared))
  have hselected := hpicked.bind (hcall.selectFields n req fields)
  unfold Steps.reference
  rw [h]
  rw [bind_assoc] at hselected ⊢
  exact hselected ctx _ _

include hpasses

/-- Subscripts come to applying them to what the expression comes to. -/
theorem ComesTo.subscripted {e : Expr} {x : EvalM Value} (h : ComesTo ev req top e x)
    (subscripts : List Subscript) :
    ComesTo ev req top (.subscripted e subscripts)
      (x >>= (ev.steps top).applySubscripts req subscripts) := by
  apply comesTo_of_rule hcall
  intro n hn ctx
  show UpToLimit _ (((ev.steps n).eval req e >>= (ev.steps n).applySubscripts req subscripts).outcome ctx) _
  rw [LogInsensitive.outcome_bind (hcall.applySubscripts n req subscripts),
    LogInsensitive.outcome_bind (hcall.applySubscripts top req subscripts)]
  refine (h n (by omega) ctx).bind fun done => ?_
  exact hpasses.outcome_applySubscripts hn req subscripts done.1 done.2

/-- Selecting fields with subscripts comes to selecting them from what the expression comes to. -/
theorem ComesTo.selecting {e : Expr} {x : EvalM Value} (h : ComesTo ev req top e x)
    (fields : Reference) :
    ComesTo ev req top (Reference.selecting e fields) (x >>= (ev.steps top).selectFields req fields) := by
  induction fields generalizing e x with
  | nil =>
    have hnone : x >>= (ev.steps top).selectFields req [] = x := bind_pure x
    rw [hnone]
    exact h
  | cons part more ih =>
    have hmore := ih ((h.field hcall part.ident).subscripted hpasses hcall part.subscripts)
    rw [bind_assoc, bind_assoc] at hmore
    exact hmore

/-- The declared prefix without its subscripts comes to reading its variable. -/
theorem comesTo_bare {r : Reference} {k : Nat} (h : LongestDeclared req.env r k) (ty : Ty) :
    ComesTo ev req top (.reference (Reference.bare (r.take k)) ty)
      ((ev.steps top).readVariable ev req (Reference.name (r.take k)) ty) := by
  apply comesTo_of_rule hcall
  intro n hn ctx
  have hread : ((ev.steps n).reference ev req (Reference.bare (r.take k)) ty).outcome ctx
      = ((ev.steps n).readVariable ev req (Reference.name (r.take k)) ty).outcome ctx := by
    have hnone : ∀ x : EvalM Value,
        (x >>= (ev.steps n).applySubscripts req []) >>= (ev.steps n).selectFields req [] = x := by
      intro x
      rw [bind_assoc]
      exact bind_pure x
    rw [outcome_reference hcall h.splitReference_bare, Reference.name_bare, Reference.subscripts_bare,
      hnone]
    rfl
  show UpToLimit _ (((ev.steps n).reference ev req (Reference.bare (r.take k)) ty).outcome ctx) _
  rw [hread]
  exact hpasses.outcome_readVariable hn req _ ty ctx

/-- The expression for a reference comes to the reference. -/
theorem comesTo_projected {r : Reference} {k : Nat} (h : LongestDeclared req.env r k) (ty : Ty) :
    ComesTo ev req top (r.projected k ty) ((ev.steps top).reference ev req r ty) := by
  have hbare : ComesTo ev req top _ _ := comesTo_bare hpasses hcall h
    (if (r.drop k).isEmpty then ty else .unknown)
  have hpicked := hbare.subscripted hpasses hcall (Reference.subscripts (r.take k))
  have hselected := hpicked.selecting hpasses hcall (r.drop k)
  intro n hn ctx
  rw [outcome_reference hcall h.splitReference_eq]
  exact hselected n hn ctx

omit hpasses hcall in
/-- From the start of an evaluation on an expression has the reported outcome of what it comes to. -/
theorem ComesTo.evaluate {e : Expr} {x : EvalM Value} (h : ComesTo ev req top e x)
    (htop : ev.config.recursionLimit ≤ top) (ctx : Context) :
    UpToLimit ev.config.recursionLimit ((ev.evaluate req e).outcome ctx)
      ((x.reporting req.reporting).outcome ctx) := by
  have hstart := h (ev.config.recursionLimit + 1) (Nat.succ_le_succ htop) ctx
  unfold Evaluator.evaluate
  rw [EvalM.outcome_reporting, EvalM.outcome_reporting]
  exact hstart.mapError fun f => Log.cause_report _ req.reporting f

end

/-- Evaluating a reference has the same outcome as evaluating the expression that reads the variable of
its longest declared prefix, applies the subscripts of this prefix and then, for each identifier that is
left, selects a field and applies its subscripts, unless this expression meets the recursion limit. -/
theorem reference_projects (ev : Evaluator) (hpasses : ev.PassesFailuresOn)
    (hcall : ev.CallsInsensitively) (req : Request) (r : Reference) (ty : Ty) (k : Nat)
    (h : LongestDeclared req.env r k) (ctx : Context) (log log' : Log) :
    let limit := ev.config.recursionLimit
    let projected := fun ty => (ev.evaluate req (r.projected k ty) ctx log).1
    (¬AtLimit limit (projected ty) →
        (ev.evaluate req (.reference r ty) ctx log').1 = projected ty)
      ∧ (¬AtLimit limit (projected .unknown) →
        (ev.evaluateReference req r ctx log').1 = projected .unknown) := by
  intro limit projected
  have hprojected : ∀ ty, projected ty = (ev.evaluate req (r.projected k ty)).outcome ctx := by
    intro ty
    exact (hcall.evaluate req _).outcome_eq ctx log
  have hcomes : ∀ top ty, limit ≤ top → UpToLimit limit
      ((ev.evaluate req (r.projected k ty)).outcome ctx)
      ((((ev.steps top).reference ev req r ty).reporting req.reporting).outcome ctx) := by
    intro top ty htop
    exact (comesTo_projected hpasses hcall h ty).evaluate htop ctx
  constructor
  · intro hlimit
    -- an expression is a level above its rule
    have hreference : (ev.evaluate req (.reference r ty) ctx log').1
        = (((ev.steps limit).reference ev req r ty).reporting req.reporting).outcome ctx := by
      rw [(hcall.evaluate req _).outcome_eq, Evaluator.evaluate, EvalM.outcome_reporting,
        EvalM.outcome_reporting]
      exact congrArg _ (hcall.outcome_eval_succ limit req (.reference r ty) ctx)
    rw [hprojected] at hlimit ⊢
    rw [hreference]
    exact (hcomes limit ty (Nat.le_refl _)).eq_of_not_atLimit hlimit
  · intro hlimit
    have hreference : (ev.evaluateReference req r ctx log').1
        = (((ev.steps (limit + 1)).reference ev req r .unknown).reporting req.reporting).outcome ctx :=
      (hcall.evaluateReference req r).outcome_eq ctx log'
    rw [hprojected] at hlimit ⊢
    rw [hreference]
    exact (hcomes (limit + 1) .unknown (Nat.le_succ _)).eq_of_not_atLimit hlimit

/-- An array of two records, each with a field that is an array. -/
def recordArray : Value :=
  .vector [.record ⟨"R", []⟩ [.vector [.integer 10, .integer 20]] ["x"] (-1),
    .record ⟨"R", []⟩ [.vector [.integer 30, .integer 40]] ["x"] (-1)]

/-- The reference `a[2].x[1]` to such an array `a` reads the array, picks a record, selects its field and
picks an element of that. -/
theorem reference_projects_element :
    let env := Env.empty.define "a" (.ofValue .unknown recordArray)
    ((Evaluator.alone ⟨9, .none⟩).evaluateReference ⟨env, .explicit, .silent⟩
        [.mk "a" [.index (.integer 2)], .mk "x" [.index (.integer 1)]] .empty (.start .unlimited)).1
      = .ok (.integer 30, .empty) := by
  intro env
  have hcall : (Evaluator.alone ⟨9, .none⟩).ExecutesBodies := executesBodies_alone _
  have hdeclared : LongestDeclared env
      [.mk "a" [.index (.integer 2)], .mk "x" [.index (.integer 1)]] 1 := by
    refine ⟨by decide, by decide, rfl, ?_⟩
    intro j hj hle
    obtain rfl : j = 2 := by
      simp only [List.length_cons, List.length_nil] at hle
      omega
    rfl
  refine (reference_projects _ hcall.passesFailuresOn hcall.callsInsensitively
    ⟨env, .explicit, .silent⟩ _ .unknown 1 hdeclared .empty (.start .unlimited) (.start .unlimited)).2 ?_
  rintro ⟨f, hf, -⟩
  cases hf

end ModelicaFold
