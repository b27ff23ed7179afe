import ModelicaFold.Eval.Evaluate
import ModelicaFold.Proofs.Typing.Reductions

/-!
# Typed expressions do not fail internally

The rules on typed expressions are put together, and induction on the number of levels left makes
every step sound (`Evaluator.sound_steps`). So a typed expression is evaluated to a value of its type
or fails for a cause that type checking could not rule out, whether unbound variables are deferred or
not (`typed_not_internal`). Where a placeholder is not told from a value of the wrong kind, deferring
does end in an internal failure (`range_over_placeholder`).
-/

namespace ModelicaFold

open EvalM (safe_pure safe_fail safe_ofOutcome)
open Value (Fits)

namespace Builtin

open Outcome (safe_fail)
open Value (CombinesLeaves)

variable {kind : ScalarKind}

/-! ## Quotients -/

/-- The quotient of two numbers fails if it is beyond the words. -/
theorem combinesLeaves_integerDivide (hkind : kind.IsNumber) :
    CombinesLeaves integerDivide true true kind kind := by
  refine Value.combinesLeaves_numbers hkind (fun _ _ _ w => by cases w <;> rfl) ?_
    (fun _ _ => safe_inRange _ _) fun _ _ => .ok (.real _)
  rintro v scope name ty (⟨a, rfl⟩ | ⟨a, rfl⟩) <;> rfl

/-- The modulo of two scalars of a number kind is of that kind. -/
theorem combinesLeaves_modulo (hkind : kind.IsNumber) :
    CombinesLeaves modulo true true kind kind := by
  refine Value.combinesLeaves_numbers hkind (fun _ _ _ w => by cases w <;> rfl) ?_
    (fun _ _ => .ite (fun _ => safe_fail rfl) fun _ => .ok (.integer _)) fun _ _ => .ok (.real _)
  rintro v scope name ty (⟨a, rfl⟩ | ⟨a, rfl⟩) <;> rfl

/-- The remainder of two scalars of a number kind is of that kind. -/
theorem combinesLeaves_remainder (hkind : kind.IsNumber) :
    CombinesLeaves remainder true true kind kind := by
  refine Value.combinesLeaves_numbers hkind (fun _ _ _ w => by cases w <;> rfl) ?_
    (fun _ _ => .ite (fun _ => safe_fail rfl) fun _ => .ok (.integer _)) fun _ _ => .ok (.real _)
  rintro v scope name ty (⟨a, rfl⟩ | ⟨a, rfl⟩) <;> rfl

end Builtin

namespace Steps

variable {τ : KeyTypes} {start : Env} {s : Steps} (hs : s.Sound τ start) {req : Request}
  (henv : start.Extends req.env) (ev : Evaluator) {c c' d : Bool} {t : ValueType}

/-! ## Calls of built-in functions -/

/-- A call of a built-in function by its name, apart from `smooth`. -/
theorem safe_callOf {P : Value → Prop} {path : Path} {rule : Builtin.Rule} (call : Expr)
    (args : List Expr) (impure : Bool) (hname : path.last ≠ "smooth")
    (hrule : ∀ extended, Builtin.rule? path.last extended = some rule)
    (h : (s.applyRule ev req args rule).Safe (Context.WellTyped τ) P) :
    (s.call ev req call path args true impure).Safe (Context.WellTyped τ) P := by
  have hzero : smoothZero? path args true = none :=
    Option.eq_none_iff_forall_ne_some.mpr fun e he => hname (smoothZero?_eq_some.mp he).2.2
  simp only [call_eq, hzero, hrule]
  exact (EvalM.safe_count _).bind fun _ _ => h

include hs henv

/-- A built-in function is safe on arguments of the types that it admits. -/
theorem safe_builtin {path : Path} {args : List Expr} {ts : List ValueType} {f : Builtin.Function}
    (call : Expr) (impure : Bool)
    (hrule : Builtin.baseTable.lookup path.last = some (.ofValues f)) (hf : f.Admits c ts t)
    (hlength : args.length = ts.length) (h : ∀ p ∈ args.zip ts, HasType τ req.env p.1 c p.2) :
    (s.call ev req call path args true impure).Safe (Context.WellTyped τ) (Fits d t) := by
  have hname : path.last ≠ "smooth" := by
    intro hname
    have hsmooth : Builtin.baseTable.lookup "smooth" = some (Builtin.special smooth) := rfl
    rw [hname, hsmooth] at hrule
    cases hrule
  refine safe_callOf ev call args impure hname (fun _ => by rw [Builtin.rule?, hrule]) ?_
  refine (safe_evalEach hs henv hlength h).bind fun values hvalues => ?_
  exact safe_ofOutcome ((hf values hvalues).mono fun v hv => hv.solid)

/-- A call of `noEvent` is safe and has the type of its argument. -/
theorem safe_noEvent {path : Path} {e : Expr} (call : Expr) (impure : Bool)
    (hname : path.last = "noEvent") (h : HasType τ req.env e d t) :
    (s.call ev req call path [e] true impure).Safe (Context.WellTyped τ) (Fits d t) := by
  refine safe_callOf ev call [e] impure (by rw [hname]; decide) (fun _ => by rw [hname]; rfl) ?_
  exact safe_eval hs henv h

/-- A call of `smooth` is safe and has the type of its second argument. -/
theorem safe_smooth {path : Path} {order e : Expr} (call : Expr) (impure : Bool)
    (hname : path.last = "smooth") (h : HasType τ req.env e d t) :
    (s.call ev req call path [order, e] true impure).Safe (Context.WellTyped τ) (Fits d t) := by
  have heval := safe_eval hs henv h
  rw [call_eq]
  cases hzero : smoothZero? path [order, e] true with
  | some e' =>
    obtain ⟨hargs, -, -⟩ := smoothZero?_eq_some.mp hzero
    cases hargs
    exact heval
  | none =>
    simp only [hname]
    exact (EvalM.safe_count _).bind fun _ _ => heval

/-- A division with a tested divisor is safe on scalars of one kind. -/
theorem safe_quotient {kind : ScalarKind} {name : String} {x y : Expr}
    {zero : String → String → Cause} {divide : Value → Value → Outcome Value}
    (hzero : ∀ a b, (zero a b).alwaysReported = false)
    (hdivide : Value.CombinesLeaves divide true true kind kind)
    (hx : HasType τ req.env x c (.scalar kind)) (hy : HasType τ req.env y c' (.scalar kind)) :
    (quotient name zero divide s req [x, y]).Safe (Context.WellTyped τ) (Fits d (.scalar kind)) := by
  have hoperands : (s.quotientOperands req name zero [x, y]).Safe (Context.WellTyped τ) fun p =>
      p.1.Fits true (.scalar kind) ∧ p.2.Fits true (.scalar kind) := by
    have htakes : Builtin.takes name 2 [x, y] = .ok () := rfl
    simp only [quotientOperands, htakes]
    refine (safe_eval hs henv hx).bind fun a ha => (safe_eval hs henv hy).bind fun b hb => ?_
    refine .ite (fun _ => safe_fail (hzero _ _)) fun _ => safe_pure ⟨?_, ?_⟩
    · exact ha.weaken fun _ => rfl
    · exact hb.weaken fun _ => rfl
  refine hoperands.bind fun p hp => ?_
  exact safe_ofOutcome ((hdivide.apply hp.1 hp.2).mono fun v hv => hv.solid)

/-- Calls of `div`, `mod` and `rem` are safe on scalars of a number kind. -/
theorem safe_quotientCall {kind : ScalarKind} {path : Path} {x y : Expr} (call : Expr)
    (impure : Bool) (hname : path.last = "div" ∨ path.last = "mod" ∨ path.last = "rem")
    (hkind : kind.IsNumber) (hx : HasType τ req.env x c (.scalar kind))
    (hy : HasType τ req.env y c' (.scalar kind)) :
    (s.call ev req call path [x, y] true impure).Safe (Context.WellTyped τ)
      (Fits d (.scalar kind)) := by
  rcases hname with hname | hname | hname
  · refine safe_callOf ev call _ impure (by rw [hname]; decide) (fun _ => by rw [hname]; rfl) ?_
    exact safe_quotient hs henv (fun _ _ => rfl) (Builtin.combinesLeaves_integerDivide hkind) hx hy
  · refine safe_callOf ev call _ impure (by rw [hname]; decide) (fun _ => by rw [hname]; rfl) ?_
    exact safe_quotient hs henv (fun _ _ => rfl) (Builtin.combinesLeaves_modulo hkind) hx hy
  · refine safe_callOf ev call _ impure (by rw [hname]; decide) (fun _ => by rw [hname]; rfl) ?_
    exact safe_quotient hs henv (fun _ _ => rfl) (Builtin.combinesLeaves_remainder hkind) hx hy

/-! ## Every form of expression -/

/-- Every rule is safe on a typed expression if the steps one level down are sound. -/
theorem safe_rule (hstart : start.WellTyped τ) {e : Expr} (he : HasType τ req.env e d t) :
    (s.rule ev req e).Safe (Context.WellTyped τ) (Fits d t) := by
  cases he with
  | integer n => exact safe_pure (.integer n)
  | real x => exact safe_pure (.real x)
  | bool b => exact safe_pure (.bool b)
  | string text => exact safe_pure (.string text)
  | enumeration path index => exact safe_pure (.enumeration path index)
  | array ty scalar h => exact safe_array hs henv ty h
  | matrix ty h => exact safe_matrix hs henv h
  | range ty hkind hstart hstep hstop => exact safe_range hs henv ty hkind hstart hstep hstop
  | tuple hlength h =>
    exact (safe_evalEach hs henv hlength h).bind fun vs hvs => safe_pure (.tuple hvs)
  | cast hkind h => exact safe_cast hs henv hkind h
  | castOther hkind h => exact safe_castOther hs henv hkind h
  | reference ty hvariable hsubscripts hfields =>
    exact safe_reference hs henv ev hstart ty hvariable hsubscripts hfields
  | arith hranks hop hlhs hrhs =>
    exact safe_binary hs henv hlhs hrhs fun a b ha hb => Value.safe_elementwise hranks hop ha hb
  | concat hlhs hrhs =>
    exact safe_binary hs henv hlhs hrhs fun a b ha hb => Value.safe_concatStrings ha hb
  | scalarProduct hlhs hrhs =>
    exact safe_binary hs henv hlhs hrhs fun a b ha hb => Value.safe_scalarProduct ha hb
  | unary op hkind h =>
    refine (safe_eval hs henv h).bind fun v hv => ?_
    exact safe_ofOutcome ((Value.safe_negate hkind hv).mono fun w hw => hw.solid)
  | logical op hlhs hrhs => exact safe_logical hs henv op hlhs hrhs
  | logicalNot h =>
    refine (safe_eval hs henv h).bind fun v hv => ?_
    exact safe_ofOutcome ((Value.safe_logicalNot hv).mono fun w hw => hw.solid)
  | relation op hlhs hrhs => exact safe_relation hs henv op hlhs hrhs
  | conditional hcondition hyes hno => exact safe_conditional hs henv hcondition hyes hno
  | builtin ty impure hrule hf hlength h =>
    exact safe_builtin hs henv ev _ impure hrule hf hlength h
  | noEvent ty impure hname h => exact safe_noEvent hs henv ev _ impure hname h
  | smooth ty impure hname h => exact safe_smooth hs henv ev _ impure hname h
  | quotient ty impure hname hkind hx hy =>
    exact safe_quotientCall hs henv ev _ impure hname hkind hx hy
  | record path names hlength h =>
    exact (safe_evalEach hs henv hlength h).bind fun vs hvs => safe_pure (.record hvs)
  | unionRecord path index names hlength h =>
    exact (safe_evalEach hs henv hlength h).bind fun vs hvs => safe_pure (.record hvs)
  | subscripted h hsubscripts =>
    exact (safe_eval hs henv h).bind fun v hv => safe_applySubscripts hs henv hsubscripts hv
  | component hindex h => exact safe_component hs henv hindex h
  | field hname ht h =>
    exact (safe_eval hs henv h).bind fun v hv => safe_ofOutcome (Value.safe_project hname ht hv)
  | sizes hdims h => exact safe_allSizes hs henv hdims h
  | size hdims h hdim => exact safe_size hs henv hdims h hdim
  | list h => exact (safe_evalAll hs henv h).bind fun vs hvs => safe_pure (Value.fits_listOf hvs)
  | cons hhead htail => exact safe_cons hs henv hhead htail
  | present h => exact (safe_eval hs henv h).bind fun v hv => safe_pure (.present hv)
  | absent => exact safe_pure .absent
  | boxed h => exact (safe_eval hs henv h).bind fun v hv => safe_pure (.boxed hv)
  | unbox ty h => exact safe_unbox hs henv h
  | reduction hiterators hbody hdefault h hresult =>
    exact safe_reduction hs henv hiterators hbody hdefault h hresult

end Steps

/-- Every step is sound in a well-typed environment, whatever the number of levels left. -/
theorem Evaluator.sound_steps (ev : Evaluator) {τ : KeyTypes} {start : Env}
    (hstart : start.WellTyped τ) (n : Nat) : (ev.steps n).Sound τ start := by
  induction n with
  | zero => exact fun _ _ _ _ _ _ _ => (EvalM.safe_count _).bind fun _ _ => safe_fail rfl
  | succ n ih =>
    intro k req e d t henv he
    cases k with
    | zero => exact (EvalM.safe_count _).bind fun _ _ => Steps.safe_rule ih henv ev hstart he
    | succ k => exact ih k req e d t henv he

/-- A typed expression in a well-typed environment, evaluated from a context that remembers values of
their types: with deferral or without, in any mode, it does not fail internally, and its value has
its type. -/
theorem typed_not_internal (ev : Evaluator) {τ : KeyTypes} {req : Request} {e : Expr} {d : Bool}
    {t : ValueType} {ctx : Context} (henv : req.env.WellTyped τ) (hctx : ctx.WellTyped τ)
    (he : HasType τ req.env e d t) (log : Log) :
    (∀ f, (ev.evaluate req e ctx log).1 = .error f → ∀ message, f.cause ≠ .internal message)
      ∧ ∀ v ctx', (ev.evaluate req e ctx log).1 = .ok (v, ctx') → v.Fits d t ∧ ctx'.WellTyped τ := by
  have hsteps := ev.sound_steps henv (ev.config.recursionLimit + 1)
  have heval := Steps.safe_eval hsteps (.refl req.env) he
  have hsafe : Outcome.Safe _ (ev.evaluate req e ctx log).1 :=
    heval.reporting req.reporting ctx log hctx
  generalize (ev.evaluate req e ctx log).1 = outcome at hsafe ⊢
  refine ⟨fun f hf => hsafe.not_internal hf, fun v ctx' hv => ?_⟩
  subst hv
  cases hsafe with
  | ok h => exact h

/-! ## Deferring at work -/

/-- The evaluator without neighbours, which may defer unbound variables. -/
def Evaluator.deferring (deferUnbound : Bool) : Evaluator :=
  .alone ⟨Config.defaultLimit, { Flags.none with deferUnbound := deferUnbound }⟩

/-- A scope with a parameter `n` that is bound to `1 + 1` and a parameter `k` that is not bound. -/
def Request.halfBound : Request where
  env :=
    let sum := Expr.binary (.integer 1) (.arith .add .scalars) (.integer 1)
    (Env.empty.define "n" ⟨.integer, .parameter, .expression sum .parameter none⟩).define "k"
      ⟨.integer, .parameter, .unbound⟩
  mode := .explicit
  reporting := .silent

/-- The type of `n`. -/
def KeyTypes.halfBound : KeyTypes := fun key =>
  if key = "n" then some (false, .scalar .integer) else none

/-- A reference to an Integer variable. -/
def Expr.integerVariable (name : String) : Expr := .reference [.mk name []] .integer

/-- The expression `{k, n}[n - 1] + 1`. -/
def Expr.pickedSum : Expr :=
  let difference := Expr.binary (.integerVariable "n") (.arith .sub .scalars) (.integer 1)
  .binary (.subscripted (.arrayOf [.integerVariable "k", .integerVariable "n"]) [.index difference])
    (.arith .add .scalars) (.integer 1)

/-- A reference of one part has nothing to select. -/
theorem Env.splitReference_singleton (env : Env) (part : RefPart) :
    env.splitReference [part] = ([part], []) := by
  simp only [splitReference, List.length_cons, List.length_nil, declaredPrefix]
  split
  · rename_i n h
    split at h <;> cases h
    rfl
  · rfl

/-- A variable of a type is an expression of the type. -/
theorem hasType_integerVariable {τ : KeyTypes} {env : Env} {name : String} {d : Bool} {t : ValueType}
    (h : VariableHasType τ env name d t) : HasType τ env (.integerVariable name) d t := by
  have hsplit := env.splitReference_singleton (.mk name [])
  have hsubscripts : SubscriptsPick τ env
      (Reference.subscripts (env.splitReference [.mk name []]).1) t t := by
    rw [hsplit]
    exact .nil
  refine .reference .integer ?_ hsubscripts ?_
  · rw [hsplit]
    exact h
  · rw [hsplit]
    exact .nil

/-- The environment with one bound and one unbound variable is well typed. -/
theorem wellTyped_halfBound : Request.halfBound.env.WellTyped .halfBound := by
  intro scope name declared e variability cached d t hframes hlookup hbinding hkey
  obtain rfl := Env.eq_of_outer_eq_nil rfl hframes
  have hmem := mem_of_lookup_eq_some hlookup
  simp only [Request.halfBound, Env.define, Env.empty, Frame.empty, List.mem_cons, List.not_mem_nil,
    or_false, Prod.mk.injEq] at hmem
  rcases hmem with ⟨rfl, rfl⟩ | ⟨rfl, rfl⟩
  · cases hbinding
  · cases hbinding
    cases hkey
    have hone : HasType .halfBound Request.halfBound.env (.integer 1) false (.scalar .integer) :=
      .integer 1
    exact ⟨.arith .scalars trivial hone hone, fun v hv => by cases hv⟩

/-- The sum that is picked from is an Integer. -/
theorem hasType_pickedSum {d : Bool} :
    HasType .halfBound Request.halfBound.env .pickedSum d (.scalar .integer) := by
  have hk : VariableHasType .halfBound Request.halfBound.env "k" true (.scalar .integer) :=
    .unbound rfl rfl rfl
  have hn : VariableHasType .halfBound Request.halfBound.env "n" true (.scalar .integer) :=
    .expression rfl rfl rfl fun _ => rfl
  have hone : HasType .halfBound Request.halfBound.env (.integer 1) true (.scalar .integer) :=
    .integer 1
  have helements : ∀ e ∈ [Expr.integerVariable "k", .integerVariable "n"],
      HasType .halfBound Request.halfBound.env e true (.scalar .integer) := by
    simp only [List.forall_mem_cons, List.not_mem_nil, false_implies, implies_true, and_true]
    exact ⟨hasType_integerVariable hk, hasType_integerVariable hn⟩
  have hdifference : HasType .halfBound Request.halfBound.env
      (.binary (.integerVariable "n") (.arith .sub .scalars) (.integer 1)) true
      (.scalar .integer) :=
    .arith .scalars trivial (hasType_integerVariable hn) hone
  have hposition : ScalarKind.integer.IsPosition := trivial
  refine .arith .scalars trivial (.subscripted (.array _ _ helements) ?_) hone
  exact .index hposition hdifference .nil

/-- The placeholder of `k` is picked and makes the sum not constant. Without deferral `k` is
unbound. -/
theorem typed_not_internal_pickedSum :
    (∀ f, ((Evaluator.deferring true).evaluate .halfBound .pickedSum .empty
        (.start .standard)).1 = .error f → ∀ message, f.cause ≠ .internal message)
      ∧ FailsFor .notConstant ((Evaluator.deferring true).evaluate .halfBound .pickedSum .empty
        (.start .standard)).1
      ∧ FailsFor (.unbound "k") ((Evaluator.deferring false).evaluate .halfBound .pickedSum .empty
        (.start .standard)).1 := by
  have hctx : Context.empty.WellTyped .halfBound := fun key v d t h => by cases h
  have hsafe := typed_not_internal (.deferring true) wellTyped_halfBound hctx
    (hasType_pickedSum (d := true)) (.start .standard)
  exact ⟨hsafe.1, ⟨_, rfl, rfl⟩, ⟨_, rfl, rfl⟩⟩

/-- The range `k:3`: without deferral `k` is unbound, and with it the placeholder of `k` is an
internal failure. -/
theorem range_over_placeholder :
    FailsFor (.unbound "k") ((Evaluator.deferring false).evaluate .halfBound
        (.rangeOf (.integerVariable "k") none (.integer 3)) .empty (.start .standard)).1
      ∧ FailsFor (.internal "range over empty and Integer")
        ((Evaluator.deferring true).evaluate .halfBound
          (.rangeOf (.integerVariable "k") none (.integer 3)) .empty (.start .standard)).1 := by
  exact ⟨⟨_, rfl, rfl⟩, ⟨_, rfl, rfl⟩⟩

end ModelicaFold
