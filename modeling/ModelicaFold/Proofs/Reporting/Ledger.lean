import ModelicaFold.Proofs.Runs.Entry

/-!
# What evaluation does to the log

A `Ledger` says what may become of a log in a step, depending on whether the step ends in a failure
and in which one. That every step of an evaluation does this is an alignment of a single run
(`Ledger.alignment`), so that only the rules have to be looked at that catch failures
(`Ledger.stepwise`).
-/

namespace ModelicaFold

/-- The failure of an outcome. -/
def EvalM.failure? {α : Type} : Except Failure α → Option Failure
  | .ok _ => none
  | .error f => some f

/-- What may become of a log in a step that succeeds, or that ends in a failure. -/
structure Ledger where
  Holds : Log → Option Failure → Log → Prop
  /-- It does not matter what else happens to the log if the diagnostics stay. -/
  same : ∀ {log log' : Log}, log'.diagnostics = log.diagnostics → Holds log none log'
  trans : ∀ {log log' log'' : Log} {failure : Option Failure},
    Holds log none log' → Holds log' failure log'' → Holds log failure log''

namespace Ledger

variable {L : Ledger} {α β : Type}

/-- A step does to the log what a ledger allows, from every context and log. -/
def KeptBy (L : Ledger) (x : EvalM α) : Prop :=
  ∀ ctx log, L.Holds log (EvalM.failure? (x ctx log).1) (x ctx log).2

namespace KeptBy

/-- A pure step keeps a ledger. -/
theorem pure (a : α) : L.KeptBy (Pure.pure a : EvalM α) :=
  fun _ _ => L.same rfl

/-- A failure keeps a ledger if the ledger allows it without a change of the log. -/
theorem throw {f : Failure} (h : ∀ log, L.Holds log (some f) log) :
    L.KeptBy (EvalM.throw f : EvalM α) :=
  fun _ log => h log

/-- A sequence keeps a ledger if its parts do. -/
theorem bind {x : EvalM α} {k : α → EvalM β} (hx : L.KeptBy x) (hk : ∀ a, L.KeptBy (k a)) :
    L.KeptBy (x >>= k) := by
  intro ctx log
  have h := hx ctx log
  rw [EvalM.bind_apply]
  rcases hrun : x ctx log with ⟨f | ⟨a, ctx'⟩, log'⟩
  · rw [hrun] at h
    exact h
  · rw [hrun] at h
    exact L.trans h (hk a ctx' log')

/-- Mapping a list keeps a ledger if the steps do. -/
theorem mapM {f : α → EvalM β} {items : List α} (h : ∀ a ∈ items, L.KeptBy (f a)) :
    L.KeptBy (items.mapM f) := by
  induction items with
  | nil => exact pure []
  | cons a items ih =>
    rw [List.mapM_cons]
    refine (h a List.mem_cons_self).bind fun b => ?_
    exact (ih fun c hc => h c (List.mem_cons_of_mem a hc)).bind fun bs => pure (b :: bs)

end KeptBy

/-- A ledger as a property of single runs with one reporting, in which only the expressions of a set
are met. New failures are those that nobody has been told of. -/
def alignment (L : Ledger) (hnew : ∀ c log, L.Holds log (some (Failure.of c)) log)
    (M : Expr → Prop) (r : Reporting) : Alignment Unit where
  Aligned x := L.KeptBy (x ())
  Alike f := ∀ log, L.Holds log (some (f ())) log
  Admits env _ rs := env.KeepsTo M ∧ rs () = r
  Meets := M
  isFatal_eq _ _ _ := rfl
  alike_moreTelling {f g} hf hg := by
    change ∀ log, L.Holds log (some (EvalM.moreTelling (f ()) (g ()))) log
    unfold EvalM.moreTelling
    split
    · exact hf
    · exact hg
  alike_of c := hnew c
  Iterates := True
  admits_bindValues h name kind bindings _ := ⟨h.1.bindValues name kind bindings, h.2⟩
  iterates _ := trivial
  admits_keepsTo h := h.1
  pure a := .pure a
  throw h := .throw h
  bind := .bind
  modifyLog h _ log := L.same (h.diagnostics log)

section

variable {hnew : ∀ c log, L.Holds log (some (Failure.of c)) log} {M : Expr → Prop} {r : Reporting}
  {ev : Evaluator}

/-- Every step does to the log what a ledger allows, if the rules do that catch failures. -/
theorem stepwise (hkeeps : ev.KeepsTo M)
    (hsizes : ∀ {s : Steps} {env : Env} {mode : Mode}, env.KeepsTo M →
      (∀ k {e}, M e → L.KeptBy (s.evalAfter k ⟨env, mode, r⟩ e)) →
      ∀ {whole e : Expr}, M whole → whole.measured? = some e →
        L.KeptBy (s.sizes ⟨env, mode, r⟩ e))
    (hcalls : ∀ {s : Steps} {env : Env} {mode : Mode}, env.KeepsTo M →
      (∀ k {e}, M e → L.KeptBy (s.evalAfter k ⟨env, mode, r⟩ e)) →
      ∀ {path : Path} {args : List Expr} {ty : Ty}, M (.call path args ty false false) →
        L.KeptBy
          (s.callFunction ev ⟨env, mode, r⟩ (.call path args ty false false) path args))
    (n : Nat) :
    (L.alignment hnew M r).Stepwise ev (fun _ => ev.config.recursionLimit) fun _ => ev.steps n := by
  have hrefuse : ∀ {α : Type}, (L.alignment hnew M r).Aligned fun _ =>
      ((ev.withLimit ev.config.recursionLimit).refuse : EvalM α) :=
    KeptBy.bind (fun _ _ => L.same rfl) fun _ => .throw (hnew _)
  refine Alignment.stepwise_steps (A := L.alignment hnew M r) hrefuse (fun heval hsplice => ?_) n
  refine
    { inside := hkeeps.inside, simplify := hkeeps.simplify, keeps := hkeeps, evalAfter := heval,
      splice := hsplice, force := ?_, sizes := ?_, callFunction := ?_ }
  · rintro env mode rs ⟨henv, hrs⟩ name found e variability hfound hbinding
    obtain ⟨he, henv'⟩ := henv.lookup hfound hbinding
    exact Alignment.force_of_eval (A := L.alignment hnew M r) (fun _ _ => L.same rfl)
      (fun _ _ _ => L.same rfl) (heval ⟨henv', hrs⟩ 0 he)
  · rintro env mode rs ⟨henv, hrs⟩ whole e hwhole he
    have hadmits : (L.alignment hnew M r).Admits env mode rs := ⟨henv, hrs⟩
    have heval' := fun k {e} (he : M e) => heval hadmits k he
    subst hrs
    exact hsizes henv heval' hwhole he
  · rintro env mode rs ⟨henv, hrs⟩ path args ty hcall
    have hadmits : (L.alignment hnew M r).Admits env mode rs := ⟨henv, hrs⟩
    have heval' := fun k {e} (he : M e) => heval hadmits k he
    subst hrs
    exact hcalls henv heval' hcall

end

end Ledger

end ModelicaFold
