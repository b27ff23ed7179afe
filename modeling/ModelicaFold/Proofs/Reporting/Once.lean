import ModelicaFold.Proofs.Reporting.Ledger
import ModelicaFold.Proofs.Runs.Bodies

/-!
# Failures are reported once

A failure is reported where evaluation was asked for and at the arguments of a call of a function of
the model. It is marked then, so that it is not reported again on its way. What a step hands over is
therefore told by its outcome: a diagnostic if it fails with a failure so marked, and else nothing
(`Ledger.accounts`); and with the report at the end the failures that are marked are those that are
wanted (`Ledger.settles`).

The rules for sizes are the exception. They give the failure of an operand up, or put one of their
own in its place, whether it is marked or not; the diagnostic of one that is marked stays behind
(`reported_once_lost`). So failures are reported once (`reported_once`) where none can have been
reported while a size is evaluated, because no function of the model is called, or because no size
that is asked for needs evaluation (`DropsNoReport`).
-/

namespace ModelicaFold

/-- Diagnostics after a step: that of a failure marked as reported has been handed over. -/
def DiagnosticQueue.after (q : DiagnosticQueue) : Option Failure → DiagnosticQueue
  | none => q
  | some f => if f.reported then (q.add f.diagnostic).2 else q

/-- A failure that is not reported leaves no diagnostic. -/
theorem DiagnosticQueue.after_unreported (q : DiagnosticQueue) {f : Failure}
    (h : f.reported = false) : q.after (some f) = q := by
  simp [after, h]

namespace Ledger

variable {α β : Type} {r : Reporting}

/-! ## Steps in which nothing is reported -/

/-- Nothing is handed over, and no failure is marked as reported. -/
def quiet : Ledger where
  Holds log failure log' :=
    log'.diagnostics = log.diagnostics ∧ ∀ f, failure = some f → f.reported = false
  same h := ⟨h, nofun⟩
  trans h h' := ⟨h'.1.trans h.1, h'.2⟩

/-- A failure with a cause keeps the quiet ledger. -/
theorem quiet_of (c : Cause) (log : Log) : quiet.Holds log (some (Failure.of c)) log :=
  ⟨rfl, fun f hf => by cases hf; rfl⟩

/-- If nothing has been reported, a failure may be caught without a trace. -/
theorem quiet_rescues (M : Expr → Prop) (r : Reporting) :
    (quiet.alignment quiet_of M r).Rescues := by
  intro α β x k hx hok herror hfatal ctx log
  have h := hx ctx log
  simp only [EvalM.bind_apply, EvalM.attempt]
  rcases hrun : x () ctx log with ⟨f | ⟨a, ctx'⟩, log'⟩
  · rw [hrun] at h
    by_cases hf : f.cause.isFatal = true
    · simp only [hfatal () f hf]
      exact h
    · have halike : ∀ log, quiet.Holds log (some f) log := fun log => ⟨rfl, h.2⟩
      have hhandled := herror (fun _ => f) halike (fun _ => by simpa using hf) ctx log'
      exact quiet.trans (quiet.same h.1) hhandled
  · rw [hrun] at h
    exact quiet.trans h (hok a ctx' log')

/-! ## Steps that account for what they hand over -/

/-- The diagnostic of a failure is handed over if this is marked as reported, and nothing else is.
Only wanted failures are marked. -/
def accounts (r : Reporting) : Ledger where
  Holds log failure log' :=
    log'.diagnostics = log.diagnostics.after failure
      ∧ ∀ f, failure = some f → f.reported = true → r.wants f.cause = true
  same h := ⟨h, nofun⟩
  trans := by
    intro log log' log'' failure h h'
    refine ⟨?_, h'.2⟩
    rw [h'.1, h.1]
    rfl

/-- A failure that is not reported is accounted for without a diagnostic. -/
theorem accounts_of_unreported {f : Failure} (h : f.reported = false) (log : Log) :
    (accounts r).Holds log (some f) log := by
  refine ⟨(log.diagnostics.after_unreported h).symm, fun g hg hreported => ?_⟩
  cases hg
  rw [h] at hreported
  cases hreported

/-- A failure with a cause is accounted for without a diagnostic. -/
theorem accounts_of (c : Cause) (log : Log) : (accounts r).Holds log (some (Failure.of c)) log :=
  accounts_of_unreported rfl log

/-- The diagnostic of a failure is handed over if this is wanted, and nothing else is. -/
def settles (r : Reporting) : Ledger where
  Holds log failure log' :=
    log'.diagnostics = log.diagnostics.after failure
      ∧ ∀ f, failure = some f → f.reported = r.wants f.cause
  same h := ⟨h, nofun⟩
  trans := by
    intro log log' log'' failure h h'
    refine ⟨?_, h'.2⟩
    rw [h'.1, h.1]
    rfl

/-- The report at the end marks a failure that is wanted and not marked yet, and hands its
diagnostic over only then. -/
theorem KeptBy.reporting {x : EvalM α} (h : (accounts r).KeptBy x) :
    (settles r).KeptBy (x.reporting r) := by
  intro ctx log
  obtain ⟨hdiagnostics, hwanted⟩ := h ctx log
  unfold EvalM.reporting
  rcases hrun : x ctx log with ⟨f | done, log'⟩
  · rw [hrun] at hdiagnostics hwanted
    have hwanted := hwanted f rfl
    simp only [Log.report]
    cases hreported : f.reported with
    | true =>
      refine ⟨hdiagnostics, fun g hg => ?_⟩
      cases hg
      exact hreported.trans (hwanted hreported).symm
    | false =>
      have hsame : log'.diagnostics = log.diagnostics :=
        hdiagnostics.trans (log.diagnostics.after_unreported hreported)
      cases hwants : r.wants f.cause with
      | true =>
        refine ⟨by rw [← hsame]; rfl, fun g hg => ?_⟩
        cases hg
        exact hwants.symm
      | false =>
        refine ⟨hdiagnostics, fun g hg => ?_⟩
        cases hg
        exact hreported.trans hwants.symm
  · rw [hrun] at hdiagnostics
    exact ⟨hdiagnostics, nofun⟩

/-- A step that settles its failures accounts for them. -/
theorem KeptBy.accounts_of_settles {x : EvalM α} (h : (settles r).KeptBy x) :
    (accounts r).KeptBy x := by
  intro ctx log
  obtain ⟨hdiagnostics, hmark⟩ := h ctx log
  exact ⟨hdiagnostics, fun f hf hreported => by rw [← hmark f hf, hreported]⟩

/-- A step in which nothing is reported accounts for its failures. -/
theorem KeptBy.accounts_of_quiet {x : EvalM α} (h : quiet.KeptBy x) : (accounts r).KeptBy x := by
  intro ctx log
  have h := h ctx log
  cases hfailure : EvalM.failure? (x ctx log).1 with
  | none =>
    rw [hfailure] at h
    exact ⟨h.1, nofun⟩
  | some f =>
    rw [hfailure] at h
    exact (accounts r).trans ((accounts r).same h.1) (accounts_of_unreported (h.2 f rfl) _)

/-- Steps that account for their failures may hand them over as diagnostics. -/
theorem accounts_reports (M : Expr → Prop) (r : Reporting) :
    ((accounts r).alignment accounts_of M r).Reports := by
  rintro α env mode rs x ⟨-, rfl⟩ hx
  exact (KeptBy.reporting hx).accounts_of_settles

end Ledger

/-! ## Where no report can be lost -/

/-- A call of a function of the model. -/
def Expr.isFunctionCall : Expr → Bool
  | .call _ _ _ builtin impure => !builtin && !impure
  | _ => false

/-- Nothing has to be evaluated for the dimensions that an expression announces. -/
def Expr.SizesKnown (e : Expr) : Prop :=
  ∀ d ∈ Steps.announced e, d.staticSize.isSome

/-- No failure that has been reported is caught when expressions of a set are met: none of them
calls a function of the model, or none asks for sizes that need evaluation. -/
inductive DropsNoReport (M : Expr → Prop) (entry : Entry) : Prop where
  | noCall (h : ∀ e, M e → e.isFunctionCall = false)
  | sizesKnown (hentry : ∀ req e, entry ≠ .dimension req (.computed e))
      (h : ∀ whole e, M whole → whole.measured? = some e → e.SizesKnown)

namespace Steps

variable {s : Steps} {req : Request}

/-- A size that needs no evaluation is given as it is. -/
theorem dimension_of_staticSize {d : Dimension} {n : Nat} (h : d.staticSize = some n) :
    s.dimension req d = pure n := by
  cases d with
  | known size => cases h; rfl
  | enumeration path size => cases h; rfl
  | boolean => cases h; rfl
  | computed e => cases h
  | unknown => cases h

/-- Known sizes are given without evaluation. -/
theorem sizes_of_sizesKnown {e : Expr} (h : e.SizesKnown) :
    s.sizes req e =
      match announced e with
      | [] => s.eval req e >>= fun v => pure v.dims
      | dims => pure (dims.filterMap Dimension.staticSize) := by
  have hdims : ∀ dims : List Dimension, (∀ d ∈ dims, d.staticSize.isSome) →
      dims.mapM (s.dimension req) = pure (dims.filterMap Dimension.staticSize) := by
    intro dims hdims
    induction dims with
    | nil => rfl
    | cons d ds ih =>
      obtain ⟨hd, hds⟩ := List.forall_mem_cons.mp hdims
      obtain ⟨n, hn⟩ := Option.isSome_iff_exists.mp hd
      rw [List.mapM_cons, dimension_of_staticSize hn, ih hds, List.filterMap_cons_some hn]
      rfl
  unfold Expr.SizesKnown at h
  unfold sizes
  cases hannounced : announced e with
  | nil => rfl
  | cons d ds =>
    rw [hannounced] at h
    simp only [hdims (d :: ds) h]
    rfl

end Steps

namespace Ledger

variable {r : Reporting} {ev : Evaluator} {M : Expr → Prop}

/-- Without calls of functions of the model nothing is reported on the way. -/
theorem stepwise_quiet (hkeeps : ev.KeepsTo M) (hcalls : ∀ e, M e → e.isFunctionCall = false)
    (n : Nat) :
    (quiet.alignment quiet_of M r).Stepwise ev (fun _ => ev.config.recursionLimit)
      fun _ => ev.steps n := by
  refine stepwise hkeeps (@fun s _ _ henv heval => ?_) (fun _ _ => ?_) n
  · intro whole e hwhole he
    exact Alignment.sizes_of_rescues (A := quiet.alignment quiet_of M r) (s := fun _ => s)
      (r := fun _ => r) heval (quiet_rescues M r) hkeeps (hkeeps.measured hwhole he)
  · intro path args ty hcall
    cases hcalls _ hcall

/-- A function of the model that cannot be executed fails for a cause of its own. -/
theorem callFunction_accounts (hnothing : ev.ExecutesNothing) {s : Steps} {env : Env} {mode : Mode}
    {call : Expr} {path : Path} {args : List Expr}
    (hargs : (accounts r).KeptBy (s.arguments ⟨env, mode, r⟩ args)) :
    (accounts r).KeptBy (s.callFunction ev ⟨env, mode, r⟩ call path args) := by
  have hdelegate : ∀ values, s.delegate ev ⟨env, mode, r⟩ call values =
      EvalM.count (fun c => { c with functionCalls := c.functionCalls + 1 }) >>= fun _ =>
        EvalM.fail .notConstant := by
    intro values
    unfold Steps.delegate
    rw [hnothing]
  have hcount : ∀ g, (accounts r).KeptBy (EvalM.count g) := fun g _ _ => (accounts r).same rfl
  refine hargs.bind fun values => ?_
  simp only [hdelegate]
  cases hfunction : Builtin.External.function? env path with
  | none => exact (hcount _).bind fun _ => .throw (accounts_of _)
  | some f =>
    refine (hcount _).bind fun _ => ?_
    cases hknown : f values with
    | ok v => exact .pure v
    | error known =>
      obtain ⟨c, rfl, -⟩ := Builtin.External.ordinary_of_external hfunction values known hknown
      -- the executor is asked and refuses, which is not more telling
      have hkept : EvalM.moreTelling (Failure.of c) (Failure.of .notConstant) = Failure.of c :=
        if_pos (Nat.zero_le _)
      have hrefused : (accounts r).KeptBy
          (EvalM.count (fun c => { c with functionCalls := c.functionCalls + 1 }) >>= fun _ =>
            (EvalM.throw (EvalM.moreTelling (Failure.of c) (Failure.of .notConstant)) :
              EvalM Value)) := by
        rw [hkept]
        exact (hcount _).bind fun _ => .throw (accounts_of c)
      exact hrefused

/-- Where sizes are known and no body is executed, every step accounts for its failures. -/
theorem stepwise_accounts (hkeeps : ev.KeepsTo M) (hnothing : ev.ExecutesNothing)
    (hsizes : ∀ whole e, M whole → whole.measured? = some e → e.SizesKnown) (n : Nat) :
    ((accounts r).alignment accounts_of M r).Stepwise ev (fun _ => ev.config.recursionLimit)
      fun _ => ev.steps n := by
  refine stepwise hkeeps (fun henv heval => ?_) (@fun s _ _ henv heval => ?_) n
  · intro whole e hwhole he
    rw [Steps.sizes_of_sizesKnown (hsizes whole e hwhole he)]
    cases Steps.announced e with
    | nil => exact (heval 0 (hkeeps.measured hwhole he)).bind fun v => .pure v.dims
    | cons d ds => exact .pure _
  · intro path args ty hcall
    refine callFunction_accounts hnothing ?_
    exact Alignment.arguments (A := (accounts r).alignment accounts_of M r) (s := fun _ => s)
      (r := fun _ => r) heval ⟨henv, rfl⟩ (accounts_reports M r) (hkeeps.parts hcall)

/-- With the report at the end every entry point hands over what is wanted. -/
theorem settles_run (hkeeps : ev.KeepsTo M) (hnothing : ev.ExecutesNothing) {entry : Entry}
    (henv : entry.request.env.KeepsTo M) (hexprs : ∀ e ∈ entry.exprs, M e)
    (hdrops : DropsNoReport M entry) :
    (settles entry.request.reporting).KeptBy (entry.run ev) := by
  cases hdrops with
  | noCall hcalls =>
    have hsteps := stepwise_quiet (r := entry.request.reporting) hkeeps hcalls
      (ev.config.recursionLimit + 1)
    refine hsteps.run (P := fun x => (settles entry.request.reporting).KeptBy (x ())) hexprs
      ⟨henv, rfl⟩ (fun _ _ _ => quiet_rescues M _) (fun hx => ?_) KeptBy.mapM
    exact KeptBy.reporting (KeptBy.accounts_of_quiet hx)
  | sizesKnown hentry hsizes =>
    have hsteps := stepwise_accounts (r := entry.request.reporting) hkeeps hnothing hsizes
      (ev.config.recursionLimit + 1)
    exact hsteps.run (P := fun x => (settles entry.request.reporting).KeptBy (x ())) hexprs
      ⟨henv, rfl⟩ (fun req e he => absurd he (hentry req e)) KeptBy.reporting KeptBy.mapM

end Ledger

/-- Failures are reported once: a located request hands over exactly the diagnostic of the failure
it ends in, if that is of a reportable kind, and nothing if it ends in another failure or gives a
result. -/
theorem reported_once (ev : Evaluator) (hnothing : ev.ExecutesNothing) {M : Expr → Prop}
    (hkeeps : ev.KeepsTo M) (entry : Entry) (henv : entry.request.env.KeepsTo M)
    (hexprs : ∀ e ∈ entry.exprs, M e) (hdrops : DropsNoReport M entry) {span : Span}
    (hlocated : entry.request.reporting = .located span) (ctx : Context) (log : Log) :
    (∀ done, (entry.run ev ctx log).1 = .ok done →
        (entry.run ev ctx log).2.diagnostics = log.diagnostics)
      ∧ ∀ f, (entry.run ev ctx log).1 = .error f →
        (entry.run ev ctx log).2.diagnostics =
          if f.cause.isReportable then (log.diagnostics.add f.diagnostic).2
          else log.diagnostics := by
  have hwants : ∀ c, (Reporting.located span).wants c = c.isReportable := by
    intro c
    cases c <;> rfl
  obtain ⟨hdiagnostics, hmark⟩ :=
    Ledger.settles_run hkeeps hnothing henv hexprs hdrops ctx log
  constructor
  · intro done hdone
    rw [hdiagnostics, hdone]
    rfl
  · intro f hf
    rw [hf] at hdiagnostics hmark
    have hmark := hmark f rfl
    rw [hlocated, hwants] at hmark
    rw [hdiagnostics, ← hmark]
    rfl

/-- The quotient `1 / 0`. -/
def Expr.oneByZero : Expr := .binary (.integer 1) (.arith .div .scalars) (.integer 0)

/-- The call `f(1 / 0)` of a function of the model. -/
def Expr.callByZero : Expr := .call (.ident "f") [.oneByZero] .unknown false false

/-- A request in which failures are reported at bytes 3 to 7. -/
def Request.locatedIn (env : Env) : Request := ⟨env, .explicit, .located ⟨3, 7⟩⟩

/-- The failure of an argument is reported with it, and not once more with the call. -/
theorem reported_once_argument :
    ∃ f, ((Entry.expression (.locatedIn .empty) .callByZero).run (.alone ⟨9, .none⟩) .empty
          (.start .unlimited)).1 = .error f
      ∧ f.cause = .divisionByZero "1" "0"
      ∧ ((Entry.expression (.locatedIn .empty) .callByZero).run (.alone ⟨9, .none⟩) .empty
          (.start .unlimited)).2.diagnostics.held = [f.diagnostic] := by
  let M : Expr → Prop := fun e =>
    e = .callByZero ∨ e = .oneByZero ∨ e = .integer 1 ∨ e = .integer 0
  have hkeeps : (Evaluator.alone ⟨9, .none⟩).KeepsTo M := by
    refine ⟨?_, id, fun h => by cases h⟩
    rintro e (rfl | rfl | rfl | rfl) part hpart
    · exact .inr (.inl (List.mem_singleton.mp hpart))
    · simp only [Expr.parts, Expr.oneByZero, Expr.children, List.mem_cons, List.not_mem_nil,
        or_false] at hpart
      exact .inr (.inr hpart)
    · cases hpart
    · cases hpart
  have hsizes : ∀ whole e, M whole → whole.measured? = some e → e.SizesKnown := by
    rintro whole e (rfl | rfl | rfl | rfl) he <;> cases he
  have hfails : ∃ f, ((Entry.expression (.locatedIn .empty) .callByZero).run (.alone ⟨9, .none⟩)
      .empty (.start .unlimited)).1 = .error f ∧ f.cause = .divisionByZero "1" "0" := ⟨_, rfl, rfl⟩
  obtain ⟨f, hf, hcause⟩ := hfails
  refine ⟨f, hf, hcause, ?_⟩
  have honce := (reported_once (.alone ⟨9, .none⟩) rfl hkeeps
    (.expression (.locatedIn .empty) .callByZero) Env.keepsTo_empty
    (fun e he => .inl (List.mem_singleton.mp he)) (.sizesKnown (fun _ _ h => by cases h) hsizes)
    rfl .empty
    (.start .unlimited)).2 f hf
  rw [honce, hcause]
  rfl

/-- An array `x` of two elements, whose declared dimension is `f(1 / 0)`. -/
def Expr.sizedByCall : Expr :=
  .reference [.mk "x" []] (.array .integer [.computed .callByZero])

/-- The report of a failure is lost where a size is evaluated: `size(x)` gives the size of the value
and the failure of the declared dimension is handed over all the same, and for the dimension itself
two failures are handed over. -/
theorem reported_once_lost :
    (∃ ctx, ((Entry.expression (.locatedIn (Env.empty.define "x"
            ⟨.array .integer [.computed .callByZero], .parameter,
              .value (.array #[.integer 1, .integer 2] [2])⟩)) (.size .sizedByCall none)).run
          (.alone ⟨9, .none⟩) .empty (.start .unlimited)).1
        = .ok (.array #[.integer 2] [1], ctx))
      ∧ ((Entry.expression (.locatedIn (Env.empty.define "x"
            ⟨.array .integer [.computed .callByZero], .parameter,
              .value (.array #[.integer 1, .integer 2] [2])⟩)) (.size .sizedByCall none)).run
          (.alone ⟨9, .none⟩) .empty (.start .unlimited)).2.diagnostics.held.length = 1
      ∧ ((Entry.dimension (.locatedIn .empty) (.computed .callByZero)).run
          (.alone ⟨9, .none⟩) .empty (.start .unlimited)).2.diagnostics.held.length = 2 :=
  ⟨⟨_, rfl⟩, rfl, rfl⟩

end ModelicaFold
