import ModelicaFold.Proofs.Runs.Entry

/-!
# Reporting does not influence evaluation

A request says whether and where failures are reported. Evaluation may hand diagnostics over on its
way, and marks a failure of which it has done so; neither has an influence on values, contexts,
counters, printed text or the causes of failures (`reporting_indifferent`). What a silent request
hands over are only errors of the evaluator itself, without a place.

Several runs are compared that differ in their reporting and in the diagnostics handed over before
them (`Impartial`). The executor of functions has no reporting of its own: it is assumed to evaluate
bodies silently and to leave the diagnostics alone (`Silent`).
-/

namespace ModelicaFold

open Outcome

/-! ## What is handed over -/

/-- Adds diagnostics one after the other. -/
def DiagnosticQueue.addAll (q : DiagnosticQueue) (ds : List Diagnostic) : DiagnosticQueue :=
  ds.foldl (fun q d => (q.add d).2) q

/-- Diagnostics may be handed over one part after the other. -/
theorem DiagnosticQueue.addAll_append (q : DiagnosticQueue) (ds ds' : List Diagnostic) :
    q.addAll (ds ++ ds') = (q.addAll ds).addAll ds' :=
  List.foldl_append

/-- The diagnostic of an error of the evaluator itself that has no place. -/
def Diagnostic.IsInternal (d : Diagnostic) : Prop :=
  d.code = ⟨9001⟩ ∧ d.primarySpan? = none

namespace Failure

/-- The failure after a report, and what is handed over with it. -/
def handOver (r : Reporting) (f : Failure) : Failure × List Diagnostic :=
  if f.reported || !r.wants f.cause then (f, [])
  else
    let placed := { f with span := r.span?.or f.span }
    ({ placed with reported := true }, [placed.diagnostic])

/-- The marks of a failure are possible ones: only wanted failures are reported, and a silent
request knows no place. -/
structure Suits (f : Failure) (r : Reporting) : Prop where
  wanted : f.reported = true → r.wants f.cause = true
  placeless : r = .silent → f.span = none

variable {f : Failure} {r : Reporting}

/-- A failure that is neither reported nor located suits any reporting. -/
theorem suits_of_unreported (hreported : f.reported = false) (hspan : f.span = none)
    (r : Reporting) : f.Suits r := by
  refine ⟨fun h => ?_, fun _ => hspan⟩
  rw [hreported] at h
  cases h

/-- What is wanted in a silent request is wanted in any. -/
theorem Suits.of_silent (h : f.Suits .silent) (r : Reporting) : f.Suits r := by
  refine ⟨fun hreported => ?_, fun _ => h.placeless rfl⟩
  have hwanted : f.cause.alwaysReported = true := h.wanted hreported
  rw [Reporting.wants, hwanted, Bool.or_true]

/-- Handing a failure over does not change its cause. -/
theorem cause_handOver (r : Reporting) (f : Failure) : (f.handOver r).1.cause = f.cause := by
  unfold handOver
  split <;> rfl

/-- A failure that is handed over still suits the reporting. -/
theorem Suits.handOver (h : f.Suits r) : (f.handOver r).1.Suits r := by
  unfold Failure.handOver
  split
  · exact h
  · rename_i hreport
    simp only [Bool.or_eq_true, Bool.not_eq_true', not_or, Bool.not_eq_false] at hreport
    refine ⟨fun _ => hreport.2, ?_⟩
    rintro rfl
    exact h.placeless rfl

/-- After a report the failures that are wanted are the ones marked. -/
theorem Suits.reported_handOver (h : f.Suits r) : (f.handOver r).1.reported = r.wants f.cause := by
  unfold Failure.handOver
  cases hreported : f.reported with
  | true =>
    rw [h.wanted hreported]
    exact hreported
  | false =>
    cases hwants : r.wants f.cause with
    | true => rfl
    | false => exact hreported

/-- In a silent request nothing but an error of the evaluator itself is handed over. -/
theorem Suits.isInternal (h : f.Suits .silent) {d : Diagnostic}
    (hd : d ∈ (f.handOver .silent).2) : d.IsInternal := by
  have hspan := h.placeless rfl
  obtain ⟨cause, span, notes, reported⟩ := f
  unfold Failure.handOver at hd
  split at hd
  · cases hd
  · rename_i hreport
    obtain rfl := List.mem_singleton.mp hd
    cases hspan
    cases cause with
    | internal message => exact ⟨rfl, rfl⟩
    | _ => exact absurd (Bool.or_true reported) hreport

end Failure

/-- A report hands the failure over and adds its diagnostics to those of the log. -/
theorem Log.report_eq_handOver (log : Log) (r : Reporting) (f : Failure) :
    log.report r f =
      ((f.handOver r).1,
        { log with diagnostics := log.diagnostics.addAll (f.handOver r).2 }) := by
  unfold Log.report Failure.handOver
  split <;> rfl

/-! ## Runs that differ in their reporting -/

/-- A step that has nothing to do with diagnostics: it neither looks at those handed over nor hands
any over, and its failures are new ones. -/
structure EvalM.Discreet {α : Type} (x : EvalM α) : Prop where
  blind : ∀ ctx log q,
    x ctx { log with diagnostics := q }
      = ((x ctx log).1, { (x ctx log).2 with diagnostics := q })
  new : ∀ ctx log f, (x ctx log).1 = .error f → f.reported = false ∧ f.span = none

section

variable {ι : Type} (r : ι → Reporting) {α β : Type}

/-- Failures of runs with a reporting each, for one cause. -/
structure AlikeButReports (f : ι → Failure) : Prop where
  cause : ∀ i j, (f i).cause = (f j).cause
  suits : ∀ i, (f i).Suits (r i)

/-- How runs with a reporting each end that begin with the same context, and with logs that are the
same but for the diagnostics. What they hand over does not depend on the diagnostics handed over
before. -/
inductive EndAlike (x : ι → EvalM α) (ctx : Context) (counters : Counters) (printed : String)
    (crashed : Bool) : Prop where
  | ok (a : α) (ctx' : Context) (counters' : Counters) (printed' : String) (crashed' : Bool)
      (handed : ι → List Diagnostic)
      (hrun : ∀ i q, x i ctx ⟨counters, printed, q, crashed⟩
        = (.ok (a, ctx'), ⟨counters', printed', q.addAll (handed i), crashed'⟩))
      (hinternal : ∀ i, r i = .silent → ∀ d ∈ handed i, d.IsInternal)
  | error (f : ι → Failure) (counters' : Counters) (printed' : String) (crashed' : Bool)
      (handed : ι → List Diagnostic)
      (hrun : ∀ i q, x i ctx ⟨counters, printed, q, crashed⟩
        = (.error (f i), ⟨counters', printed', q.addAll (handed i), crashed'⟩))
      (hf : AlikeButReports r f)
      (hinternal : ∀ i, r i = .silent → ∀ d ∈ handed i, d.IsInternal)

/-- Steps with a reporting each that do the same but for what they hand over. -/
def Impartial (x : ι → EvalM α) : Prop :=
  ∀ ctx counters printed crashed, EndAlike r x ctx counters printed crashed

variable {r}

/-- Failures that suit silent requests suit others. -/
theorem AlikeButReports.of_silent {f : Failure} (h : f.Suits .silent) :
    AlikeButReports r fun _ => f :=
  ⟨fun _ _ => rfl, fun i => h.of_silent (r i)⟩

/-- Runs that end alike have the same outcome but for the marks of failures, and print and count
the same. -/
theorem EndAlike.same {x : ι → EvalM α} {ctx : Context} {counters : Counters} {printed : String}
    {crashed : Bool} (h : EndAlike r x ctx counters printed crashed) (i j : ι)
    (q : DiagnosticQueue) :
    (x i ctx ⟨counters, printed, q, crashed⟩).1.mapError Failure.cause
        = (x j ctx ⟨counters, printed, q, crashed⟩).1.mapError Failure.cause
      ∧ (x i ctx ⟨counters, printed, q, crashed⟩).2.printed
        = (x j ctx ⟨counters, printed, q, crashed⟩).2.printed
      ∧ (x i ctx ⟨counters, printed, q, crashed⟩).2.counters
        = (x j ctx ⟨counters, printed, q, crashed⟩).2.counters := by
  cases h with
  | ok a ctx' counters' printed' crashed' handed hrun hinternal =>
    rw [hrun i, hrun j]
    exact ⟨rfl, rfl, rfl⟩
  | error f counters' printed' crashed' handed hrun hf hinternal =>
    rw [hrun i, hrun j]
    exact ⟨congrArg Except.error (hf.cause i j), rfl, rfl⟩

/-- A silent run hands over nothing but errors of the evaluator itself. -/
theorem EndAlike.handsInternal {x : ι → EvalM α} {ctx : Context} {counters : Counters}
    {printed : String} {crashed : Bool} (h : EndAlike r x ctx counters printed crashed) {i : ι}
    (hi : r i = .silent) :
    ∃ handed : List Diagnostic, (∀ d ∈ handed, d.IsInternal)
      ∧ ∀ q, (x i ctx ⟨counters, printed, q, crashed⟩).2.diagnostics = q.addAll handed := by
  cases h with
  | ok a ctx' counters' printed' crashed' handed hrun hinternal =>
    exact ⟨handed i, hinternal i hi, fun q => by rw [hrun]⟩
  | error f counters' printed' crashed' handed hrun hf hinternal =>
    exact ⟨handed i, hinternal i hi, fun q => by rw [hrun]⟩

/-- Runs that come to steps which end alike, after handing something over. -/
theorem EndAlike.after {x y : ι → EvalM α} {ctx ctx' : Context} {counters counters' : Counters}
    {printed printed' : String} {crashed crashed' : Bool} {handed : ι → List Diagnostic}
    (h : EndAlike r y ctx' counters' printed' crashed')
    (hstep : ∀ i q, x i ctx ⟨counters, printed, q, crashed⟩
      = y i ctx' ⟨counters', printed', q.addAll (handed i), crashed'⟩)
    (hinternal : ∀ i, r i = .silent → ∀ d ∈ handed i, d.IsInternal) :
    EndAlike r x ctx counters printed crashed := by
  have hboth : ∀ {more : ι → List Diagnostic},
      (∀ i, r i = .silent → ∀ d ∈ more i, d.IsInternal) →
      ∀ i, r i = .silent → ∀ d ∈ handed i ++ more i, d.IsInternal :=
    fun hmore i hi d hd =>
      (List.mem_append.mp hd).elim (hinternal i hi d) (hmore i hi d)
  cases h with
  | ok a ctx'' counters'' printed'' crashed'' more hrun hmore =>
    refine .ok a ctx'' counters'' printed'' crashed'' (fun i => handed i ++ more i) (fun i q => ?_)
      (hboth hmore)
    rw [hstep, hrun, DiagnosticQueue.addAll_append]
  | error f counters'' printed'' crashed'' more hrun hf hmore =>
    refine .error f counters'' printed'' crashed'' (fun i => handed i ++ more i) (fun i q => ?_) hf
      (hboth hmore)
    rw [hstep, hrun, DiagnosticQueue.addAll_append]

namespace Impartial

variable {x : ι → EvalM α}

/-- A step that has nothing to do with diagnostics. -/
theorem of_discreet {x : EvalM α} (h : x.Discreet) : Impartial r fun _ => x := by
  intro ctx counters printed crashed
  let log : Log := ⟨counters, printed, .empty .unlimited, crashed⟩
  have hrun : ∀ q, x ctx ⟨counters, printed, q, crashed⟩
      = ((x ctx log).1, { (x ctx log).2 with diagnostics := q }) := h.blind ctx log
  cases hout : (x ctx log).1 with
  | ok done =>
    refine .ok done.1 done.2 (x ctx log).2.counters (x ctx log).2.printed (x ctx log).2.crashed
      (fun _ => []) (fun _ q => ?_) nofun
    rw [hrun, hout]
    rfl
  | error f =>
    obtain ⟨hreported, hspan⟩ := h.new ctx log f hout
    have hf := Failure.suits_of_unreported hreported hspan
    refine .error (fun _ => f) (x ctx log).2.counters (x ctx log).2.printed (x ctx log).2.crashed
      (fun _ => []) (fun _ q => ?_) (.of_silent (hf _)) nofun
    rw [hrun, hout]
    rfl

/-- A step that gives the same from all contexts and logs but for what it does to them. -/
theorem of_ok {x : EvalM α} (a : Context → α) (change : Context → Context) (note : Log → Log)
    (h : ∀ ctx log, x ctx log = (.ok (a ctx, change ctx), note log))
    (hblind : ∀ log q, note { log with diagnostics := q } = { note log with diagnostics := q }) :
    Impartial r fun _ => x := by
  refine of_discreet ⟨fun ctx log q => ?_, fun ctx log f hf => ?_⟩
  · rw [h, h, hblind]
  · rw [h] at hf
    cases hf

/-- Failures that are alike but for reports make impartial steps. -/
theorem throw {f : ι → Failure} (hf : AlikeButReports r f) :
    Impartial r fun i => (EvalM.throw (f i) : EvalM α) :=
  fun _ counters printed crashed =>
    .error f counters printed crashed (fun _ => []) (fun _ _ => rfl) hf nofun

/-- A step that the limit refuses. -/
theorem refuse (ev : Evaluator) : Impartial r fun _ => (ev.refuse : EvalM α) :=
  of_discreet ⟨fun _ _ _ => rfl, fun _ _ f hf => by cases hf; exact ⟨rfl, rfl⟩⟩

/-- Sequences are impartial if their parts are. -/
theorem bind {k : ι → α → EvalM β} (hx : Impartial r x) (hk : ∀ a, Impartial r fun i => k i a) :
    Impartial r fun i => x i >>= k i := by
  intro ctx counters printed crashed
  cases hx ctx counters printed crashed with
  | ok a ctx' counters' printed' crashed' handed hrun hinternal =>
    refine (hk a ctx' counters' printed' crashed').after (fun i q => ?_) hinternal
    rw [EvalM.bind_apply, hrun]
  | error f counters' printed' crashed' handed hrun hf hinternal =>
    refine .error f counters' printed' crashed' handed (fun i q => ?_) hf hinternal
    rw [EvalM.bind_apply, hrun]

/-- A failure may be handled in any way that does the same in all runs. -/
theorem handle {k : ι → Except Failure α → EvalM β} (hx : Impartial r x)
    (hok : ∀ a, Impartial r fun i => k i (.ok a))
    (herror : ∀ f, AlikeButReports r f → Impartial r fun i => k i (.error (f i))) :
    Impartial r fun i => (x i).attempt >>= k i := by
  intro ctx counters printed crashed
  cases hx ctx counters printed crashed with
  | ok a ctx' counters' printed' crashed' handed hrun hinternal =>
    refine (hok a ctx' counters' printed' crashed').after (fun i q => ?_) hinternal
    rw [EvalM.bind_apply, EvalM.attempt, hrun]
  | error f counters' printed' crashed' handed hrun hf hinternal =>
    refine (herror f hf ctx counters' printed' crashed').after (fun i q => ?_) hinternal
    rw [EvalM.bind_apply, EvalM.attempt, hrun]

/-- Reporting a failure leaves steps impartial. -/
theorem reporting (hx : Impartial r x) : Impartial r fun i => (x i).reporting (r i) := by
  intro ctx counters printed crashed
  cases hx ctx counters printed crashed with
  | ok a ctx' counters' printed' crashed' handed hrun hinternal =>
    refine .ok a ctx' counters' printed' crashed' handed (fun i q => ?_) hinternal
    rw [EvalM.reporting, hrun]
  | error f counters' printed' crashed' handed hrun hf hinternal =>
    refine .error (fun i => ((f i).handOver (r i)).1) counters' printed' crashed'
      (fun i => handed i ++ ((f i).handOver (r i)).2) (fun i q => ?_) ?_ ?_
    · rw [EvalM.reporting, hrun, DiagnosticQueue.addAll_append]
      simp only [Log.report_eq_handOver]
    · refine ⟨fun i j => ?_, fun i => (hf.suits i).handOver⟩
      rw [Failure.cause_handOver, Failure.cause_handOver, hf.cause i j]
    · intro i hi d hd
      rcases List.mem_append.mp hd with hd | hd
      · exact hinternal i hi d hd
      · have hsuits := hf.suits i
        rw [hi] at hd hsuits
        exact hsuits.isInternal hd

/-- After a report the failures that are wanted are the ones marked. -/
theorem reported_reporting (hx : Impartial r x) {i : ι} {ctx : Context} {log : Log} {f : Failure}
    (h : ((x i).reporting (r i) ctx log).1 = .error f) : f.reported = (r i).wants f.cause := by
  rw [EvalM.reporting] at h
  cases hx ctx log.counters log.printed log.crashed with
  | ok a ctx' counters' printed' crashed' handed hrun _ =>
    rw [hrun i log.diagnostics] at h
    cases h
  | error g counters' printed' crashed' handed hrun hg _ =>
    rw [hrun i log.diagnostics] at h
    simp only [Log.report_eq_handOver] at h
    cases h
    rw [(hg.suits i).reported_handOver, Failure.cause_handOver]

/-- Steps in silent requests hand over what they do whatever the reporting around them is. -/
theorem of_silent {x : EvalM α} (h : Impartial (fun _ : Unit => .silent) fun _ => x) :
    Impartial r fun _ => x := by
  intro ctx counters printed crashed
  cases h ctx counters printed crashed with
  | ok a ctx' counters' printed' crashed' handed hrun hinternal =>
    exact .ok a ctx' counters' printed' crashed' (fun _ => handed ()) (fun _ => hrun ())
      fun _ _ => hinternal () rfl
  | error f counters' printed' crashed' handed hrun hf hinternal =>
    exact .error (fun _ => f ()) counters' printed' crashed' (fun _ => handed ()) (fun _ => hrun ())
      (.of_silent (hf.suits ())) fun _ _ => hinternal () rfl

end Impartial

variable (r)

/-- Runs that differ in their reporting, as an alignment. -/
def indifference : Alignment ι where
  Aligned := Impartial r
  Alike := AlikeButReports r
  Admits _ _ rs := rs = r
  Meets _ := True
  isFatal_eq h i j := by rw [h.cause i j]
  alike_moreTelling hf hg := by
    rcases EvalM.moreTelling_of_cause_eq hf.cause hg.cause with h | h
    · exact h.symm ▸ hf
    · exact h.symm ▸ hg
  alike_of c := .of_silent (Failure.suits_of_unreported rfl rfl _)
  Iterates := True
  admits_bindValues h _ _ _ _ := h
  iterates _ := trivial
  admits_keepsTo {env _ _} _ := env.keepsTo_all
  pure a := .of_ok (fun _ => a) id id (fun _ _ => rfl) fun _ _ => rfl
  throw := .throw
  bind := .bind
  modifyLog {g} h := .of_ok (fun _ => ()) id g (fun _ _ => rfl) h.blind

/-- Impartial steps may catch failures and go on. -/
theorem indifference_rescues : (indifference r).Rescues :=
  (indifference r).rescues_of_handle Impartial.handle

/-- Impartial steps may hand failures over as diagnostics. -/
theorem indifference_reports : (indifference r).Reports := by
  rintro α env mode rs x rfl hx
  exact Impartial.reporting hx

end

/-! ## Silent executors -/

/-- Steps of an executor of functions that evaluates bodies silently. It may handle the failure of
an evaluation that it has started, or pass it on. -/
inductive Silent : {α : Type} → (Reentry → EvalM α) → Prop where
  /-- A step of its own, which has nothing to do with diagnostics. -/
  | own {α : Type} {x : EvalM α} (h : x.Discreet) : Silent fun _ => x
  /-- An evaluation that it starts. -/
  | nested (env : Env) (e : Expr) (mode : Mode) :
      Silent fun reenter => reenter env e mode .silent
  | bind {α β : Type} {x : Reentry → EvalM α} {k : Reentry → α → EvalM β} :
      Silent x → (∀ a, Silent fun reenter => k reenter a) →
      Silent fun reenter => x reenter >>= k reenter
  | handle {α β : Type} {x : Reentry → EvalM α} {k : Reentry → Except Failure α → EvalM β}
      (passes : Failure → Bool) :
      Silent x → (∀ a, Silent fun reenter => k reenter (.ok a)) →
      (∀ f, passes f = true → ∀ reenter, k reenter (.error f) = EvalM.throw f) →
      (∀ f, passes f = false → Silent fun reenter => k reenter (.error f)) →
      Silent fun reenter => (x reenter).attempt >>= k reenter

/-- The executor of an evaluator evaluates the bodies of functions silently. -/
def Evaluator.CallsSilently (ev : Evaluator) : Prop :=
  ∀ env call values mode, Silent fun reenter => ev.call reenter env call values mode

/-- A silent execution is impartial if the evaluation of bodies is. -/
theorem Silent.impartial {α : Type} {x : Reentry → EvalM α} (hx : Silent x) {reenter : Reentry}
    (h : ∀ env e mode,
      Impartial (fun _ : Unit => .silent) fun _ => reenter env e mode .silent) :
    Impartial (fun _ : Unit => .silent) fun _ => x reenter := by
  induction hx with
  | own hown => exact .of_discreet hown
  | nested env e mode => exact h env e mode
  | bind _ _ ihx ihk => exact ihx.bind ihk
  | handle passes _ _ hpasses _ ihx ihok iherror =>
    refine ihx.handle ihok fun f hf => ?_
    cases hf' : passes (f ()) with
    | true =>
      simp only [hpasses (f ()) hf']
      exact .throw hf
    | false => exact iherror (f ()) hf'

/-! ## Every step -/

section

variable {ev : Evaluator} (hcall : ev.CallsSilently) {ι : Type} (r : ι → Reporting)

include hcall

/-- What the executor of functions is asked for depends on evaluation in silent requests. -/
theorem indifference_stepwise {s : Steps}
    (hsilent : ∀ env e mode,
      Impartial (fun _ : Unit => .silent) fun _ => s.evalInner ⟨env, mode, .silent⟩ e)
    (heval : ∀ {env mode} {rs : ι → Reporting}, rs = r → ∀ k e,
      Impartial r fun i => s.evalAfter k ⟨env, mode, rs i⟩ e)
    (hsplice : ∀ {env mode} {rs : ι → Reporting}, rs = r → ∀ code,
      Impartial r fun i => s.splice ⟨env, mode, rs i⟩ code) :
    (indifference r).Stepwise ev (fun _ => ev.config.recursionLimit) fun _ => s := by
  refine Alignment.stepwise_of_rescues ev.keepsTo_all (indifference_rescues r)
    (indifference_reports r) (fun hr k e _ => heval hr k e) hsplice ?_ ?_
  · intro env mode rs hr name found e variability _ _
    refine Alignment.force_of_eval (A := indifference r) ?_ (fun g => ?_) (heval hr 0 e)
    · exact .of_ok id id id (fun _ _ => rfl) fun _ _ => rfl
    · exact .of_ok (fun _ => ()) g id (fun _ _ => rfl) fun _ _ => rfl
  · intro env mode rs hr call values
    refine (indifference r).bind ((indifference r).count fun _ => rfl) fun _ => ?_
    refine Impartial.of_silent ((hcall env call values mode).impartial fun env e mode => ?_)
    exact (hsilent env e mode).reporting

/-- In silent requests every step hands over the same from all logs. -/
theorem stepwise_silent (n : Nat) :
    (indifference fun _ : Unit => .silent).Stepwise ev (fun _ => ev.config.recursionLimit)
      fun _ => ev.steps n := by
  refine Alignment.stepwise_steps (A := indifference fun _ : Unit => .silent) (.refuse ev)
    (fun {s} heval hsplice => ?_) n
  exact indifference_stepwise (s := s ()) hcall _ (fun _ e _ => heval rfl 1 trivial)
    (fun hr k e => heval hr k trivial) fun hr => hsplice hr

/-- Every step does the same under any reporting. -/
theorem stepwise_indifferent (n : Nat) :
    (indifference r).Stepwise ev (fun _ => ev.config.recursionLimit) fun _ => ev.steps n := by
  have hsilent : ∀ n env e mode, Impartial (fun _ : Unit => .silent)
      fun _ => (ev.steps n).evalInner ⟨env, mode, .silent⟩ e := fun n env e mode =>
    (stepwise_silent hcall n).evalInner rfl trivial
  induction n with
  | zero =>
    exact indifference_stepwise hcall r (hsilent 0) (fun _ _ _ => .refuse ev) fun _ _ => .refuse ev
  | succ n ih =>
    have below : (indifference r).Stepwise ev (fun _ => ev.config.recursionLimit)
      fun i => ev.steps ((fun _ => n) i) := ih
    exact indifference_stepwise hcall r (hsilent (n + 1))
      (fun hr k e => below.evalAfter_succ hr k trivial) fun hr code => below.splice_succ hr code

end

/-- Reporting has no influence on evaluation: silent and located requests give the same value and
context or fail for the same cause, and print and count the same. Which failures are marked as
reported depends on their causes only, and a silent request hands over nothing but errors of the
evaluator itself, without a place and whatever has been handed over before. -/
theorem reporting_indifferent (ev : Evaluator) (hcall : ev.CallsSilently) (env : Env) (mode : Mode)
    (e : Expr) (span : Span) (ctx : Context) (log : Log) :
    let silent := ev.evaluate ⟨env, mode, .silent⟩ e
    let located := ev.evaluate ⟨env, mode, .located span⟩ e
    (silent ctx log).1.mapError Failure.cause = (located ctx log).1.mapError Failure.cause
      ∧ (silent ctx log).2.printed = (located ctx log).2.printed
      ∧ (silent ctx log).2.counters = (located ctx log).2.counters
      ∧ (∀ f, (silent ctx log).1 = .error f →
        (f.reported = true ↔ ∃ message, f.cause = .internal message))
      ∧ (∀ f, (located ctx log).1 = .error f →
        (f.reported = true ↔
          f.cause ≠ .notConstant ∧ ∀ index size, f.cause ≠ .indexOutOfBounds index size))
      ∧ ∃ handed : List Diagnostic,
        (∀ d ∈ handed, d.code = ⟨9001⟩ ∧ d.primarySpan? = none)
          ∧ ∀ q, (silent ctx { log with diagnostics := q }).2.diagnostics = q.addAll handed := by
  intro silent located
  have hsteps := stepwise_indifferent hcall id (ev.config.recursionLimit + 1)
  have heval : Impartial id fun r => ev.start.eval ⟨env, mode, r⟩ e := hsteps.eval rfl trivial
  have hend := heval.reporting ctx log.counters log.printed log.crashed
  obtain ⟨houtcome, hprinted, hcounters⟩ := hend.same .silent (.located span) log.diagnostics
  refine ⟨houtcome, hprinted, hcounters, fun f hf => ?_, fun f hf => ?_, hend.handsInternal rfl⟩
  · rw [heval.reported_reporting (i := .silent) hf]
    cases f.cause <;> simp [Reporting.wants, Reporting.span?, Cause.alwaysReported]
  · rw [heval.reported_reporting (i := .located span) hf]
    cases f.cause <;>
      simp [Reporting.wants, Reporting.span?, Cause.alwaysReported, Cause.isReportable]

/-- The quotient `1 / x`. -/
def Expr.reciprocal : Expr :=
  .binary (.integer 1) (.arith .div .scalars) (.reference [.mk "x" []] .integer)

/-- An evaluator whose executor evaluates the body `1 / x` for every call, silently and with the
argument as `x`. -/
def Evaluator.reciprocal : Evaluator :=
  { Evaluator.alone ⟨9, .none⟩ with
    call := fun reenter env _ values mode =>
      reenter (env.bindValues "f" .functionScope (values.map fun v => ("x", .integer, v)))
        .reciprocal mode .silent }

/-- The call `f(0)` of a function of the model. -/
def Expr.callAtZero : Expr := .call (.ident "f") [.integer 0] .unknown false false

/-- The division by zero in the body of a function is reported where the call is located, and not in
a silent request. -/
theorem reporting_indifferent_reciprocal :
    ∃ f g, (Evaluator.reciprocal.evaluate ⟨.empty, .explicit, .silent⟩ .callAtZero .empty
          (.start .standard)).1 = .error f
      ∧ (Evaluator.reciprocal.evaluate ⟨.empty, .explicit, .located ⟨3, 7⟩⟩ .callAtZero .empty
          (.start .standard)).1 = .error g
      ∧ f.cause = .divisionByZero "1" "x" ∧ g.cause = f.cause
      ∧ f.reported = false ∧ g.reported = true := by
  have hcall : Evaluator.reciprocal.CallsSilently := fun env _ values mode =>
    .nested (env.bindValues "f" .functionScope (values.map fun v => ("x", .integer, v)))
      .reciprocal mode
  obtain ⟨hsame, -, -, hsilent, hlocated, -⟩ := reporting_indifferent .reciprocal hcall .empty
    .explicit .callAtZero ⟨3, 7⟩ .empty (.start .standard)
  have hf : ∃ f, (Evaluator.reciprocal.evaluate ⟨.empty, .explicit, .silent⟩ .callAtZero .empty
      (.start .standard)).1 = .error f ∧ f.cause = .divisionByZero "1" "x" := ⟨_, rfl, rfl⟩
  obtain ⟨f, hf, hcause⟩ := hf
  rw [hf] at hsame
  cases hg : (Evaluator.reciprocal.evaluate ⟨.empty, .explicit, .located ⟨3, 7⟩⟩ .callAtZero .empty
      (.start .standard)).1 with
  | ok done =>
    rw [hg] at hsame
    cases hsame
  | error g =>
    rw [hg] at hsame
    have hcause' : f.cause = g.cause := Except.error.inj hsame
    refine ⟨f, g, hf, rfl, hcause, hcause'.symm, ?_, ?_⟩
    · have hiff := hsilent f hf
      simpa [hcause] using hiff
    · have hiff := hlocated g hg
      simpa [← hcause', hcause] using hiff

end ModelicaFold
