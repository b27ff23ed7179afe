import ModelicaFold.Proofs.Failures.Ordinary
import ModelicaFold.Proofs.Runs.Meeting

/-!
# Runs side by side

A property of evaluation often compares several runs of one evaluation: under two limits, from two
contexts, with and without remembered values. The rules are the same in all runs; what differs is
what the steps below do with the context, the depth and the reporting of failures. An `Alignment`
is a property of a family of steps, one for each run, that holds of steps which do the same in all
runs and that sequencing keeps; a property of a single run is one of a family with one member. This
module derives from these laws that the ways to combine steps keep an alignment; `Rules` does the
same for every rule of evaluation.

Two laws are set apart, since not every property has them: that a failure may be caught
(`Alignment.Rescues`) and that it may be handed over as a diagnostic (`Alignment.Reports`).
-/

namespace ModelicaFold

open Outcome

/-- Handing a failure over as a diagnostic does not change its cause. -/
theorem Log.cause_report (log : Log) (r : Reporting) (f : Failure) :
    (log.report r f).1.cause = f.cause := by
  unfold Log.report
  split <;> rfl

/-- Handing a failure over as a diagnostic counts no step as refused. -/
theorem Log.refused_report (log : Log) (r : Reporting) (f : Failure) :
    (log.report r f).2.counters.refused = log.counters.refused := by
  unfold Log.report
  split <;> rfl

/-- Of two families of failures for one cause each, the more telling one is taken in all runs from
the same family. -/
theorem EvalM.moreTelling_of_cause_eq {ι : Type} {f g : ι → Failure}
    (hf : ∀ i j, (f i).cause = (f j).cause) (hg : ∀ i j, (g i).cause = (g j).cause) :
    (fun i => moreTelling (f i) (g i)) = f ∨ (fun i => moreTelling (f i) (g i)) = g := by
  by_cases h : ∃ i, (g i).cause.precedence ≤ (f i).cause.precedence
  · obtain ⟨i, hi⟩ := h
    refine .inl (funext fun j => ?_)
    rw [moreTelling, hf j i, hg j i, if_pos hi]
  · refine .inr (funext fun j => ?_)
    rw [moreTelling, if_neg fun hj => h ⟨j, hj⟩]

/-- Of two failures the more telling one is fatal if one of them is. -/
theorem EvalM.isFatal_moreTelling (f g : Failure) :
    (moreTelling f g).cause.isFatal = (f.cause.isFatal || g.cause.isFatal) := by
  have hfatal : ∀ c : Cause, c.isFatal = true ↔ c.precedence = 5 := fun c => by
    cases c <;> simp [Cause.isFatal, Cause.precedence]
  have hbound : ∀ c : Cause, c.precedence ≤ 5 := fun c => by
    cases c <;> simp [Cause.precedence]
  have hf := hbound f.cause
  have hg := hbound g.cause
  rw [Bool.eq_iff_iff, Bool.or_eq_true, hfatal, hfatal, hfatal]
  unfold moreTelling
  split <;> omega

/-- Two runs fail with the same failure. -/
def SameFailure (f : Bool → Failure) : Prop := f true = f false

namespace SameFailure

/-- One cause makes the same failure in both runs. -/
theorem of (c : Cause) : SameFailure fun _ => Failure.of c := rfl

/-- The same failure is as fatal in both runs. -/
theorem isFatal_eq {f : Bool → Failure} (h : SameFailure f) (i j : Bool) :
    (f i).cause.isFatal = (f j).cause.isFatal := by
  have hsame : ∀ i, f i = f false := fun i => i.rec rfl h
  rw [hsame i, hsame j]

/-- The more telling of the same two failures is the same. -/
theorem moreTelling {f g : Bool → Failure} (hf : SameFailure f) (hg : SameFailure g) :
    SameFailure fun i => EvalM.moreTelling (f i) (g i) := by
  show EvalM.moreTelling (f true) (g true) = EvalM.moreTelling (f false) (g false)
  rw [show f true = f false from hf, show g true = g false from hg]

end SameFailure

/-- Two runs are the same. -/
def SameRun {α : Type} (x : Bool → EvalM α) : Prop := x true = x false

namespace SameRun

variable {α β : Type} {x : Bool → EvalM α}

/-- A step without differences is the same in both runs. -/
theorem const (x : EvalM α) : SameRun fun _ => x := rfl

/-- The same failure makes the same step. -/
theorem throw {f : Bool → Failure} (h : SameFailure f) :
    SameRun fun b => (EvalM.throw (f b) : EvalM α) := congrArg EvalM.throw h

/-- Sequences are the same in both runs if their parts are. -/
theorem bind {k : Bool → α → EvalM β} (hx : SameRun x) (hk : ∀ a, SameRun fun b => k b a) :
    SameRun fun b => x b >>= k b := by
  have hk : k true = k false := funext hk
  show x true >>= k true = x false >>= k false
  rw [show x true = x false from hx, hk]

/-- A failure that may be caught is handled alike, and a fatal one is passed on. -/
theorem rescue {k : Bool → Except Failure α → EvalM β} (hx : SameRun x)
    (hok : ∀ a, SameRun fun b => k b (.ok a))
    (hcaught : ∀ f : Failure, f.cause.isFatal = false → SameRun fun b => k b (.error f))
    (hfatal : ∀ b (f : Failure), f.cause.isFatal = true → k b (.error f) = EvalM.throw f) :
    SameRun fun b => (x b).attempt >>= k b := by
  refine bind (congrArg EvalM.attempt hx) fun outcome => ?_
  cases outcome with
  | ok a => exact hok a
  | error f =>
    cases hf : f.cause.isFatal with
    | false => exact hcaught f hf
    | true => exact (hfatal true f hf).trans (hfatal false f hf).symm

end SameRun

/-- A note in the log that refuses no step and has nothing to do with the diagnostics. -/
structure Log.IsNote (g : Log → Log) : Prop where
  refused : ∀ log, (g log).counters.refused = log.counters.refused
  blind : ∀ log q, g { log with diagnostics := q } = { g log with diagnostics := q }

/-- A note leaves the diagnostics as they are. -/
theorem Log.IsNote.diagnostics {g : Log → Log} (h : Log.IsNote g) (log : Log) :
    (g log).diagnostics = log.diagnostics := by
  have hblind : g log = { g log with diagnostics := log.diagnostics } := h.blind log log.diagnostics
  rw [hblind]

/-- A property of families of steps that holds of steps which do the same in all runs. -/
structure Alignment (ι : Type) where
  /-- The steps do the same, as far as the property tells. -/
  Aligned : {α : Type} → (ι → EvalM α) → Prop
  /-- The failures count as one. -/
  Alike : (ι → Failure) → Prop
  /-- Requests that may be made: in one environment and mode, with the reporting of each run. -/
  Admits : Env → Mode → (ι → Reporting) → Prop
  /-- Expressions that may be evaluated. -/
  Meets : Expr → Prop
  /-- Scopes of iterators may be pushed. -/
  Iterates : Prop
  isFatal_eq : ∀ {f : ι → Failure}, Alike f → ∀ i j, (f i).cause.isFatal = (f j).cause.isFatal
  alike_moreTelling : ∀ {f g : ι → Failure}, Alike f → Alike g →
    Alike fun i => EvalM.moreTelling (f i) (g i)
  /-- New failures for one cause. -/
  alike_of : ∀ c : Cause, Alike fun _ => Failure.of c
  admits_bindValues : ∀ {env : Env} {mode : Mode} {r : ι → Reporting},
    Admits env mode r → ∀ name kind bindings, (kind = .iteratorScope → Iterates) →
      Admits (env.bindValues name kind bindings) mode r
  iterates : ∀ {info : ReductionInfo} {body : Expr} {iterators : List Iterator},
    Meets (.reduction info body iterators) → Iterates
  /-- The environment declares no other expressions. -/
  admits_keepsTo : ∀ {env : Env} {mode : Mode} {r : ι → Reporting},
    Admits env mode r → env.KeepsTo Meets
  pure : ∀ {α : Type} (a : α), Aligned fun _ => (Pure.pure a : EvalM α)
  throw : ∀ {α : Type} {f : ι → Failure}, Alike f → Aligned fun i => (EvalM.throw (f i) : EvalM α)
  bind : ∀ {α β : Type} {x : ι → EvalM α} {k : ι → α → EvalM β},
    Aligned x → (∀ a, Aligned fun i => k i a) → Aligned fun i => x i >>= k i
  /-- What is noted in the log does not matter. -/
  modifyLog : ∀ {g : Log → Log}, Log.IsNote g → Aligned fun _ => EvalM.modifyLog g

namespace Alignment

variable {ι : Type} (A : Alignment ι) {α β : Type}

/-- A failure may be handled in any way that is aligned, a fatal one only by failing with it. -/
def Rescues : Prop :=
  ∀ {α β : Type} {x : ι → EvalM α} {k : ι → Except Failure α → EvalM β},
    A.Aligned x →
    (∀ a, A.Aligned fun i => k i (.ok a)) →
    (∀ f : ι → Failure, A.Alike f → (∀ i, (f i).cause.isFatal = false) →
      A.Aligned fun i => k i (.error (f i))) →
    (∀ i (f : Failure), f.cause.isFatal = true → k i (.error f) = EvalM.throw f) →
    A.Aligned fun i => (x i).attempt >>= k i

/-- A failure may be handed over as a diagnostic. -/
def Reports : Prop :=
  ∀ {α : Type} {env : Env} {mode : Mode} {r : ι → Reporting} {x : ι → EvalM α},
    A.Admits env mode r → A.Aligned x → A.Aligned fun i => (x i).reporting (r i)

/-! ## Single steps -/

/-- A failure with a cause is aligned. -/
theorem fail (c : Cause) : A.Aligned fun _ => (EvalM.fail c : EvalM α) :=
  A.throw (A.alike_of c)

/-- A computation without effects is aligned if it fails ordinarily. -/
theorem ofOutcome {o : Outcome α} (h : Ordinary o) : A.Aligned fun _ => EvalM.ofOutcome o := by
  cases o with
  | ok a => exact A.pure a
  | error f =>
    obtain ⟨c, rfl, -⟩ := h f rfl
    exact A.fail c

/-- A computation without effects is aligned also where it is lifted. -/
theorem liftOutcome {o : Outcome α} (h : Ordinary o) : A.Aligned fun _ => (liftM o : EvalM α) :=
  A.ofOutcome h

/-- A count other than that of refusals is aligned. -/
theorem count {g : Counters → Counters} (h : ∀ c, (g c).refused = c.refused) :
    A.Aligned fun _ => EvalM.count g :=
  A.modifyLog ⟨fun log => h log.counters, fun _ _ => rfl⟩

/-- A crash is only noted in the log. -/
theorem crash : A.Aligned fun _ => EvalM.crash :=
  A.modifyLog ⟨fun _ => rfl, fun _ _ => rfl⟩

/-- A function may be applied to the result of aligned steps. -/
theorem map {x : ι → EvalM α} (h : A.Aligned x) (f : α → β) :
    A.Aligned fun i => x i >>= fun a => Pure.pure (f a) :=
  A.bind h fun a => A.pure (f a)

/-- A choice that is the same in all runs. -/
theorem ite {c : Prop} [Decidable c] {x y : ι → EvalM α} (hx : c → A.Aligned x)
    (hy : ¬c → A.Aligned y) : A.Aligned fun i => if c then x i else y i := by
  by_cases h : c
  · simpa only [if_pos h] using hx h
  · simpa only [if_neg h] using hy h

/-! ## Lists of steps -/

/-- Mapping a list is aligned if the steps are. -/
theorem mapM {f : ι → α → EvalM β} {items : List α}
    (h : ∀ a ∈ items, A.Aligned fun i => f i a) : A.Aligned fun i => items.mapM (f i) := by
  induction items with
  | nil => exact A.pure []
  | cons a items ih =>
    simp only [List.mapM_cons]
    refine A.bind (h a List.mem_cons_self) fun b => ?_
    refine A.bind (ih fun c hc => h c (List.mem_cons_of_mem a hc)) fun bs => ?_
    exact A.pure (b :: bs)

/-- A step on an optional item is aligned if it is on the item. -/
theorem optionMapM {f : ι → α → EvalM β} {item : Option α}
    (h : ∀ a, item = some a → A.Aligned fun i => f i a) :
    A.Aligned fun i => item.mapM (f i) := by
  cases item with
  | none => exact A.pure none
  | some a => exact A.map (h a rfl) some

/-- A fold is aligned if its steps are. -/
theorem foldlM {f : ι → β → α → EvalM β} {items : List α} (b : β)
    (h : ∀ b, ∀ a ∈ items, A.Aligned fun i => f i b a) :
    A.Aligned fun i => items.foldlM (f i) b := by
  induction items generalizing b with
  | nil => exact A.pure b
  | cons a items ih =>
    simp only [List.foldlM_cons]
    refine A.bind (h b a List.mem_cons_self) fun b' => ?_
    exact ih b' fun c d hd => h c d (List.mem_cons_of_mem a hd)

/-- Filtering with items kept so far is aligned if the tests are. -/
theorem filterAuxM {p : ι → α → EvalM Bool} {items : List α}
    (h : ∀ a ∈ items, A.Aligned fun i => p i a) (kept : List α) :
    A.Aligned fun i => List.filterAuxM (p i) items kept := by
  induction items generalizing kept with
  | nil => exact A.pure kept
  | cons a items ih =>
    refine A.bind (h a List.mem_cons_self) fun b => ?_
    exact ih (fun c hc => h c (List.mem_cons_of_mem a hc)) _

/-- Filtering is aligned if the tests are. -/
theorem filterM {p : ι → α → EvalM Bool} {items : List α}
    (h : ∀ a ∈ items, A.Aligned fun i => p i a) : A.Aligned fun i => items.filterM (p i) :=
  A.map (A.filterAuxM h []) List.reverse

/-! ## Failures that are caught -/

/-- Fails, or goes on if the failure is not fatal: the same in all runs. -/
theorem throwIfFatal {f : ι → Failure} {x : ι → EvalM α} (hf : A.Alike f)
    (h : (∀ i, (f i).cause.isFatal = false) → A.Aligned x) :
    A.Aligned fun i => if (f i).cause.isFatal = true then EvalM.throw (f i) else x i := by
  by_cases hfatal : ∃ i, (f i).cause.isFatal = true
  · obtain ⟨i, hi⟩ := hfatal
    have h' : ∀ j, (f j).cause.isFatal = true := fun j => by rw [A.isFatal_eq hf j i, hi]
    simpa only [h', if_true] using A.throw hf
  · have h' : ∀ i, (f i).cause.isFatal = false := fun i => by
      simpa using fun hi => hfatal ⟨i, hi⟩
    simpa only [h', Bool.false_eq_true, if_false] using h h'

/-- Failures may be caught if they may be handled in any way that is the same in all runs: it does
not depend on the run whether a failure is fatal. -/
theorem rescues_of_handle
    (hhandle : ∀ {α β : Type} {x : ι → EvalM α} {k : ι → Except Failure α → EvalM β},
      A.Aligned x → (∀ a, A.Aligned fun i => k i (.ok a)) →
      (∀ f : ι → Failure, A.Alike f → A.Aligned fun i => k i (.error (f i))) →
      A.Aligned fun i => (x i).attempt >>= k i) : A.Rescues := by
  intro α β x k hx hok herror hfatal
  refine hhandle hx hok fun f hf => ?_
  by_cases h : ∃ i, (f i).cause.isFatal = true
  · obtain ⟨i, hi⟩ := h
    have hthrow : (fun j => k j (.error (f j))) = fun j => EvalM.throw (f j) :=
      funext fun j => hfatal j (f j) (by rw [A.isFatal_eq hf j i, hi])
    rw [hthrow]
    exact A.throw hf
  · exact herror f hf fun i => by simpa using fun hi => h ⟨i, hi⟩

end Alignment

end ModelicaFold
