import ModelicaFold.Proofs.Runs.Alignment
import ModelicaFold.Proofs.Runs.Success

/-!
# Runs that may fail with different words

Two steps resemble each other if they do the same, up to what their failures say: they leave the same
log, and either give the same value and context or fail for causes of one code. It depends on the code
alone how telling a cause is and whether it is fatal, so that resembling steps are sequenced alike, and
their failures caught alike.
-/

namespace ModelicaFold

/-- It shows in its code whether a cause is fatal. -/
theorem Cause.isFatal_eq_decide (c : Cause) : c.isFatal = decide (c.code = ⟨6005⟩) := by
  cases c <;> rfl

/-- The same result, or failures for causes of one code. -/
inductive SameKind {α : Type} : Except Failure α → Except Failure α → Prop where
  | ok (a : α) : SameKind (.ok a) (.ok a)
  | error {f g : Failure} (h : f.cause.code = g.cause.code) : SameKind (.error f) (.error g)

/-- An outcome is of the same kind as itself. -/
theorem SameKind.refl {α : Type} : ∀ outcome : Except Failure α, SameKind outcome outcome
  | .ok a => .ok a
  | .error _ => .error rfl

namespace EvalM

/-- Two steps leave the same log and have outcomes of one kind. -/
def Resembles {α : Type} (x y : EvalM α) : Prop :=
  ∀ ctx log, SameKind (x ctx log).1 (y ctx log).1 ∧ (x ctx log).2 = (y ctx log).2

namespace Resembles

variable {α β γ : Type} {x y : EvalM α}

/-- A step resembles itself. -/
theorem refl (x : EvalM α) : Resembles x x := fun ctx log => ⟨.refl (x ctx log).1, rfl⟩

/-- Equal steps resemble each other. -/
theorem of_eq (h : x = y) : Resembles x y := h ▸ refl x

/-- Failures for causes of one code resemble each other. -/
theorem throw {f g : Failure} (h : f.cause.code = g.cause.code) :
    Resembles (EvalM.throw f : EvalM α) (EvalM.throw g) := fun _ _ => ⟨.error h, rfl⟩

/-- Causes of one code make failures that resemble each other. -/
theorem fail {c c' : Cause} (h : c.code = c'.code) :
    Resembles (EvalM.fail c : EvalM α) (EvalM.fail c') := throw h

/-- Steps that resemble each other after whatever a step gives. -/
theorem bind_of_gives {k k' : α → EvalM β} (hx : Resembles x y)
    (hk : ∀ {a ctx log ctx' log'}, x.Gives ctx log a ctx' log' → Resembles (k a) (k' a)) :
    Resembles (x >>= k) (y >>= k') := by
  intro ctx log
  obtain ⟨houtcome, hlog⟩ := hx ctx log
  rw [bind_apply, bind_apply]
  rcases hrun : x ctx log with ⟨outcome, after⟩
  rcases hrun' : y ctx log with ⟨outcome', after'⟩
  rw [hrun, hrun'] at houtcome hlog
  obtain rfl : after = after' := hlog
  cases houtcome with
  | ok done => exact hk hrun done.2 after
  | error h => exact ⟨.error h, rfl⟩

/-- Sequences resemble each other if their parts do. -/
theorem bind {k k' : α → EvalM β} (hx : Resembles x y) (hk : ∀ a, Resembles (k a) (k' a)) :
    Resembles (x >>= k) (y >>= k') := hx.bind_of_gives fun {a _ _ _ _} _ => hk a

/-- A function may be applied to the results of steps that resemble each other. -/
theorem map (hx : Resembles x y) (f : α → β) :
    Resembles (x >>= fun a => pure (f a)) (y >>= fun a => pure (f a)) :=
  hx.bind fun a => refl (pure (f a))

/-- A choice that is made alike. -/
theorem ite {c : Prop} [Decidable c] {x' y' : EvalM α} (hx : c → Resembles x y)
    (hx' : ¬c → Resembles x' y') : Resembles (if c then x else x') (if c then y else y') := by
  split
  · exact hx ‹_›
  · exact hx' ‹_›

/-! ## Lists of steps -/

/-- Mapping a list resembles mapping its image if the steps resemble each other. -/
theorem mapM_map {f : α → EvalM β} {g : γ → EvalM β} {φ : α → γ} {items : List α}
    (h : ∀ a ∈ items, Resembles (f a) (g (φ a))) :
    Resembles (items.mapM f) ((items.map φ).mapM g) := by
  induction items with
  | nil => exact refl (pure [])
  | cons a items ih =>
    rw [List.map_cons, List.mapM_cons, List.mapM_cons]
    refine (h a List.mem_cons_self).bind fun b => ?_
    exact (ih fun c hc => h c (List.mem_cons_of_mem a hc)).map (b :: ·)

/-- Two ways to map a list resemble each other if the steps do. -/
theorem mapM {f g : α → EvalM β} {items : List α} (h : ∀ a ∈ items, Resembles (f a) (g a)) :
    Resembles (items.mapM f) (items.mapM g) := by
  have hmap : Resembles (items.mapM f) ((items.map id).mapM g) := mapM_map h
  rwa [List.map_id] at hmap

/-- A step on an optional item resembles one on its image if it does for the item. -/
theorem optionMapM_map {f : α → EvalM β} {g : γ → EvalM β} {φ : α → γ} {item : Option α}
    (h : ∀ a ∈ item, Resembles (f a) (g (φ a))) :
    Resembles (item.mapM f) ((item.map φ).mapM g) := by
  cases item with
  | none => exact refl (pure none)
  | some a => exact (h a rfl).map some

/-- Folds resemble each other if their steps do. -/
theorem foldlM {f g : β → α → EvalM β} {items : List α} (b : β)
    (h : ∀ b, ∀ a ∈ items, Resembles (f b a) (g b a)) :
    Resembles (items.foldlM f b) (items.foldlM g b) := by
  induction items generalizing b with
  | nil => exact refl (pure b)
  | cons a items ih =>
    rw [List.foldlM_cons, List.foldlM_cons]
    refine (h b a List.mem_cons_self).bind fun b' => ?_
    exact ih b' fun c d hd => h c d (List.mem_cons_of_mem a hd)

/-- Filtering with items kept so far resembles another way to if the tests do. -/
theorem filterAuxM {p q : α → EvalM Bool} {items : List α}
    (h : ∀ a, Resembles (p a) (q a)) (kept : List α) :
    Resembles (List.filterAuxM p items kept) (List.filterAuxM q items kept) := by
  induction items generalizing kept with
  | nil => exact refl (pure kept)
  | cons a items ih => exact (h a).bind fun b => ih _

/-- Two ways to filter a list resemble each other if the tests do. -/
theorem filterM {p q : α → EvalM Bool} {items : List α} (h : ∀ a, Resembles (p a) (q a)) :
    Resembles (items.filterM p) (items.filterM q) :=
  (filterAuxM h []).map List.reverse

/-! ## Failures -/

/-- Fails, or goes on if the failure is not fatal. -/
theorem throwIfFatal {f g : Failure} (hfg : f.cause.code = g.cause.code) (hx : Resembles x y) :
    Resembles (if f.cause.isFatal = true then EvalM.throw f else x)
      (if g.cause.isFatal = true then EvalM.throw g else y) := by
  rw [Cause.isFatal_eq_decide, Cause.isFatal_eq_decide, hfg]
  exact ite (fun _ => throw hfg) fun _ => hx

/-- Failures are caught alike. -/
theorem attempt {k k' : Except Failure α → EvalM β} (hx : Resembles x y)
    (hok : ∀ a, Resembles (k (.ok a)) (k' (.ok a)))
    (herror : ∀ f g : Failure, f.cause.code = g.cause.code →
      Resembles (k (.error f)) (k' (.error g))) :
    Resembles (x.attempt >>= k) (y.attempt >>= k') := by
  intro ctx log
  obtain ⟨houtcome, hlog⟩ := hx ctx log
  rw [bind_apply, bind_apply, EvalM.attempt, EvalM.attempt]
  rcases hrun : x ctx log with ⟨outcome, after⟩
  rcases hrun' : y ctx log with ⟨outcome', after'⟩
  rw [hrun, hrun'] at houtcome hlog
  obtain rfl : after = after' := hlog
  cases houtcome with
  | ok done => exact hok done.1 done.2 after
  | error h => exact herror _ _ h ctx after

/-- Handing failures over as diagnostics does not change their kind, though the diagnostics may say
different things. -/
theorem reporting (hx : Resembles x y) (r : Reporting) (ctx : Context) (log : Log) :
    SameKind (x.reporting r ctx log).1 (y.reporting r ctx log).1 := by
  obtain ⟨houtcome, -⟩ := hx ctx log
  unfold EvalM.reporting
  rcases hrun : x ctx log with ⟨outcome, after⟩
  rcases hrun' : y ctx log with ⟨outcome', after'⟩
  rw [hrun, hrun'] at houtcome
  cases houtcome with
  | ok done => exact .ok done
  | error h =>
    refine .error ?_
    rw [Log.cause_report, Log.cause_report, h]

end Resembles

end EvalM

end ModelicaFold
