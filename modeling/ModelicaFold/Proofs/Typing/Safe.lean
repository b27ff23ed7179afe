import ModelicaFold.Proofs.Runs.Outcome
import ModelicaFold.Proofs.Shape.Outcome

/-!
# Steps that do not fail internally

Internal failures are the ones that are always reported: type checking should have ruled them out.
An outcome is safe for a property if it is a value with the property, or a failure that is not
internal. A step is safe if its outcomes are, from every context with some property that they keep.
There is a lemma for each way to combine outcomes or steps.
-/

namespace ModelicaFold

variable {α β : Type}

namespace Outcome

variable {P Q : α → Prop} {R : β → Prop}

/-- A value with a property, or a failure that is not internal. -/
inductive Safe (P : α → Prop) : Outcome α → Prop where
  | ok {a : α} (h : P a) : Safe P (.ok a)
  | error {f : Failure} (h : f.cause.alwaysReported = false) : Safe P (.error f)

/-- A failure that is not internal is safe. -/
theorem safe_fail {c : Cause} (h : c.alwaysReported = false) : Safe P c.fail :=
  .error h

/-- A safe outcome is no internal failure. -/
theorem Safe.not_internal {o : Outcome α} (h : o.Safe P) {f : Failure} (hf : o = .error f)
    (message : String) : f.cause ≠ .internal message := by
  intro hinternal
  cases h with
  | ok h => cases hf
  | error h =>
    cases hf
    rw [hinternal] at h
    cases h

namespace Safe

/-- A value that is safe has the property. -/
theorem of_ok {a : α} (h : Safe P (.ok a)) : P a := by
  cases h with
  | ok h => exact h

/-- A failure that is safe is not internal. -/
theorem of_error {f : Failure} (h : Safe P (.error f)) : f.cause.alwaysReported = false := by
  cases h with
  | error h => exact h

/-- A safe outcome is safe for a weaker property as well. -/
theorem mono (hPQ : ∀ a, P a → Q a) {o : Outcome α} (h : o.Safe P) : o.Safe Q := by
  cases h with
  | ok h => exact .ok (hPQ _ h)
  | error h => exact .error h

/-- A sequence is safe if its parts are. -/
theorem bind {x : Outcome α} {k : α → Outcome β} (hx : x.Safe P)
    (hk : ∀ a, P a → (k a).Safe R) : Outcome.Safe R (x >>= k) := by
  cases hx with
  | ok h => exact hk _ h
  | error h => exact .error h

/-- A function may be applied to a safe result. -/
theorem map {x : Outcome α} {f : α → β} (hx : x.Safe P) (hf : ∀ a, P a → R (f a)) :
    Outcome.Safe R (x.map f) := by
  cases hx with
  | ok h => exact .ok (hf _ h)
  | error h => exact .error h

/-- A choice is safe if its branches are. -/
theorem ite {c : Prop} [Decidable c] {x y : Outcome α} (hx : c → x.Safe P) (hy : ¬ c → y.Safe P) :
    Safe P (if c then x else y) := by
  by_cases h : c
  · rw [if_pos h]
    exact hx h
  · rw [if_neg h]
    exact hy h

/-- Safe computations on the items of a list, one after the other. -/
theorem mapM {f : α → Outcome β} {items : List α} (h : ∀ a ∈ items, (f a).Safe R) :
    Outcome.Safe (fun results => ∀ b ∈ results, R b) (items.mapM f) := by
  induction items with
  | nil => exact .ok fun b hb => absurd hb List.not_mem_nil
  | cons a items ih =>
    obtain ⟨ha, hitems⟩ := List.forall_mem_cons.mp h
    rw [List.mapM_cons]
    refine ha.bind fun b hb => (ih hitems).bind fun bs hbs => .ok ?_
    exact List.forall_mem_cons.mpr ⟨hb, hbs⟩

/-- A fold is safe if its steps are and keep the property. -/
theorem foldlM {f : β → α → Outcome β} {items : List α} {b : β} (hb : R b)
    (h : ∀ b, ∀ a ∈ items, R b → (f b a).Safe R) : Outcome.Safe R (items.foldlM f b) := by
  induction items generalizing b with
  | nil => exact .ok hb
  | cons a items ih =>
    rw [List.foldlM_cons]
    have hrest : ∀ b, ∀ a ∈ items, R b → (f b a).Safe R := fun b a ha =>
      h b a (List.mem_cons_of_mem _ ha)
    exact (h b a List.mem_cons_self hb).bind fun b' hb' => ih hb' hrest

end Safe

end Outcome

namespace EvalM

variable {I : Context → Prop} {P Q : α → Prop} {R : β → Prop}

/-- From a context with a property a step does not fail internally; what it gives and the context
it leaves have theirs. -/
def Safe (I : Context → Prop) (P : α → Prop) (x : EvalM α) : Prop :=
  ∀ ctx log, I ctx → Outcome.Safe (fun done : α × Context => P done.1 ∧ I done.2) (x ctx log).1

/-- A pure step is safe if its value has the property. -/
theorem safe_pure {a : α} (h : P a) : (pure a : EvalM α).Safe I P :=
  fun _ _ hctx => .ok ⟨h, hctx⟩

/-- A step that fails is safe if the failure is not internal. -/
theorem safe_throw {f : Failure} (h : f.cause.alwaysReported = false) :
    (throw f : EvalM α).Safe I P :=
  fun _ _ _ => .error h

/-- A step that fails with a cause is safe if the cause is not internal. -/
theorem safe_fail {c : Cause} (h : c.alwaysReported = false) : (fail c : EvalM α).Safe I P :=
  safe_throw h

/-- A computation without effects is safe as a step if it is. -/
theorem safe_ofOutcome {o : Outcome α} (h : o.Safe P) : (ofOutcome o).Safe I P := by
  cases h with
  | ok h => exact safe_pure h
  | error h => exact safe_throw h

/-- A change of the log is safe. -/
theorem safe_modifyLog (f : Log → Log) : (modifyLog f).Safe I fun _ => True :=
  fun _ _ hctx => .ok ⟨trivial, hctx⟩

/-- A count is safe. -/
theorem safe_count (f : Counters → Counters) : (count f).Safe I fun _ => True :=
  safe_modifyLog _

namespace Safe

variable {x : EvalM α}

/-- A safe step is safe for a weaker property as well. -/
theorem mono (hPQ : ∀ a, P a → Q a) (h : x.Safe I P) : x.Safe I Q :=
  fun ctx log hctx => (h ctx log hctx).mono fun done hdone => ⟨hPQ done.1 hdone.1, hdone.2⟩

/-- A sequence of steps is safe if its parts are. -/
theorem bind {k : α → EvalM β} (hx : x.Safe I P) (hk : ∀ a, P a → (k a).Safe I R) :
    (x >>= k).Safe I R := by
  intro ctx log hctx
  have hrun := hx ctx log hctx
  rw [bind_apply]
  generalize x ctx log = run at hrun ⊢
  obtain ⟨f | ⟨a, ctx'⟩, log'⟩ := run
  · cases hrun with
    | error h => exact .error h
  · cases hrun with
    | ok h => exact hk a h.1 ctx' log' h.2

/-- A choice between steps is safe if its branches are. -/
theorem ite {c : Prop} [Decidable c] {y : EvalM α} (hx : c → x.Safe I P) (hy : ¬ c → y.Safe I P) :
    (if c then x else y).Safe I P := by
  by_cases h : c
  · rw [if_pos h]
    exact hx h
  · rw [if_neg h]
    exact hy h

/-- A failure that is handed over as a value is not internal either. -/
theorem attempt (h : x.Safe I P) : x.attempt.Safe I (Outcome.Safe P) := by
  intro ctx log hctx
  have hrun := h ctx log hctx
  unfold EvalM.attempt
  generalize x ctx log = run at hrun ⊢
  obtain ⟨f | ⟨a, ctx'⟩, log'⟩ := run
  · cases hrun with
    | error h => exact .ok ⟨.error h, hctx⟩
  · cases hrun with
    | ok h => exact .ok ⟨.ok h.1, h.2⟩

/-- Reporting a failure leaves a step safe. -/
theorem reporting (h : x.Safe I P) (r : Reporting) : (x.reporting r).Safe I P := by
  intro ctx log hctx
  have hrun := h ctx log hctx
  unfold EvalM.reporting
  generalize x ctx log = run at hrun ⊢
  obtain ⟨f | done, log'⟩ := run
  · cases hrun with
    | error h => exact .error ((log'.cause_report r f).symm ▸ h)
  · exact hrun

/-- Steps for the items of a list, each of which gives something that is related to its item. -/
theorem mapM {f : α → EvalM β} {S : α → β → Prop} {items : List α}
    (h : ∀ a ∈ items, (f a).Safe I (S a)) :
    (items.mapM f).Safe I (List.Forall₂ S items) := by
  induction items with
  | nil => exact safe_pure .nil
  | cons a items ih =>
    obtain ⟨ha, hitems⟩ := List.forall_mem_cons.mp h
    rw [List.mapM_cons]
    exact ha.bind fun b hb => (ih hitems).bind fun bs hbs => safe_pure (.cons hb hbs)

/-- Steps for the items of a list, all of which give something with the same property. -/
theorem mapM_all {f : α → EvalM β} {items : List α} (h : ∀ a ∈ items, (f a).Safe I R) :
    (items.mapM f).Safe I fun results => ∀ b ∈ results, R b := by
  refine (mapM (S := fun _ => R) h).mono fun results hresults b hb => ?_
  obtain ⟨_, _, hb⟩ := exists_mem_of_forall₂ hresults b hb
  exact hb

/-- A fold of steps is safe if the steps are and keep the property. -/
theorem foldlM {f : β → α → EvalM β} {items : List α} {b : β} (hb : R b)
    (h : ∀ b, ∀ a ∈ items, R b → (f b a).Safe I R) : (items.foldlM f b).Safe I R := by
  induction items generalizing b with
  | nil => exact safe_pure hb
  | cons a items ih =>
    rw [List.foldlM_cons]
    have hrest : ∀ b, ∀ a ∈ items, R b → (f b a).Safe I R := fun b a ha =>
      h b a (List.mem_cons_of_mem _ ha)
    exact (h b a List.mem_cons_self hb).bind fun b' hb' => ih hb' hrest

/-- Filtering keeps items of the list. -/
theorem filterM {p : α → EvalM Bool} {items : List α}
    (h : ∀ a ∈ items, (p a).Safe I fun _ => True) :
    (items.filterM p).Safe I fun kept => ∀ a ∈ kept, a ∈ items := by
  -- The kept items are collected in reverse order.
  have haux : ∀ (rest before : List α), (∀ a ∈ rest, (p a).Safe I fun _ => True) →
      (List.filterAuxM p rest before).Safe I fun kept => ∀ a ∈ kept, a ∈ rest ∨ a ∈ before := by
    intro rest
    induction rest with
    | nil => exact fun before _ => safe_pure fun a ha => .inr ha
    | cons b rest ih =>
      intro before hrest
      obtain ⟨hb, hrest⟩ := List.forall_mem_cons.mp hrest
      refine hb.bind fun verdict _ => (ih _ hrest).mono fun kept hkept a ha => ?_
      rcases hkept a ha with hmem | hmem
      · exact .inl (List.mem_cons_of_mem b hmem)
      · cases verdict with
        | true =>
          rcases List.mem_cons.mp hmem with rfl | hmem
          · exact .inl List.mem_cons_self
          · exact .inr hmem
        | false => exact .inr hmem
  refine (haux items [] h).bind fun kept hkept => safe_pure fun a ha => ?_
  simpa using hkept a (List.mem_reverse.mp ha)

end Safe

end EvalM

end ModelicaFold
