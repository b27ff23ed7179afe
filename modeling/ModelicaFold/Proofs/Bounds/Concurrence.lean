import ModelicaFold.Proofs.Bounds.Access
import ModelicaFold.Proofs.Bounds.Ranked
import ModelicaFold.Proofs.Scopes.Values

/-!
# Steps that do the same where values are ranked

Environments and contexts are ranked if the values that they hold are. Two steps concur if they do
the same from every ranked context without a crash, and what they give has a property and leaves the
context ranked.
There is a lemma for each way to combine steps.
-/

namespace ModelicaFold

/-! ## Environments and contexts -/

/-- The values that a binding holds. -/
def Binding.values : Binding → List Value
  | .unbound => []
  | .value v => [v]
  | .expression _ _ cached => cached.toList

/-- The values that the variables of a scope have are ranked. -/
def Frame.Ranked (frame : Frame) : Prop :=
  ∀ entry ∈ frame.vars, ∀ v ∈ entry.2.binding.values, v.Ranked

/-- The values that the variables of any scope have are ranked. -/
def Env.Ranked (env : Env) : Prop := ∀ frame ∈ env.frames, frame.Ranked

/-- The values that are remembered are ranked. -/
def Context.Ranked (ctx : Context) : Prop := ∀ entry ∈ ctx.constants, entry.2.Ranked

namespace Env

variable {env : Env}

/-- The empty environment is ranked. -/
theorem ranked_empty : Env.empty.Ranked := by
  intro frame hframe
  rw [List.mem_singleton.mp hframe]
  exact nofun

namespace Ranked

/-- A new frame leaves an environment ranked. -/
theorem push (h : env.Ranked) (name : String) (kind : ScopeKind) : (env.push name kind).Ranked :=
  List.forall_mem_cons.mpr ⟨nofun, h⟩

/-- Declaring a variable with ranked values leaves an environment ranked. -/
theorem define (h : env.Ranked) (name : String) {declared : Variable}
    (hdeclared : ∀ v ∈ declared.binding.values, v.Ranked) : (env.define name declared).Ranked := by
  obtain ⟨hinnermost, houter⟩ := List.forall_mem_cons.mp h
  exact List.forall_mem_cons.mpr ⟨List.forall_mem_cons.mpr ⟨hdeclared, hinnermost⟩, houter⟩

/-- Declaring a variable of a ranked value leaves an environment ranked. -/
theorem defineValue (h : env.Ranked) (name : String) (ty : Ty) {v : Value} (hv : v.Ranked) :
    (env.define name (.ofValue ty v)).Ranked :=
  h.define name (List.forall_mem_singleton.mpr hv)

/-- Binding ranked values leaves an environment ranked. -/
theorem bindValues (h : env.Ranked) (name : String) (kind : ScopeKind)
    {bindings : List (String × Ty × Value)} (hbindings : ∀ binding ∈ bindings, binding.2.2.Ranked) :
    (env.bindValues name kind bindings).Ranked := by
  induction bindings using List.reverseRecOn with
  | nil => exact h.push name kind
  | append_singleton bindings binding ih =>
    obtain ⟨x, ty, v⟩ := binding
    obtain ⟨hbefore, hlast⟩ := List.forall_mem_append.mp hbindings
    rw [← define_bindValues]
    exact (ih hbefore).defineValue x ty (hlast _ List.mem_cons_self)

/-- What is found in a ranked environment is ranked, and so is the environment it is found in. -/
theorem lookup (h : env.Ranked) {name : String} {found : Found}
    (hfound : env.lookup name = some found) :
    found.env.Ranked ∧ ∀ v ∈ found.declared.binding.values, v.Ranked := by
  obtain ⟨hsuffix, hlookup, -⟩ := findVariable_spec hfound
  have hfoundEnv : found.env.Ranked := fun frame hframe => h frame (hsuffix.subset hframe)
  have hframe := hfoundEnv found.env.innermost List.mem_cons_self
  exact ⟨hfoundEnv, hframe _ (mem_of_lookup_eq_some hlookup)⟩

end Ranked

end Env

namespace Context

/-- A value that a ranked context remembers is ranked. -/
theorem Ranked.constant? {ctx : Context} (h : ctx.Ranked) {key : String} {v : Value}
    (hv : ctx.constant? key = some v) : v.Ranked :=
  h _ (mem_of_lookup_eq_some hv)

/-- Remembering a ranked value leaves a context ranked. -/
theorem Ranked.remember {ctx : Context} (h : ctx.Ranked) (key : String) {v : Value}
    (hv : v.Ranked) : (ctx.remember key v).Ranked := by
  unfold Context.remember
  split
  · exact h
  · exact List.forall_mem_cons.mpr ⟨hv, h⟩

end Context

/-- Handing a failure over as a diagnostic is no crash. -/
theorem Log.crashed_report (log : Log) (r : Reporting) (f : Failure) :
    (log.report r f).2.crashed = log.crashed := by
  unfold Log.report
  split <;> rfl

/-! ## Concurring steps -/

namespace EvalM

variable {α β : Type} {P Q : α → Prop} {R : β → Prop}

/-- From ranked contexts two steps do the same and do not crash; what they give has a property, and
the context they leave is ranked. -/
def Concurs (P : α → Prop) (x y : EvalM α) : Prop :=
  ∀ ctx log, ctx.Ranked → x ctx log = y ctx log ∧ (y ctx log).2.crashed = log.crashed ∧
    Outcome.Ensures (fun done : α × Context => P done.1 ∧ done.2.Ranked) (y ctx log).1

/-- A pure step concurs with itself. -/
theorem concurs_pure {a : α} (h : P a) : (pure a : EvalM α).Concurs P (pure a) :=
  fun _ _ hctx => ⟨rfl, rfl, Outcome.ensures_ok ⟨h, hctx⟩⟩

/-- A failure concurs with itself. -/
theorem concurs_throw (f : Failure) : (throw f : EvalM α).Concurs P (throw f) :=
  fun _ _ _ => ⟨rfl, rfl, Outcome.ensures_error f⟩

/-- A failure with a cause concurs with itself. -/
theorem concurs_fail (c : Cause) : (fail c : EvalM α).Concurs P (fail c) := concurs_throw _

/-- A computation without effects concurs with itself for what it ensures. -/
theorem concurs_ofOutcome {o : Outcome α} (h : o.Ensures P) :
    (ofOutcome o).Concurs P (ofOutcome o) := by
  cases o with
  | ok a => exact concurs_pure (h a rfl)
  | error f => exact concurs_throw f

/-- An access that stays in its bounds. -/
theorem concurs_ofAccess {x : Access α} {o : Outcome α} (hx : x.InBounds o) (h : o.Ensures P)
    (fault : Fault) : (ofAccess fault x).Concurs P (ofOutcome o) := by
  rw [hx.ofAccess_eq]
  exact concurs_ofOutcome h

/-- A note in the log that is not about a crash. -/
theorem concurs_modifyLog {f : Log → Log} (hf : ∀ log, (f log).crashed = log.crashed) :
    (modifyLog f).Concurs (fun _ => True) (modifyLog f) :=
  fun _ log hctx => ⟨rfl, hf log, Outcome.ensures_ok ⟨trivial, hctx⟩⟩

/-- A count concurs with itself. -/
theorem concurs_count (f : Counters → Counters) : (count f).Concurs (fun _ => True) (count f) :=
  concurs_modifyLog fun _ => rfl

/-- Asking for the context gives a ranked one. -/
theorem concurs_getContext : getContext.Concurs Context.Ranked getContext :=
  fun _ _ hctx => ⟨rfl, rfl, Outcome.ensures_ok ⟨hctx, hctx⟩⟩

/-- A change of the context that keeps it ranked concurs with itself. -/
theorem concurs_modifyContext {f : Context → Context} (hf : ∀ ctx, ctx.Ranked → (f ctx).Ranked) :
    (modifyContext f).Concurs (fun _ => True) (modifyContext f) :=
  fun ctx _ hctx => ⟨rfl, rfl, Outcome.ensures_ok ⟨trivial, hf ctx hctx⟩⟩

namespace Concurs

variable {x y : EvalM α}

/-- Steps concur for a weaker property as well. -/
theorem mono (hPQ : ∀ a, P a → Q a) (h : x.Concurs P y) : x.Concurs Q y := by
  intro ctx log hctx
  obtain ⟨hsame, hcrashed, hensures⟩ := h ctx log hctx
  exact ⟨hsame, hcrashed, fun done hdone => (hensures done hdone).imp_left (hPQ done.1)⟩

/-- Sequences concur if their parts do. -/
theorem bind {k l : α → EvalM β} (hx : x.Concurs P y) (hk : ∀ a, P a → (k a).Concurs R (l a)) :
    (x >>= k).Concurs R (y >>= l) := by
  intro ctx log hctx
  obtain ⟨hsame, hcrashed, hensures⟩ := hx ctx log hctx
  rw [bind_apply, bind_apply, hsame]
  generalize y ctx log = run at hcrashed hensures
  obtain ⟨f | ⟨a, ctx'⟩, log'⟩ := run
  · exact ⟨rfl, hcrashed, Outcome.ensures_error f⟩
  · obtain ⟨ha, hctx'⟩ := hensures _ rfl
    obtain ⟨hsame', hcrashed', hensures'⟩ := hk a ha ctx' log' hctx'
    exact ⟨hsame', hcrashed'.trans hcrashed, hensures'⟩

/-- What is only read does not matter to the step that reads nothing. -/
theorem read {fault : Fault} {access : Access β} {b : β} (h : access.InBounds (pure b))
    {k : β → EvalM α} (hk : (k b).Concurs P y) : (ofAccess fault access >>= k).Concurs P y := by
  rw [h.ofAccess_eq]
  exact hk

/-- Choices on one condition concur if their branches do. -/
theorem ite {c : Prop} [Decidable c] {x' y' : EvalM α} (hx : c → x.Concurs P y)
    (hx' : ¬c → x'.Concurs P y') : (if c then x else x').Concurs P (if c then y else y') := by
  by_cases h : c
  · rw [if_pos h, if_pos h]
    exact hx h
  · rw [if_neg h, if_neg h]
    exact hx' h

/-- Trying steps that concur gives outcomes that ensure the property. -/
theorem attempt (h : x.Concurs P y) : x.attempt.Concurs (Outcome.Ensures P) y.attempt := by
  intro ctx log hctx
  obtain ⟨hsame, hcrashed, hensures⟩ := h ctx log hctx
  unfold EvalM.attempt
  rw [hsame]
  generalize y ctx log = run at hcrashed hensures
  obtain ⟨f | ⟨a, ctx'⟩, log'⟩ := run
  · exact ⟨rfl, hcrashed, Outcome.ensures_ok ⟨Outcome.ensures_error f, hctx⟩⟩
  · obtain ⟨ha, hctx'⟩ := hensures _ rfl
    exact ⟨rfl, hcrashed, Outcome.ensures_ok ⟨Outcome.ensures_ok ha, hctx'⟩⟩

/-- Reporting failures leaves steps concurring. -/
theorem reporting (h : x.Concurs P y) (r : Reporting) :
    (x.reporting r).Concurs P (y.reporting r) := by
  intro ctx log hctx
  obtain ⟨hsame, hcrashed, hensures⟩ := h ctx log hctx
  unfold EvalM.reporting
  rw [hsame]
  generalize y ctx log = run at hcrashed hensures
  obtain ⟨f | done, log'⟩ := run
  · exact ⟨rfl, (log'.crashed_report r f).trans hcrashed, Outcome.ensures_error _⟩
  · exact ⟨rfl, hcrashed, hensures⟩

/-- Alternatives that concur one by one. -/
theorem firstMatchAfter {alternatives alternatives' : List (Option (EvalM α))}
    (h : List.Forall₂ (Option.Rel (Concurs P)) alternatives alternatives') (kept : Option Failure) :
    (EvalM.firstMatchAfter kept alternatives).Concurs P
      (EvalM.firstMatchAfter kept alternatives') := by
  induction h generalizing kept with
  | nil => exact concurs_throw _
  | cons hfirst _ ih =>
    cases hfirst with
    | none => exact ih kept
    | some hfirst =>
      refine hfirst.attempt.bind fun outcome houtcome => ?_
      cases outcome with
      | ok a => exact concurs_pure (houtcome a rfl)
      | error f => exact .ite (fun _ => concurs_throw f) fun _ => ih _

/-- Mapping a list concurs if the steps do. -/
theorem mapM {f g : α → EvalM β} {items : List α} (h : ∀ a ∈ items, (f a).Concurs R (g a)) :
    (items.mapM f).Concurs (fun results => ∀ b ∈ results, R b) (items.mapM g) := by
  induction items with
  | nil => exact concurs_pure (List.forall_mem_nil _)
  | cons a items ih =>
    obtain ⟨ha, hitems⟩ := List.forall_mem_cons.mp h
    rw [List.mapM_cons, List.mapM_cons]
    refine ha.bind fun b hb => (ih hitems).bind fun bs hbs => concurs_pure ?_
    exact List.forall_mem_cons.mpr ⟨hb, hbs⟩

/-- Steps on an optional item concur if they do on the item. -/
theorem optionMapM {f g : α → EvalM β} {item : Option α}
    (h : ∀ a ∈ item, (f a).Concurs R (g a)) :
    (item.mapM f).Concurs (fun result => ∀ b ∈ result, R b) (item.mapM g) := by
  cases item with
  | none => exact concurs_pure nofun
  | some a =>
    refine (h a rfl).bind fun b hb => concurs_pure fun b' hb' => ?_
    cases hb'
    exact hb

/-- Folds concur if their steps do and keep the property. -/
theorem foldlM {f g : β → α → EvalM β} {items : List α} {b : β} (hb : R b)
    (h : ∀ b, ∀ a ∈ items, R b → (f b a).Concurs R (g b a)) :
    (items.foldlM f b).Concurs R (items.foldlM g b) := by
  induction items generalizing b with
  | nil => exact concurs_pure hb
  | cons a items ih =>
    rw [List.foldlM_cons, List.foldlM_cons]
    refine (h b a List.mem_cons_self hb).bind fun b' hb' => ih hb' fun b a ha => ?_
    exact h b a (List.mem_cons_of_mem _ ha)

/-- Filtering keeps items of the list. -/
theorem filterM {p q : α → EvalM Bool} {items : List α}
    (h : ∀ a ∈ items, (p a).Concurs (fun _ => True) (q a)) :
    (items.filterM p).Concurs (fun kept => ∀ a ∈ kept, a ∈ items) (items.filterM q) := by
  -- The kept items are collected in reverse order.
  have haux : ∀ rest before : List α, (∀ a ∈ rest, (p a).Concurs (fun _ => True) (q a)) →
      (List.filterAuxM p rest before).Concurs (fun kept => ∀ a ∈ kept, a ∈ rest ∨ a ∈ before)
        (List.filterAuxM q rest before) := by
    intro rest
    induction rest with
    | nil => exact fun before _ => concurs_pure fun a ha => .inr ha
    | cons b rest ih =>
      intro before hrest
      obtain ⟨hb, hrest⟩ := List.forall_mem_cons.mp hrest
      refine hb.bind fun verdict _ => (ih _ hrest).mono fun kept hkept a ha => ?_
      rcases hkept a ha with hmem | hmem
      · exact .inl (List.mem_cons_of_mem b hmem)
      · cases verdict with
        | true =>
          rcases List.mem_cons.mp hmem with rfl | hmem
          · exact .inl List.mem_cons_self
          · exact .inr hmem
        | false => exact .inr hmem
  refine (haux items [] h).bind fun kept hkept => concurs_pure fun a ha => ?_
  simpa using hkept a (List.mem_reverse.mp ha)

end Concurs

/-- Something made of what two concurring steps give. -/
theorem concurs_map {x y : EvalM α} {f : α → β} (h : x.Concurs P y) (hf : ∀ a, P a → R (f a)) :
    (x >>= fun a => pure (f a)).Concurs R (y >>= fun a => pure (f a)) :=
  h.bind fun a ha => concurs_pure (hf a ha)

end EvalM

end ModelicaFold
