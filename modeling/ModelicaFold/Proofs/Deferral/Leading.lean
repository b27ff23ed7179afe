import Mathlib.Data.Option.Basic
import ModelicaFold.Proofs.Deferral.Shapes
import ModelicaFold.Proofs.Memory.Contexts
import ModelicaFold.Proofs.Memory.Declarations
import ModelicaFold.Proofs.Runs.Bodies
import ModelicaFold.Proofs.Runs.Outcome
import ModelicaFold.Proofs.Runs.Success

/-!
# A run and one with values filled in

Two runs of one evaluation: in the environment of the first one variables are deferred, and in that
of the second one some of them have values (`Env.Filled`). What the second run remembers is filled
in likewise (`Context.Filled`). The first run leads the second one if the second one succeeds
whenever the first one does, with a related result (`EvalM.Leads`), whatever the logs. Nothing is
said about a first run that fails.
-/

namespace ModelicaFold

open Outcome Value

/-- If the first of two related options has a value, the second has a related one. -/
theorem exists_of_rel_some {α β : Type} {R : α → β → Prop} {o : Option α} {o' : Option β}
    (h : Option.Rel R o o') {a : α} (ha : o = some a) : ∃ b, o' = some b ∧ R a b := by
  cases h with
  | none => cases ha
  | some hab =>
    cases ha
    exact ⟨_, rfl, hab⟩

/-- If the first of two related options has no value, the second has none. -/
theorem eq_none_of_rel_none {α β : Type} {R : α → β → Prop} {o : Option α} {o' : Option β}
    (h : Option.Rel R o o') (ho : o = none) : o' = none := by
  cases h with
  | none => rfl
  | some _ => cases ho

/-! ## Contexts -/

/-- A context, and one that remembers values that are filled in. -/
structure Context.Filled (C C' : Context) : Prop where
  functions : C'.functions = C.functions
  constants : ∀ key, Option.Rel (Value.Filled true) (C.constant? key) (C'.constant? key)

namespace Context.Filled

/-- Every context is filled in by itself. -/
theorem refl (C : Context) : C.Filled C := by
  refine ⟨rfl, fun key => ?_⟩
  cases C.constant? key with
  | none => exact .none
  | some v => exact .some (.refl v)

/-- Contexts stay related when values that are related are remembered. -/
theorem remember {C C' : Context} (h : C.Filled C') (key : String) {v w : Value}
    (hvw : v.Filled true w) : (C.remember key v).Filled (C'.remember key w) := by
  unfold Context.remember
  cases hkey : C.constant? key with
  | some u =>
    obtain ⟨u', hkey', -⟩ := exists_of_rel_some (h.constants key) hkey
    rw [hkey']
    exact h
  | none =>
    rw [eq_none_of_rel_none (h.constants key) hkey]
    refine ⟨h.functions, fun k => ?_⟩
    simp only [constant?, List.lookup_cons]
    cases k == key with
    | true => exact .some hvw
    | false => exact h.constants k

end Context.Filled

/-! ## Environments -/

/-- No record of a type has defaults for all of its fields, in any environment that evaluation
meets: a variable of this type is deferred if it has no value. -/
def Env.NeverDefaults (start : Env) (ty : Ty) : Prop :=
  ∀ env, start.Extends env → env.defaultedRecord? ty = none

/-- A variable, and one that is the same but for a value that is filled in. -/
inductive Variable.Filled (start : Env) : Variable → Variable → Prop where
  | same (declared : Variable) : Filled start declared declared
  | value (ty : Ty) (variability : Variability) {v w : Value} (h : v.Filled true w) :
      Filled start ⟨ty, variability, .value v⟩ ⟨ty, variability, .value w⟩
  /-- A variable that was deferred has a value. -/
  | given {ty : Ty} (variability : Variability) {w : Value} (hty : start.NeverDefaults ty)
      (h : w.MayFill true ty) :
      Filled start ⟨ty, variability, .unbound⟩ ⟨ty, variability, .value w⟩

/-- A scope, and one with values filled in. -/
structure Frame.Filled (start : Env) (frame frame' : Frame) : Prop where
  name : frame'.name = frame.name
  kind : frame'.kind = frame.kind
  classes : frame'.classes = frame.classes
  vars : List.Forall₂ (fun x y => x.1 = y.1 ∧ x.2.Filled start y.2) frame.vars frame'.vars

/-- An environment, and one with values filled in. -/
def Env.Filled (start env env' : Env) : Prop :=
  List.Forall₂ (Frame.Filled start) env.frames env'.frames

/-- What is found in an environment and in one with values filled in. -/
structure Found.Filled (start : Env) (found found' : Found) : Prop where
  declared : found.declared.Filled start found'.declared
  scope : found'.scope = found.scope
  isIterator : found'.isIterator = found.isIterator
  env : start.Filled found.env found'.env

/-- Bindings of the same names and types, with values filled in. -/
abbrev BindingsFilled : List (String × Ty × Value) → List (String × Ty × Value) → Prop :=
  List.Forall₂ fun x y => x.1 = y.1 ∧ x.2.1 = y.2.1 ∧ x.2.2.Filled true y.2.2

namespace Frame.Filled

variable {start : Env} {frame frame' : Frame}

/-- Every frame is filled in by itself. -/
theorem refl (start : Env) (frame : Frame) : frame.Filled start frame :=
  ⟨rfl, rfl, rfl, List.forall₂_same.mpr fun _ _ => ⟨rfl, .same _⟩⟩

/-- A name finds related variables in related frames. -/
theorem lookup (h : frame.Filled start frame') (name : String) :
    Option.Rel (Variable.Filled start) (frame.vars.lookup name) (frame'.vars.lookup name) := by
  have hvars := h.vars
  generalize frame.vars = vars, frame'.vars = vars' at hvars
  induction hvars with
  | nil => exact .none
  | @cons x y _ _ hxy _ ih =>
    rw [List.lookup_cons, List.lookup_cons, ← hxy.1]
    cases name == x.1 with
    | true => exact .some hxy.2
    | false => exact ih

end Frame.Filled

namespace Env.Filled

variable {start env env' : Env}

/-- Every environment is filled in by itself. -/
theorem refl (start env : Env) : start.Filled env env :=
  List.forall₂_same.mpr fun frame _ => .refl start frame

/-- The innermost frames of related environments are related. -/
theorem innermost (h : start.Filled env env') : env.innermost.Filled start env'.innermost :=
  (List.forall₂_cons.mp h).1

/-- A new frame leaves environments related. -/
theorem push (h : start.Filled env env') (name : String) (kind : ScopeKind) :
    start.Filled (env.push name kind) (env'.push name kind) :=
  .cons (.refl start _) h

/-- Declaring related variables leaves environments related. -/
theorem define (h : start.Filled env env') (x : String) {declared declared' : Variable}
    (hdeclared : declared.Filled start declared') :
    start.Filled (env.define x declared) (env'.define x declared') := by
  obtain ⟨hframe, houter⟩ := List.forall₂_cons.mp h
  exact .cons ⟨hframe.name, hframe.kind, hframe.classes, .cons ⟨rfl, hdeclared⟩ hframe.vars⟩ houter

/-- Binding related values leaves environments related. -/
theorem bindValues (h : start.Filled env env') (name : String) (kind : ScopeKind)
    {bindings bindings' : List (String × Ty × Value)}
    (hbindings : BindingsFilled bindings bindings') :
    start.Filled (env.bindValues name kind bindings) (env'.bindValues name kind bindings') := by
  have hscope := h.push name kind
  unfold Env.bindValues
  generalize env.push name kind = scope, env'.push name kind = scope' at hscope
  induction hbindings generalizing scope scope' with
  | nil => exact hscope
  | @cons x y _ _ hxy _ ih =>
    obtain ⟨x, ty, v⟩ := x
    obtain ⟨y, ty', w⟩ := y
    obtain ⟨rfl, rfl, hvw⟩ := hxy
    exact ih _ _ (hscope.define x (.value ty .constant hvw))

/-- A name finds related variables in related environments. -/
theorem lookup (h : start.Filled env env') (name : String) :
    Option.Rel (Found.Filled start) (env.lookup name) (env'.lookup name) := by
  obtain ⟨frame, outer⟩ := env
  obtain ⟨frame', outer'⟩ := env'
  obtain ⟨hframe, houter⟩ := List.forall₂_cons.mp h
  unfold Env.lookup
  simp only at hframe houter ⊢
  clear h
  have hfound : ∀ {frame frame' : Frame} {outer outer' : List Frame}
      {declared declared' : Variable}, frame.Filled start frame' →
      List.Forall₂ (Frame.Filled start) outer outer' → declared.Filled start declared' →
      Found.Filled start ⟨declared, frame.name, frame.kind == .iteratorScope, ⟨frame, outer⟩⟩
        ⟨declared', frame'.name, frame'.kind == .iteratorScope, ⟨frame', outer'⟩⟩ :=
    fun hframe houter hdeclared =>
      ⟨hdeclared, hframe.name, by rw [hframe.kind], .cons hframe houter⟩
  induction houter generalizing frame frame' with
  | nil =>
    rw [findVariable, findVariable]
    cases hname : frame.vars.lookup name with
    | none => rw [eq_none_of_rel_none (hframe.lookup name) hname]; exact .none
    | some declared =>
      obtain ⟨declared', hname', hdeclared⟩ := exists_of_rel_some (hframe.lookup name) hname
      rw [hname']
      exact .some (hfound hframe .nil hdeclared)
  | cons hnext houter ih =>
    rw [findVariable, findVariable]
    cases hname : frame.vars.lookup name with
    | none =>
      rw [eq_none_of_rel_none (hframe.lookup name) hname]
      exact ih _ _ hnext
    | some declared =>
      obtain ⟨declared', hname', hdeclared⟩ := exists_of_rel_some (hframe.lookup name) hname
      rw [hname']
      exact .some (hfound hframe (.cons hnext houter) hdeclared)

/-- Classes are found alike. -/
theorem lookupClass (h : start.Filled env env') (path : Path) :
    env'.lookupClass path = env.lookupClass path := by
  unfold Env.lookupClass
  have hframes : List.Forall₂ (Frame.Filled start) (env.innermost :: env.outer)
    (env'.innermost :: env'.outer) := h
  generalize env.innermost :: env.outer = frames, env'.innermost :: env'.outer = frames' at hframes
  induction hframes with
  | nil => rfl
  | cons hframe _ ih => simp only [List.findSome?_cons, hframe.classes, ih]

/-- The record that stands for a missing value is found alike. -/
theorem defaultedRecord?_eq (h : start.Filled env env') (ty : Ty) :
    env'.defaultedRecord? ty = env.defaultedRecord? ty := by
  unfold Env.defaultedRecord?
  cases ty with
  | record path => simp only [h.lookupClass]
  | _ => rfl

/-- External functions with a known meaning are found alike. -/
theorem function?_eq (h : start.Filled env env') (path : Path) :
    Builtin.External.function? env' path = Builtin.External.function? env path := by
  unfold Builtin.External.function?
  rw [h.lookupClass]

/-- The same names are declared. -/
theorem isSome_lookup_eq (h : start.Filled env env') (name : String) :
    (env'.lookup name).isSome = (env.lookup name).isSome := by
  cases hname : env.lookup name with
  | none => rw [eq_none_of_rel_none (h.lookup name) hname]
  | some found =>
    obtain ⟨found', hname', -⟩ := exists_of_rel_some (h.lookup name) hname
    rw [hname']
    rfl

/-- References are split alike. -/
theorem splitReference_eq (h : start.Filled env env') (r : Reference) :
    env'.splitReference r = env.splitReference r := by
  have hprefix : ∀ n, env'.declaredPrefix r n = env.declaredPrefix r n := by
    intro n
    induction n with
    | zero => rfl
    | succ n ih => simp only [Env.declaredPrefix, h.isSome_lookup_eq, ih]
  simp only [Env.splitReference, hprefix]

end Env.Filled

/-! ## Requests -/

/-- A request in an environment that evaluation meets, and one with values filled in. They may
report failures in different ways. -/
structure Request.Filled (start : Env) (req req' : Request) : Prop where
  meets : start.Extends req.env
  env : start.Filled req.env req'.env
  mode : req'.mode = req.mode

namespace Request.Filled

variable {start : Env} {req req' : Request}

/-- Requests within related environments are related. -/
theorem within (h : req.Filled start req') {env env' : Env} (hmeets : start.Extends env)
    (henv : start.Filled env env') : (req.within env).Filled start (req'.within env') :=
  ⟨hmeets, henv, h.mode⟩

/-- Requests within scopes of related values are related. -/
theorem bindValues (h : req.Filled start req') (name : String) (kind : ScopeKind)
    {bindings bindings' : List (String × Ty × Value)}
    (hbindings : BindingsFilled bindings bindings') :
    (req.within (req.env.bindValues name kind bindings)).Filled start
      (req'.within (req'.env.bindValues name kind bindings')) :=
  h.within (h.meets.bindValues name kind bindings) (h.env.bindValues name kind hbindings)

/-- What may be read is the same for related requests. -/
theorem mayRead_eq (h : req.Filled start req') {found found' : Found}
    (hfound : found.Filled start found') (v : Variability) :
    req'.mayRead found' v = req.mayRead found v := by
  simp only [Request.mayRead, Env.inIteratorScope, h.mode, hfound.isIterator, h.env.innermost.kind]

end Request.Filled

/-! ## A step that leads another one -/

namespace EvalM

variable {α α' β β' : Type} {R : α → α' → Prop} {S : β → β' → Prop}

section

variable {x : EvalM α} {C : Context} {log : Log} (k : Except Failure α → EvalM β)

/-- Where a step succeeds, trying it goes on with its value. -/
theorem attempt_bind_of_ok {a : α} {D : Context} (h : (x C log).1 = .ok (a, D)) :
    (x.attempt >>= k) C log = k (.ok a) D (x C log).2 := by
  rw [bind_apply, attempt_of_ok h]

/-- Where a step fails, trying it goes on with the failure from the context before. -/
theorem attempt_bind_of_error {f : Failure} (h : (x C log).1 = .error f) :
    (x.attempt >>= k) C log = k (.error f) C (x C log).2 := by
  rw [bind_apply, attempt_of_error h]

end

/-- A step that succeeds wherever another one does, from a context with values filled in and any
log, with a related result. -/
def Leads (R : α → α' → Prop) (x : EvalM α) (x' : EvalM α') : Prop :=
  ∀ C log a D log', x.Gives C log a D log' → ∀ C', C.Filled C' → ∀ log₀,
    ∃ a' D' log₁, x'.Gives C' log₀ a' D' log₁ ∧ R a a' ∧ D.Filled D'

/-- Related values lead each other. -/
theorem leads_pure {a : α} {a' : α'} (h : R a a') :
    Leads R (pure a : EvalM α) (pure a' : EvalM α') := by
  intro C log b D log' hrun C' hC log₀
  obtain ⟨rfl, rfl, rfl⟩ := gives_pure.mp hrun
  exact ⟨a', C', log₀, gives_pure.mpr ⟨rfl, rfl, rfl⟩, h, hC⟩

/-- A failure leads every step. -/
theorem leads_throw (f : Failure) (x' : EvalM α') : Leads R (throw f : EvalM α) x' := by
  intro C log a D log' hrun
  cases hrun

/-- A failure with a cause leads every step. -/
theorem leads_fail (c : Cause) (x' : EvalM α') : Leads R (fail c : EvalM α) x' :=
  leads_throw _ x'

/-- A refusal at the recursion limit leads every step. -/
theorem leads_refuse (ev : Evaluator) (x' : EvalM α') : Leads R (ev.refuse : EvalM α) x' := by
  intro C log a D log' hrun
  cases hrun

/-- Computations without effects lead each other if their values are related. -/
theorem leads_ofOutcome {o : Outcome α} {o' : Outcome α'} (h : Yields R o o') :
    Leads R (ofOutcome o) (ofOutcome o') := by
  intro C log a D log' hrun C' hC log₀
  obtain ⟨ho, rfl, rfl⟩ := gives_ofOutcome.mp hrun
  obtain ⟨a', ho', haa'⟩ := h a ho
  exact ⟨a', C', log₀, gives_ofOutcome.mpr ⟨ho', rfl, rfl⟩, haa', hC⟩

/-- Computations without effects lead each other also where they are lifted. -/
theorem leads_liftOutcome {o : Outcome α} {o' : Outcome α'} (h : Yields R o o') :
    Leads R (liftM o : EvalM α) (liftM o' : EvalM α') := leads_ofOutcome h

/-- Changes of the log lead each other. -/
theorem leads_modifyLog (g g' : Log → Log) : Leads Eq (modifyLog g) (modifyLog g') := by
  intro C log a D log' hrun C' hC log₀
  cases hrun
  exact ⟨(), C', g' log₀, rfl, rfl, hC⟩

/-- Asking for the context gives contexts that are filled in. -/
theorem leads_getContext : Leads Context.Filled getContext getContext := by
  intro C log a D log' hrun C' hC log₀
  cases hrun
  exact ⟨C', C', log₀, rfl, hC, hC⟩

/-- The functions of both contexts are the same. -/
theorem leads_getFunctions : Leads Eq getFunctions getFunctions := by
  intro C log a D log' hrun C' hC log₀
  cases hrun
  exact ⟨C'.functions, C', log₀, rfl, hC.functions.symm, hC⟩

/-- Remembering a value leads remembering a related one. -/
theorem leads_remember (key : String) {v w : Value} (h : v.Filled true w) :
    Leads Eq (modifyContext fun ctx => ctx.remember key v)
      (modifyContext fun ctx => ctx.remember key w) := by
  intro C log a D log' hrun C' hC log₀
  cases hrun
  exact ⟨(), C'.remember key w, log₀, rfl, rfl, hC.remember key h⟩

namespace Leads

/-- A step leads with a weaker relation as well. -/
theorem mono {R' : α → α' → Prop} (hR : ∀ a a', R a a' → R' a a') {x : EvalM α} {x' : EvalM α'}
    (h : Leads R x x') : Leads R' x x' := by
  intro C log a D log' hrun C' hC log₀
  obtain ⟨a', D', log₁, hrun', haa', hD⟩ := h C log a D log' hrun C' hC log₀
  exact ⟨a', D', log₁, hrun', hR a a' haa', hD⟩

/-- What is known of every result. -/
theorem and {P : α → Prop} {x : EvalM α} {x' : EvalM α'} (h : Leads R x x')
    (hP : ∀ C log a D log', x.Gives C log a D log' → P a) :
    Leads (fun a a' => R a a' ∧ P a) x x' := by
  intro C log a D log' hrun C' hC log₀
  obtain ⟨a', D', log₁, hrun', haa', hD⟩ := h C log a D log' hrun C' hC log₀
  exact ⟨a', D', log₁, hrun', ⟨haa', hP C log a D log' hrun⟩, hD⟩

/-- A sequence leads another one if its parts do. -/
theorem bind {x : EvalM α} {x' : EvalM α'} {k : α → EvalM β} {k' : α' → EvalM β'}
    (hx : Leads R x x') (hk : ∀ a a', R a a' → Leads S (k a) (k' a')) :
    Leads S (x >>= k) (x' >>= k') := by
  intro C log b D log' hrun C' hC log₀
  obtain ⟨a, C₁, log₁, ha, hb⟩ := gives_bind.mp hrun
  obtain ⟨a', C₁', log₁', ha', haa', hC₁⟩ := hx C log a C₁ log₁ ha C' hC log₀
  obtain ⟨b', D', log₂, hb', hbb', hD⟩ := hk a a' haa' C₁ log₁ b D log' hb C₁' hC₁ log₁'
  exact ⟨b', D', log₂, gives_bind.mpr ⟨a', C₁', log₁', ha', hb'⟩, hbb', hD⟩

/-- The same result goes on in both runs. -/
theorem bind_eq {x x' : EvalM α} {k : α → EvalM β} {k' : α → EvalM β'} (hx : Leads Eq x x')
    (hk : ∀ a, Leads S (k a) (k' a)) : Leads S (x >>= k) (x' >>= k') :=
  hx.bind fun a _ heq => heq ▸ hk a

/-- Functions that relate the results may be applied to them. -/
theorem map {x : EvalM α} {x' : EvalM α'} {f : α → β} {f' : α' → β'} (hx : Leads R x x')
    (hf : ∀ a a', R a a' → S (f a) (f' a')) :
    Leads S (x >>= fun a => Pure.pure (f a)) (x' >>= fun a => Pure.pure (f' a)) :=
  hx.bind fun a a' h => leads_pure (hf a a' h)

/-- A function may be applied to results that are the same. -/
theorem map_eq {x x' : EvalM α} (hx : Leads Eq x x') (f : α → β) :
    Leads Eq (x >>= fun a => Pure.pure (f a)) (x' >>= fun a => Pure.pure (f a)) :=
  hx.bind_eq fun _ => leads_pure rfl

/-- A choice leads another one on the same condition if its branches do. -/
theorem ite {c : Prop} [Decidable c] {x y : EvalM α} {x' y' : EvalM α'} (hx : c → Leads R x x')
    (hy : ¬c → Leads R y y') : Leads R (if c then x else y) (if c then x' else y') := by
  by_cases h : c
  · simpa only [if_pos h] using hx h
  · simpa only [if_neg h] using hy h

/-- Mapping a list leads mapping a related one. -/
theorem mapM {f : α → EvalM β} {f' : α' → EvalM β'} {as : List α} {as' : List α'}
    (has : List.Forall₂ R as as') (hf : ∀ a a', R a a' → Leads S (f a) (f' a')) :
    Leads (List.Forall₂ S) (as.mapM f) (as'.mapM f') := by
  induction has with
  | nil => exact leads_pure .nil
  | cons haa' _ ih =>
    rw [List.mapM_cons, List.mapM_cons]
    refine (hf _ _ haa').bind fun b b' hbb' => ?_
    exact ih.map fun bs bs' hbs => .cons hbb' hbs

/-- Steps for the items of one list. -/
theorem mapM_same {f : α → EvalM β} {f' : α → EvalM β'} {as : List α}
    (hf : ∀ a ∈ as, Leads S (f a) (f' a)) : Leads (List.Forall₂ S) (as.mapM f) (as.mapM f') := by
  have has : List.Forall₂ (fun a a' => a = a' ∧ a ∈ as) as as :=
    List.forall₂_same.mpr fun a ha => ⟨rfl, ha⟩
  refine .mapM has ?_
  rintro a _ ⟨rfl, ha⟩
  exact hf a ha

/-- Mapping one list twice leads to the same results if each step does. -/
theorem mapM_eq {f f' : α → EvalM β} {as : List α} (hf : ∀ a ∈ as, Leads Eq (f a) (f' a)) :
    Leads Eq (as.mapM f) (as.mapM f') := by
  rw [← List.forall₂_eq_eq_eq]
  exact .mapM_same hf

/-- A step on an optional item leads another one if it does on the item. -/
theorem optionMapM {f : α → EvalM β} {f' : α → EvalM β'} {item : Option α}
    (hf : ∀ a, item = some a → Leads S (f a) (f' a)) :
    Leads (Option.Rel S) (item.mapM f) (item.mapM f') := by
  cases item with
  | none => exact leads_pure .none
  | some a => exact (hf a rfl).map fun b b' h => .some h

/-- A fold leads another one if its steps do. -/
theorem foldlM {f : β → α → EvalM β} {f' : β' → α' → EvalM β'} {as : List α} {as' : List α'}
    (has : List.Forall₂ R as as')
    (hf : ∀ b b' a a', S b b' → R a a' → Leads S (f b a) (f' b' a')) {b : β} {b' : β'}
    (hb : S b b') : Leads S (as.foldlM f b) (as'.foldlM f' b') := by
  induction has generalizing b b' with
  | nil => exact leads_pure hb
  | cons haa' _ ih =>
    rw [List.foldlM_cons, List.foldlM_cons]
    exact (hf _ _ _ _ hb haa').bind fun c c' hc => ih hc

/-- Filtering leads filtering with the same verdicts to related lists. -/
theorem filterM {p : α → EvalM Bool} {p' : α' → EvalM Bool} {as : List α} {as' : List α'}
    (has : List.Forall₂ R as as') (hp : ∀ a a', R a a' → Leads Eq (p a) (p' a')) :
    Leads (List.Forall₂ R) (as.filterM p) (as'.filterM p') := by
  have hkept : ∀ {kept : List α} {kept' : List α'}, List.Forall₂ R kept kept' →
      Leads (List.Forall₂ R) (List.filterAuxM p as kept) (List.filterAuxM p' as' kept') := by
    induction has with
    | nil => exact fun hkept => leads_pure hkept
    | cons haa' _ ih =>
      intro kept kept' hkept
      refine (hp _ _ haa').bind_eq fun b => ih ?_
      cases b with
      | true => exact .cons haa' hkept
      | false => exact hkept
  exact (hkept .nil).map fun _ _ h => List.rel_reverse h

/-- A failure that is handed over leads nowhere. -/
theorem attempt {x : EvalM α} {x' : EvalM α'} {k : Except Failure α → EvalM β}
    {k' : Except Failure α' → EvalM β'} (hx : Leads R x x')
    (hok : ∀ a a', R a a' → Leads S (k (.ok a)) (k' (.ok a')))
    (herror : ∀ f C log b D log', ¬(k (.error f)).Gives C log b D log') :
    Leads S (x.attempt >>= k) (x'.attempt >>= k') := by
  intro C log b D log' hrun C' hC log₀
  cases hx' : (x C log).1 with
  | ok done =>
    obtain ⟨a, C₁⟩ := done
    rw [Gives, attempt_bind_of_ok k hx'] at hrun
    obtain ⟨a', C₁', log₁', ha', haa', hC₁⟩ := hx C log a C₁ _ (run_eq hx') C' hC log₀
    obtain ⟨b', D', log₂, hb', hbb', hD⟩ := hok a a' haa' C₁ _ b D log' hrun C₁' hC₁ log₁'
    refine ⟨b', D', log₂, ?_, hbb', hD⟩
    rw [Gives, attempt_bind_of_ok k' (congrArg Prod.fst ha'), ha']
    exact hb'
  | error f =>
    rw [Gives, attempt_bind_of_error k hx'] at hrun
    exact absurd hrun (herror f C _ b D log')

/-- Reporting failures does not change what leads. -/
theorem reporting {x : EvalM α} {x' : EvalM α'} (h : Leads R x x') (r r' : Reporting) :
    Leads R (x.reporting r) (x'.reporting r') := by
  intro C log a D log' hrun C' hC log₀
  obtain ⟨a', D', log₁, hrun', haa', hD⟩ := h C log a D log' (gives_reporting.mp hrun) C' hC log₀
  exact ⟨a', D', log₁, gives_reporting.mpr hrun', haa', hD⟩

end Leads

end EvalM

end ModelicaFold
