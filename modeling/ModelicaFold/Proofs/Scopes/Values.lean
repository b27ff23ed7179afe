import Mathlib.Data.List.Induction
import ModelicaFold.Scope.Env

/-!
# Scopes of values

Evaluation pushes scopes onto an environment in which every variable has a value: iterators, fields
of records and parameters of functions (`Env.bindValues`). Any other binding is therefore found where
it was found before (`Env.lookup_bindValues`), and a lookup in general ends at one of the frames of
the environment (`Env.findVariable_spec`).
-/

namespace ModelicaFold

/-- What a list of pairs has for a name stands in it. -/
theorem mem_of_lookup_eq_some {α β : Type} [BEq α] [LawfulBEq α] {items : List (α × β)} {name : α}
    {b : β} (h : items.lookup name = some b) : (name, b) ∈ items := by
  obtain ⟨before, after, rfl, -⟩ := List.lookup_eq_some_iff.mp h
  exact List.mem_append_right before List.mem_cons_self

namespace Env

/-- All scopes, the innermost first. -/
def frames (env : Env) : List Frame := env.innermost :: env.outer

/-- An environment is determined by its frames. -/
theorem frames_injective {env env' : Env} (h : env.frames = env'.frames) : env = env' := by
  obtain ⟨frame, outer⟩ := env
  obtain ⟨frame', outer'⟩ := env'
  obtain ⟨rfl, rfl⟩ := List.cons.inj h
  rfl

/-- A lookup ends at a frame of the environment that declares the name, and gives the frames from
this one on. -/
theorem findVariable_spec {name : String} {frame : Frame} {outer : List Frame} {found : Found}
    (h : findVariable name frame outer = some found) :
    found.env.frames <:+ frame :: outer
      ∧ found.env.innermost.vars.lookup name = some found.declared
      ∧ found.scope = found.env.innermost.name
      ∧ found.isIterator = (found.env.innermost.kind == .iteratorScope) := by
  induction outer generalizing frame with
  | nil =>
    obtain ⟨v, hv, rfl⟩ := Option.map_eq_some_iff.mp h
    exact ⟨List.suffix_rfl, hv, rfl, rfl⟩
  | cons next more ih =>
    rw [findVariable] at h
    cases hv : frame.vars.lookup name with
    | some v =>
      rw [hv] at h
      cases h
      exact ⟨List.suffix_rfl, hv, rfl, rfl⟩
    | none =>
      rw [hv] at h
      obtain ⟨hframes, hrest⟩ := ih h
      exact ⟨hframes.trans (List.suffix_cons frame _), hrest⟩

/-! ## Scopes of values -/

/-- A new innermost scope in which variables have the given types and values. -/
def bindValues (env : Env) (name : String) (kind : ScopeKind)
    (bindings : List (String × Ty × Value)) : Env :=
  bindings.foldl (fun env (x, ty, v) => env.define x (.ofValue ty v)) (env.push name kind)

/-- Binding one more value in a scope of values gives a scope of values. -/
theorem define_bindValues (env : Env) (name : String) (kind : ScopeKind)
    (bindings : List (String × Ty × Value)) (x : String) (ty : Ty) (v : Value) :
    (env.bindValues name kind bindings).define x (.ofValue ty v)
      = env.bindValues name kind (bindings ++ [(x, ty, v)]) := by
  simp [bindValues, List.foldl_append]

/-- Outside a scope of values are the frames of the environment it was pushed onto. -/
theorem outer_bindValues (env : Env) (name : String) (kind : ScopeKind)
    (bindings : List (String × Ty × Value)) :
    (env.bindValues name kind bindings).outer = env.frames := by
  induction bindings using List.reverseRecOn with
  | nil => rfl
  | append_singleton bindings binding ih =>
    rw [← define_bindValues]
    exact ih

/-- Every variable of a scope of values is bound to a value. -/
theorem innermost_bindValues (env : Env) (name : String) (kind : ScopeKind)
    (bindings : List (String × Ty × Value)) {x : String} {declared : Variable}
    (h : (x, declared) ∈ (env.bindValues name kind bindings).innermost.vars) :
    ∃ v, declared.binding = .value v := by
  induction bindings using List.reverseRecOn with
  | nil => cases h
  | append_singleton bindings binding ih =>
    obtain ⟨y, ty, v⟩ := binding
    rw [← define_bindValues] at h
    rcases List.mem_cons.mp h with heq | hmem
    · cases heq
      exact ⟨v, rfl⟩
    · exact ih hmem

/-- A scope of values has the kind it was made with. -/
theorem kind_bindValues (env : Env) (name : String) (kind : ScopeKind)
    (bindings : List (String × Ty × Value)) :
    (env.bindValues name kind bindings).innermost.kind = kind := by
  induction bindings using List.reverseRecOn with
  | nil => rfl
  | append_singleton bindings binding ih =>
    rw [← define_bindValues]
    exact ih

/-- A scope of values declares no class. -/
theorem classes_bindValues (env : Env) (name : String) (kind : ScopeKind)
    (bindings : List (String × Ty × Value)) :
    (env.bindValues name kind bindings).innermost.classes = [] := by
  induction bindings using List.reverseRecOn with
  | nil => rfl
  | append_singleton bindings binding ih =>
    rw [← define_bindValues]
    exact ih

/-- What a scope of values does not declare is found where it was found before. -/
theorem lookup_bindValues {env : Env} {name : String} {kind : ScopeKind}
    {bindings : List (String × Ty × Value)} {x : String} {found : Found}
    (h : (env.bindValues name kind bindings).lookup x = some found)
    (hbinding : ∀ v, found.declared.binding ≠ .value v) : env.lookup x = some found := by
  unfold lookup at h ⊢
  rw [outer_bindValues, frames, findVariable] at h
  cases hx : (env.bindValues name kind bindings).innermost.vars.lookup x with
  | none =>
    rw [hx] at h
    exact h
  | some declared =>
    rw [hx] at h
    cases h
    obtain ⟨v, hv⟩ := innermost_bindValues env name kind bindings (mem_of_lookup_eq_some hx)
    exact absurd hv (hbinding v)

end Env

end ModelicaFold
