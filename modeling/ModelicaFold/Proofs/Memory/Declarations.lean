import ModelicaFold.Proofs.Scopes.Values
import ModelicaFold.Scope.Context

/-!
# Declarations whose values are remembered

Evaluation starts in one environment and pushes scopes of values onto it: iterators, fields of
records and parameters of functions. A binding expression is therefore always found among the
frames that were there from the start (`Env.Extends.declared`), where the name of a frame and of a
variable tell its declaration from every other one if the keys are distinct (`Env.KeysDistinct`).
-/

namespace ModelicaFold

namespace Env

/-- The environments that evaluation meets when it starts in an environment: those that a
declaration of it sees, with scopes of values pushed onto them. -/
inductive Extends (start : Env) : Env → Prop where
  | seen {env : Env} (h : env.frames <:+ start.frames) : Extends start env
  | bindValues {env : Env} (h : Extends start env) (name : String) (kind : ScopeKind)
      (bindings : List (String × Ty × Value)) :
      Extends start (env.bindValues name kind bindings)

/-- Evaluation meets the environment that it starts in. -/
theorem Extends.refl (start : Env) : start.Extends start := .seen List.suffix_rfl

/-- A binding that is no value is one of the environment that evaluation started in. -/
theorem Extends.lookup {start env : Env} (h : start.Extends env) {name : String} {found : Found}
    (hfound : env.lookup name = some found)
    (hbinding : ∀ v, found.declared.binding ≠ .value v) :
    found.env.frames <:+ start.frames
      ∧ found.env.innermost.vars.lookup name = some found.declared
      ∧ found.scope = found.env.innermost.name
      ∧ found.isIterator = (found.env.innermost.kind == .iteratorScope) := by
  induction h with
  | seen hframes =>
    obtain ⟨hinner, hrest⟩ := findVariable_spec hfound
    exact ⟨hinner.trans hframes, hrest⟩
  | bindValues _ name kind bindings ih => exact ih (lookup_bindValues hfound hbinding)

/-! ## Keys -/

/-- A frame, given with the frames outside it, binds a variable to an expression and is no scope of
iterators. -/
structure Declares (start scope : Env) (name : String) (e : Expr) : Prop where
  seen : scope.frames <:+ start.frames
  kind : scope.innermost.kind ≠ .iteratorScope
  bound : ∃ declared variability cached, scope.innermost.vars.lookup name = some declared
    ∧ declared.binding = .expression e variability cached

/-- The key of a variable that the innermost frame declares. -/
def key (scope : Env) (name : String) : String := Context.key scope.innermost.name name

/-- No two variables bound to expressions are remembered under the same key. -/
def KeysDistinct (start : Env) : Prop :=
  ∀ ⦃scope scope' : Env⦄ ⦃name name' : String⦄ ⦃e e' : Expr⦄,
    start.Declares scope name e → start.Declares scope' name' e' →
    scope.key name = scope'.key name' → scope = scope' ∧ name = name'

/-- In one frame two variables that share a key have the same name. -/
theorem key_injective (scope : Env) {name name' : String} (h : scope.key name = scope.key name') :
    name = name' := by
  unfold key Context.key at h
  by_cases hscope : scope.innermost.name = ""
  · rwa [if_pos hscope, if_pos hscope] at h
  · rw [if_neg hscope, if_neg hscope] at h
    exact (String.append_right_inj _).mp h

/-- An environment of one frame has no other one inside. -/
theorem eq_of_outer_eq_nil {start scope : Env} (h : start.outer = [])
    (hframes : scope.frames <:+ start.frames) : scope = start := by
  rw [frames, frames, h] at hframes
  rcases List.suffix_cons_iff.mp hframes with heq | hnil
  · exact frames_injective (by rw [frames, frames, h, heq])
  · cases List.suffix_nil.mp hnil

/-- An environment of one frame declares every name once. -/
theorem keysDistinct_of_outer_eq_nil {start : Env} (h : start.outer = []) :
    start.KeysDistinct := by
  intro scope scope' name name' e e' hdecl hdecl' hkey
  obtain rfl := eq_of_outer_eq_nil h hdecl.seen
  obtain rfl := eq_of_outer_eq_nil h hdecl'.seen
  exact ⟨rfl, key_injective _ hkey⟩

/-- Declarations of the same key have the same binding. -/
theorem KeysDistinct.binding_eq {start : Env} (h : start.KeysDistinct) {scope scope' : Env}
    {name name' : String} {e e' : Expr} (hdecl : start.Declares scope name e)
    (hdecl' : start.Declares scope' name' e') (hkey : scope.key name = scope'.key name') :
    scope = scope' ∧ name = name' ∧ e = e' := by
  obtain ⟨rfl, rfl⟩ := h hdecl hdecl' hkey
  obtain ⟨declared, _, _, hlookup, hbinding⟩ := hdecl.bound
  obtain ⟨declared', _, _, hlookup', hbinding'⟩ := hdecl'.bound
  obtain rfl : declared = declared' := Option.some.inj (hlookup.symm.trans hlookup')
  rw [hbinding] at hbinding'
  cases hbinding'
  exact ⟨rfl, rfl, rfl⟩

/-- What is found outside of scopes of iterators is a declaration, and is remembered under its
key. -/
theorem Extends.declared {start env : Env} (h : start.Extends env) {name : String}
    {found : Found} {e : Expr} {variability : Variability} {cached : Option Value}
    (hfound : env.lookup name = some found)
    (hbinding : found.declared.binding = .expression e variability cached)
    (hiterator : found.isIterator = false) :
    start.Declares found.env name e
      ∧ Context.key found.scope name = found.env.key name := by
  obtain ⟨hframes, hlookup, hscope, hkind⟩ :=
    h.lookup hfound fun v hv => by rw [hbinding] at hv; cases hv
  refine ⟨⟨hframes, ?_, _, _, _, hlookup, hbinding⟩, by rw [hscope, key]⟩
  rw [hkind] at hiterator
  simpa using hiterator

/-- A binding is evaluated in an environment that evaluation meets. -/
theorem Extends.found {start env : Env} (h : start.Extends env) {name : String} {found : Found}
    {e : Expr} {variability : Variability} {cached : Option Value}
    (hfound : env.lookup name = some found)
    (hbinding : found.declared.binding = .expression e variability cached) :
    start.Extends found.env :=
  .seen (h.lookup hfound fun v hv => by rw [hbinding] at hv; cases hv).1

end Env

end ModelicaFold
