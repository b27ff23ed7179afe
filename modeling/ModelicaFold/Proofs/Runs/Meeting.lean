import ModelicaFold.Eval.Reference
import ModelicaFold.Proofs.Scopes.Values

/-!
# The expressions that evaluation meets

On its way evaluation meets more expressions than those inside the one it began with: the bindings of
the variables that it reads, the defaults of record fields, sizes in declared types, and what the
neighbouring phases make of an expression. A set of expressions that contains all of these for each
of its members is one that evaluation keeps to (`Evaluator.KeepsTo`, `Env.KeepsTo`).
-/

namespace ModelicaFold

/-- The expression of a dimension that still needs evaluation. -/
def Dimension.expr? : Dimension → Option Expr
  | .computed e => some e
  | _ => none

namespace Expr

/-- The expressions inside an expression that its rule may evaluate: its direct subexpressions, and
the default and the fold expression of a reduction. -/
def inside : Expr → List Expr
  | .reduction info body iterators =>
    (Expr.reduction info body iterators).children ++ info.default.toList ++ info.fold.toList
  | e => e.children

/-- The expressions inside an expression that may be evaluated with it: its direct subexpressions,
the default and the fold expression of a reduction, and the dimensions that the declared type of a
reference announces. -/
def parts : Expr → List Expr
  | .reduction info body iterators =>
    (Expr.reduction info body iterators).children ++ info.default.toList ++ info.fold.toList
  | .reference parts ty => (Expr.reference parts ty).children ++ ty.dims.filterMap Dimension.expr?
  | e => e.children

/-- The expressions inside an expression are among its parts. -/
theorem inside_subset_parts (e : Expr) : e.inside ⊆ e.parts := by
  cases e with
  | reference parts ty => exact List.subset_append_left _ _
  | _ => exact List.Subset.refl _

/-- The expression whose sizes an expression asks for. -/
def measured? : Expr → Option Expr
  | .size operand _ => some operand
  | .call path (operand :: _) _ true _ =>
    if path.last = "size" ∨ path.last = "ndims" then some operand else none
  | _ => none

end Expr

/-- What an evaluator makes of the expressions in a set is in this set. -/
structure Evaluator.KeepsTo (ev : Evaluator) (M : Expr → Prop) : Prop where
  parts : ∀ {e : Expr}, M e → ∀ part ∈ e.parts, M part
  simplify : ∀ {e : Expr}, M e → M (ev.simplify e)
  elaborate : ∀ {env : Env} {code : Code} {e : Expr}, ev.elaborate env code = some e → M e

/-- A set that evaluation keeps to has with an expression those inside it. -/
theorem Evaluator.KeepsTo.inside {ev : Evaluator} {M : Expr → Prop} (h : ev.KeepsTo M) {e : Expr}
    (he : M e) : ∀ part ∈ e.inside, M part := fun part hpart =>
  h.parts he part (e.inside_subset_parts hpart)

/-- A set that evaluation keeps to has with an expression the one whose sizes it measures. -/
theorem Evaluator.KeepsTo.measured {ev : Evaluator} {M : Expr → Prop} (h : ev.KeepsTo M)
    {whole e : Expr} (hwhole : M whole) (he : whole.measured? = some e) : M e := by
  cases whole with
  | size operand dim =>
    cases he
    exact h.parts hwhole e List.mem_cons_self
  | call path args ty builtin impure =>
    cases args with
    | nil => cases he
    | cons operand more =>
      cases builtin with
      | false => cases he
      | true =>
        simp only [Expr.measured?, Option.ite_none_right_eq_some, Option.some.injEq] at he
        obtain ⟨-, rfl⟩ := he
        exact h.parts hwhole operand List.mem_cons_self
  | _ => cases he

/-- Evaluation keeps to the set of all expressions. -/
theorem Evaluator.keepsTo_all (ev : Evaluator) : ev.KeepsTo fun _ => True :=
  ⟨fun _ _ _ => trivial, fun _ => trivial, fun _ => trivial⟩

/-- The expressions that a scope declares are in a set. -/
structure Frame.KeepsTo (frame : Frame) (M : Expr → Prop) : Prop where
  binding : ∀ {name : String} {declared : Variable} {e : Expr} {variability : Variability}
    {cached : Option Value}, (name, declared) ∈ frame.vars →
    declared.binding = .expression e variability cached → M e
  default : ∀ {name : String} {record : RecordClass} {field : FieldDecl} {e : Expr},
    (name, .record record) ∈ frame.classes → field ∈ record.fields → field.default = some e → M e

/-- The expressions that any scope of an environment declares are in a set. -/
def Env.KeepsTo (env : Env) (M : Expr → Prop) : Prop :=
  ∀ frame ∈ env.frames, frame.KeepsTo M

namespace Env

variable {env : Env} {M : Expr → Prop}

/-- Every environment keeps to the set of all expressions. -/
theorem keepsTo_all (env : Env) : env.KeepsTo fun _ => True :=
  fun _ _ => ⟨fun _ _ => trivial, fun _ _ _ => trivial⟩

/-- The empty environment keeps to every set of expressions. -/
theorem keepsTo_empty : Env.empty.KeepsTo M := by
  intro frame hframe
  rw [List.mem_singleton.mp hframe]
  exact ⟨nofun, nofun⟩

namespace KeepsTo

/-- A scope of values declares no expressions. -/
theorem bindValues (h : env.KeepsTo M) (name : String) (kind : ScopeKind)
    (bindings : List (String × Ty × Value)) : (env.bindValues name kind bindings).KeepsTo M := by
  intro frame hframe
  rw [frames, outer_bindValues] at hframe
  rcases List.mem_cons.mp hframe with rfl | hframe
  · constructor
    · intro x declared e variability cached hmem hbinding
      obtain ⟨v, hv⟩ := innermost_bindValues env name kind bindings hmem
      rw [hv] at hbinding
      cases hbinding
    · intro x record field e hmem
      rw [classes_bindValues] at hmem
      cases hmem
  · exact h frame hframe

/-- The binding of a variable, and the environment that it is evaluated in. -/
theorem lookup (h : env.KeepsTo M) {name : String} {found : Found} {e : Expr}
    {variability : Variability} {cached : Option Value} (hfound : env.lookup name = some found)
    (hbinding : found.declared.binding = .expression e variability cached) :
    M e ∧ found.env.KeepsTo M := by
  obtain ⟨hsuffix, hlookup, -⟩ := findVariable_spec hfound
  have hfoundEnv : found.env.KeepsTo M := fun frame hframe => h frame (hsuffix.subset hframe)
  have hframe := hfoundEnv found.env.innermost List.mem_cons_self
  exact ⟨hframe.binding (mem_of_lookup_eq_some hlookup) hbinding, hfoundEnv⟩

/-- The defaults of the fields of a record. -/
theorem defaultedRecord (h : env.KeepsTo M) {ty : Ty} {record : RecordClass}
    (hrecord : env.defaultedRecord? ty = some record) {field : FieldDecl}
    (hfield : field ∈ record.fields) {e : Expr} (he : field.default = some e) : M e := by
  unfold defaultedRecord? at hrecord
  split at hrecord
  · split at hrecord
    · rename_i r hclass
      split at hrecord
      · cases hrecord
        obtain ⟨frame, hframe, hlookup⟩ := List.exists_of_findSome?_eq_some hclass
        exact (h frame hframe).default (mem_of_lookup_eq_some hlookup) hfield he
      · cases hrecord
    · cases hrecord
  · cases hrecord

end KeepsTo

end Env

end ModelicaFold
