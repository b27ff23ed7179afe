import ModelicaFold.Eval.Evaluate
import ModelicaFold.Proofs.Scopes.Renamed

/-!
# The names of iterators

What an iterator is called does not matter: a reduction has the same outcome when one of its iterators
is renamed, together with the references that it binds in its own guard and in the body
(`iterator_renamed`). References in nested reductions are bound by the innermost iterator of a name, so
that the others are renamed only where no inner one hides the name.

There are two exceptions, which the theorem leaves out. A declaration under a dotted name is found
before the field of an iterator, which is then captured (`iterator_captured`); and a placeholder shows
the type that a reference to its variable is annotated with, in which the iterator may occur.
-/

namespace ModelicaFold

open EvalM

/-- The iterator under another name, in its guard as well, if it has this one. -/
def Iterator.relabel (old new : String) (it : Iterator) : Iterator :=
  if it.name = old then .mk new it.source (it.guard.map (Expr.rename (.single old new))) it.ty else it

/-- A reduction with an iterator renamed, and the references that it binds. -/
def Expr.renameIterator (old new : String) : Expr → Expr
  | .reduction info body iterators =>
    .reduction info (body.rename (.single old new)) (iterators.map (Iterator.relabel old new))
  | e => e

namespace Iterator

variable {old new : String}

/-- The iterator of the old name gets the new one, also in its guard. -/
theorem relabel_of_eq {it : Iterator} (h : it.name = old) :
    it.relabel old new
      = .mk new it.source (it.guard.map (Expr.rename (.single old new))) it.ty := if_pos h

/-- An iterator of another name stays as it is. -/
theorem relabel_of_ne {it : Iterator} (h : it.name ≠ old) : it.relabel old new = it := if_neg h

/-- The name of an iterator is replaced if it is the old one. -/
theorem name_relabel (it : Iterator) : (it.relabel old new).name = Renaming.single old new it.name := by
  by_cases h : it.name = old
  · rw [relabel_of_eq h, Renaming.single, if_pos h, name]
  · rw [relabel_of_ne h, Renaming.single, if_neg h]

/-- The type of an iterator stays as it is. -/
theorem ty_relabel (it : Iterator) : (it.relabel old new).ty = it.ty := by
  by_cases h : it.name = old
  · rw [relabel_of_eq h, ty]
  · rw [relabel_of_ne h]

end Iterator

namespace Relabelling

/-- An iterator of a reduction may be renamed: the names that count as declared are those of the
environment and of the iterators, and its own guard and the body meet what the new name asks of them.
Nothing is asked of other parts of the reduction. -/
structure Applies (R : Relabelling) (ev : Evaluator) (env : Env) (body : Expr)
    (iterators : List Iterator) : Prop where
  iterator : R.old ∈ iterators.map Iterator.name
  names : ∀ x ∈ env.names, R.Declared x
  allowed : ∀ frame ∈ env.frames, ∀ p ∈ frame.vars, R.Allows ev p.1 p.2
  binders : ∀ x ∈ iterators.map Iterator.name, R.Declared x
  guards : ∀ it ∈ iterators, it.name = R.old → ∀ guard, it.guard = some guard →
    R.Meets (.single R.old R.new) guard
  body : R.Meets (.single R.old R.new) body

variable {R : Relabelling} {ev : Evaluator} {s : Steps} {req : Request} {body : Expr}
  {iterators : List Iterator}

/-- On top of an environment of its own, a scope that binds the iterator renames nothing else. -/
theorem single_of_mem {bound : List String} (h : R.old ∈ bound) :
    (fun x => if x ∈ bound then Renaming.single R.old R.new x else id x)
      = Renaming.single R.old R.new := by
  funext x
  by_cases hx : x ∈ bound
  · rw [if_pos hx]
  · have hne : x ≠ R.old := fun heq => hx (heq ▸ h)
    rw [if_neg hx, Renaming.single, if_neg hne, id]

/-- A renamed iterator runs through the same values. -/
theorem Respects.sequence (h : R.Respects ev s) (ha : R.Applies ev req.env body iterators)
    {it : Iterator} (hit : it ∈ iterators) :
    Resembles (s.sequence req it) (s.sequence req (it.relabel R.old R.new)) := by
  have hself := Corresponds.refl ha.names ha.allowed
  by_cases hname : it.name = R.old
  · rw [Iterator.relabel_of_eq hname]
    refine .sequence rfl (.refl _) fun guard hguard v => .passes ?_
    have hdeclared : ∀ x ∈ [it.name], R.Declared x := fun x hx =>
      ha.binders x (List.mem_singleton.mp hx ▸ List.mem_map_of_mem hit)
    have hc := hself.bind moves_single id [(it.name, it.ty, v)] hdeclared
    have hrebind : rebind (.single R.old R.new) id [(it.name, it.ty, v)] = [(R.new, it.ty, v)] := by
      simp [rebind, Renaming.single, hname]
    rw [hrebind, List.map_singleton, single_of_mem (List.mem_singleton.mpr hname.symm)] at hc
    exact h.evalInner hc (ha.guards it hit hname guard hguard)
  · rw [Iterator.relabel_of_ne hname]
    exact .refl _

/-- A reduction with a renamed iterator has the same outcome, up to the words of failures. -/
theorem Respects.renameIterator (h : R.Respects ev s) (ha : R.Applies ev req.env body iterators)
    (info : ReductionInfo) :
    Resembles (s.reduction req info body iterators)
      (s.reduction req info (body.rename (.single R.old R.new))
        (iterators.map (Iterator.relabel R.old R.new))) := by
  refine .reduction (φ := id) rfl rfl (.mapM_map fun it hit => h.sequence ha hit)
    (Option.map_id_apply).symm (fun _ _ => .refl _) (fun values hlength => ?_) fun _ _ => .refl _
  have hc := (Corresponds.refl ha.names ha.allowed).bindTuple moves_single id
    Iterator.name_relabel Iterator.ty_relabel hlength ha.binders
  rw [single_of_mem ha.iterator] at hc
  exact h.eval hc ha.body

end Relabelling

/-- The name of an iterator does not matter: with any number of levels left, and at the entry point, a
reduction with an iterator renamed has the same value and leaves the same context, or fails for a cause
of the same kind. -/
theorem iterator_renamed (ev : Evaluator) (R : Relabelling) {req : Request} {body : Expr}
    {iterators : List Iterator} (ha : R.Applies ev req.env body iterators) (info : ReductionInfo) :
    (∀ n, Resembles ((ev.steps n).eval req (.reduction info body iterators))
        ((ev.steps n).eval req ((Expr.reduction info body iterators).renameIterator R.old R.new)))
      ∧ ∀ ctx log, SameKind (ev.evaluate req (.reduction info body iterators) ctx log).1
        (ev.evaluate req ((Expr.reduction info body iterators).renameIterator R.old R.new)
          ctx log).1 := by
  have hlevels : ∀ n, Resembles ((ev.steps n).eval req (.reduction info body iterators))
      ((ev.steps n).eval req ((Expr.reduction info body iterators).renameIterator R.old R.new)) := by
    intro n
    cases n with
    | zero => exact .refl _
    | succ n =>
      exact (Resembles.refl _).bind fun _ => Relabelling.Respects.renameIterator (R.respects_steps ev n) ha info
  exact ⟨hlevels, fun ctx log => (hlevels _).reporting req.reporting ctx log⟩

/-! ## Fields of an iterator -/

/-- A name begins with the characters of its first identifier. -/
theorem BeginsWith.toList_isPrefix {x name : String} (h : BeginsWith x name) :
    x.toList <+: name.toList := by
  obtain ⟨more, rfl⟩ := h
  cases more with
  | nil => exact List.prefix_rfl
  | cons next more =>
    rw [String.intercalate_cons_cons, String.toList_append, String.toList_append, List.append_assoc]
    exact List.prefix_append _ _

/-- The iterator `i` becomes `j` where `i` and `n` are declared. -/
def Relabelling.iToJ : Relabelling where
  old := "i"
  new := "j"
  Declared x := x ∈ ["i", "n"]
  Placeholders _ := False
  old_identifier := ⟨by decide, by decide⟩
  new_identifier := ⟨by decide, by decide⟩
  fresh x hx hbegins := by
    have hprefix := hbegins.toList_isPrefix
    simp only [List.mem_cons, List.not_mem_nil, or_false] at hx
    rcases hx with rfl | rfl <;> exact absurd hprefix (by decide)

/-- The field `a` of the variable `i`. -/
def Expr.fieldIA : Expr := .reference [.mk "i" [], .mk "a" []] .unknown

/-- The reduction `sum(body for i in source)`, perhaps with a guard. -/
def Expr.sumOverI (body source : Expr) (guard : Option Expr) : Expr :=
  .reduction (.mk (.ident "sum") .combine .unknown none "$value" "$result" none) body
    [.mk "i" source guard .unknown]

/-- The records `R(a = 1)` and `R(a = 2)` as an array. -/
def Expr.twoRecords : Expr :=
  .arrayOf [.record (.ident "R") [.integer 1] ["a"], .record (.ident "R") [.integer 2] ["a"]]

/-- The sum of `i.a` and of the nested reduction `sum(i for i in {i.a})`, which has an iterator of the
same name. -/
def Expr.fieldAndNested : Expr :=
  .binary .fieldIA (.arith .add .scalars)
    (.sumOverI (.reference [.mk "i" []] .unknown) (.arrayOf [.fieldIA]) none)

/-- The guard `i.a > n`. -/
def Expr.fieldOverN : Expr := .relation .fieldIA .greater (.reference [.mk "n" []] .unknown)

/-- The variables `i` with the value 100 and `n` with the value 1. -/
def Env.withIN : Env :=
  (Env.empty.define "i" (.ofValue .integer (.integer 100))).define "n"
    (.ofValue .integer (.integer 1))

namespace Relabelling

variable {R : Relabelling} {ρ : Renaming}

/-- An expression that is neither a reduction nor a reference meets what is asked if its parts do. -/
theorem meets_of_children {e : Expr} (hsuits : R.Suits ρ e)
    (he : ∀ info body iterators, e ≠ .reduction info body iterators)
    (hannounced : Steps.announced e = []) (hchildren : ∀ child ∈ e.children, R.Meets ρ child) :
    R.Meets ρ e := by
  refine .intro hsuits (fun position hposition => ?_) (hannounced ▸ nofun)
  obtain ⟨hbound, hchild⟩ := (Expr.mem_positions he).mp hposition
  rw [hbound, Renaming.shadow_nil]
  exact hchildren _ hchild

/-- The field of `i` may be renamed to that of `j`. -/
theorem meets_fieldIA : iToJ.Meets (.single "i" "j") .fieldIA := by
  refine meets_of_children ⟨⟨by decide, fun _ n hpos hle => ?_⟩, fun _ => rfl⟩ nofun rfl nofun
  obtain rfl : n = 1 := Nat.le_antisymm hle hpos
  exact (by decide : "i.a" ∉ ["i", "n"])

/-- The name of a single variable is clear. -/
theorem meets_variable {x : String} (hx : x ≠ R.new) :
    R.Meets ρ (.reference [.mk x []] .unknown) :=
  meets_of_children ⟨⟨hx, fun _ _ hpos hle => absurd hpos (Nat.not_lt.mpr hle)⟩, fun _ => rfl⟩
    nofun rfl nofun

/-- The reduction over the field of `i` and a nested reduction may be renamed. -/
theorem meets_fieldAndNested : iToJ.Meets (.single "i" "j") .fieldAndNested := by
  refine meets_of_children trivial nofun rfl (List.forall_mem_cons.mpr ⟨meets_fieldIA, ?_⟩)
  refine List.forall_mem_singleton.mpr (.intro ?_ ?_ nofun)
  · intro position hposition x hx
    rcases List.mem_cons.mp hposition with rfl | hposition
    · cases hx
    · obtain rfl := List.mem_singleton.mp hposition
      obtain rfl := List.mem_singleton.mp hx
      exact List.mem_cons_self
  · refine List.forall_mem_cons.mpr ⟨?_, List.forall_mem_singleton.mpr (meets_variable (by decide))⟩
    rw [Renaming.shadow_nil]
    exact meets_of_children trivial nofun rfl (List.forall_mem_singleton.mpr meets_fieldIA)

/-- Renaming `i` to `j` applies to the reduction over two records. -/
theorem applies_iToJ : iToJ.Applies (.alone .standard) .withIN .fieldAndNested
    [.mk "i" .twoRecords (some .fieldOverN) .unknown] where
  iterator := List.mem_singleton.mpr rfl
  names x hx := by
    have hnames : Env.withIN.names = ["n", "i"] := rfl
    rw [hnames] at hx
    exact (List.Perm.swap "i" "n" []).mem_iff.mp hx
  allowed frame hframe p hp hunbound := by
    obtain rfl := List.mem_singleton.mp hframe
    have hvalue : ∃ v, p.2.binding = .value v := by
      rcases List.mem_cons.mp hp with rfl | hp
      · exact ⟨_, rfl⟩
      · obtain rfl := List.mem_singleton.mp hp
        exact ⟨_, rfl⟩
    obtain ⟨v, hv⟩ := hvalue
    rw [hunbound] at hv
    cases hv
  binders x hx := by
    obtain rfl := List.mem_singleton.mp hx
    exact List.mem_cons_self
  guards it hit _ guard hguard := by
    obtain rfl := List.mem_singleton.mp hit
    cases hguard
    exact meets_of_children trivial nofun rfl
      (List.forall_mem_cons.mpr ⟨meets_fieldIA, List.forall_mem_singleton.mpr
        (meets_variable (by decide))⟩)
  body := meets_fieldAndNested

end Relabelling

/-- Of the two records only the second passes the guard; the sum is four, whatever the iterator is
called. -/
theorem iterator_renamed_fields :
    SameKind ((Evaluator.alone .standard).evaluate ⟨.withIN, .explicit, .silent⟩
          (.sumOverI .fieldAndNested .twoRecords (some .fieldOverN)) .empty (.start .unlimited)).1
        ((Evaluator.alone .standard).evaluate ⟨.withIN, .explicit, .silent⟩
          ((Expr.sumOverI .fieldAndNested .twoRecords (some .fieldOverN)).renameIterator "i" "j")
          .empty (.start .unlimited)).1
      ∧ ((Evaluator.alone .standard).evaluate ⟨.withIN, .explicit, .silent⟩
          ((Expr.sumOverI .fieldAndNested .twoRecords (some .fieldOverN)).renameIterator "i" "j")
          .empty (.start .unlimited)).1 = .ok (.integer 4, .empty) :=
  ⟨(iterator_renamed (.alone .standard) .iToJ Relabelling.applies_iToJ _).2 .empty
    (.start .unlimited), rfl⟩

/-! ## Where the name matters -/

/-- A dotted declaration `i.a` with the value 100, and an unbound variable `x` of unknown type. -/
def Env.withDotted : Env :=
  (Env.empty.define "i.a" (.ofValue .integer (.integer 100))).define "x"
    ⟨.unknown, .parameter, .unbound⟩

/-- The variable `x`, annotated with the type of arrays of `i` Integers. -/
def Expr.deferredX : Expr :=
  .reference [.mk "x" []] (.array .integer [.computed (.reference [.mk "i" []] .unknown)])

/-- The placeholder for `x`, with the type that a reference to it is annotated with. -/
def Value.deferredX (i : String) : Value :=
  .empty "" "x" (.array .integer [.computed (.reference [.mk i []] .unknown)])

/-- Renaming the iterator `i` to `j`, which occurs nowhere, changes the value where `i.a` is declared: the
declaration captures `i.a`, but not `j.a`. It also changes the placeholder for `x` where unbound variables
are deferred, since the annotated type in it contains the iterator. -/
theorem iterator_captured :
    (((Evaluator.alone .standard).evaluate ⟨.withDotted, .explicit, .silent⟩
          (.sumOverI .fieldIA .twoRecords none) .empty (.start .unlimited)).1
        = .ok (.integer 200, .empty)
      ∧ ((Evaluator.alone .standard).evaluate ⟨.withDotted, .explicit, .silent⟩
          ((Expr.sumOverI .fieldIA .twoRecords none).renameIterator "i" "j") .empty
          (.start .unlimited)).1 = .ok (.integer 3, .empty))
      ∧ ((Evaluator.alone ⟨9, .all⟩).evaluate ⟨.withDotted, .explicit, .silent⟩
            (.sumOverI .deferredX (.arrayOf [.integer 1]) none) .empty (.start .unlimited)).1
          = .ok (.deferredX "i", .empty)
      ∧ ((Evaluator.alone ⟨9, .all⟩).evaluate ⟨.withDotted, .explicit, .silent⟩
            ((Expr.sumOverI .deferredX (.arrayOf [.integer 1]) none).renameIterator "i" "j") .empty
            (.start .unlimited)).1 = .ok (.deferredX "j", .empty)
      ∧ Value.deferredX "i" ≠ .deferredX "j" :=
  ⟨⟨rfl, rfl⟩, rfl, rfl, by simp [Value.deferredX]⟩

end ModelicaFold
