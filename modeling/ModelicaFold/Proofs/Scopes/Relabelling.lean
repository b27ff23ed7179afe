import ModelicaFold.Proofs.Runs.Meeting
import ModelicaFold.Proofs.Scopes.Occurrences
import ModelicaFold.Proofs.Scopes.Renaming

/-!
# An iterator under another name

A variable is looked up by the joined identifiers of a reference. To give an iterator a new name is
therefore more than to replace an identifier: a declaration under a dotted name captures references to
fields of the iterator. `Relabelling` says what a new name asks of the names around, and
`Relabelling.Meets` what it asks of the expressions in which the iterator is renamed.

Two environments correspond (`Relabelling.Corresponds`) if every variable that a reference may read is
found in both alike, in the second under its new name. Scopes of values keep environments corresponding,
whether they bind the iterator under both names or hide it (`Corresponds.bind`).
-/

namespace ModelicaFold

/-! ## Names -/

/-- A single identifier. -/
def IsIdentifier (x : String) : Prop := x ≠ "" ∧ '.' ∉ x.toList

/-- A name whose first identifier is `x`. -/
def BeginsWith (x name : String) : Prop := ∃ more : List String, name = ".".intercalate (x :: more)

/-- Two or more parts joined by dots are no identifier. -/
theorem not_isIdentifier_intercalate (a b : String) (more : List String) :
    ¬IsIdentifier (".".intercalate (a :: b :: more)) := fun h => by
  refine h.2 ?_
  rw [String.intercalate_cons_cons, String.toList_append, String.toList_append]
  simp

/-- The names under which the scopes of an environment declare variables. -/
def Env.names (env : Env) : List String :=
  env.frames.flatMap fun frame => frame.vars.map Prod.fst

namespace Env

/-- A name that a frame declares is one of the names of the environment. -/
theorem mem_names_of_mem {env : Env} {frame : Frame} (hframe : frame ∈ env.frames) {x : String}
    {v : Variable} (h : (x, v) ∈ frame.vars) : x ∈ env.names :=
  List.mem_flatMap.mpr ⟨frame, hframe, List.mem_map_of_mem h⟩

/-- A name that is not declared is not found. -/
theorem lookup_eq_none {env : Env} {x : String} (h : x ∉ env.names) : env.lookup x = none := by
  cases hfound : env.lookup x with
  | none => rfl
  | some found =>
    obtain ⟨hframes, hlookup, -⟩ := findVariable_spec hfound
    refine absurd ?_ h
    exact mem_names_of_mem (hframes.subset List.mem_cons_self) (mem_of_lookup_eq_some hlookup)

/-- A declared prefix has an identifier. -/
theorem declaredPrefix_ne_zero {env : Env} {r : Reference} {n k : Nat}
    (h : env.declaredPrefix r n = some k) : k ≠ 0 := by
  induction n with
  | zero => cases h
  | succ n ih =>
    rw [declaredPrefix] at h
    split at h
    · cases h
      exact Nat.succ_ne_zero n
    · exact ih h

/-! ## Scopes of iterators -/

section

variable (env : Env) (bindings : List (String × Ty × Value))

/-- Binding iterators is binding values in a scope of iterators. -/
theorem bindIterators_eq_bindValues :
    env.bindIterators bindings = env.bindValues iteratorScopeName .iteratorScope bindings := rfl

/-- A scope of iterators declares the iterators, the last one first. -/
theorem vars_bindIterators :
    (env.bindIterators bindings).innermost.vars
      = (bindings.map fun (x, ty, v) => (x, Variable.ofValue ty v)).reverse := by
  rw [bindIterators_eq_bindValues]
  induction bindings using List.reverseRecOn with
  | nil => rfl
  | append_singleton bindings binding ih =>
    rw [← define_bindValues, List.map_append, List.reverse_append, ← ih]
    rfl

/-- The names of a scope of iterators come before those outside. -/
theorem names_bindIterators :
    (env.bindIterators bindings).names = (bindings.map Prod.fst).reverse ++ env.names := by
  rw [names, frames, bindIterators_eq_bindValues, outer_bindValues, List.flatMap_cons,
    names_bindValues, names]

/-- The variables of the innermost scope are those that are bound. -/
theorem mem_of_mem_vars {p : String × Variable}
    (h : p ∈ (env.bindIterators bindings).innermost.vars) : p.1 ∈ bindings.map Prod.fst := by
  rw [← List.mem_reverse, ← names_bindValues env iteratorScopeName .iteratorScope]
  exact List.mem_map_of_mem h

/-- What is bound has a value in the innermost scope. -/
theorem exists_value_of_mem {x : String} (h : x ∈ bindings.map Prod.fst) :
    ∃ declared v, (env.bindIterators bindings).innermost.vars.lookup x = some declared
      ∧ declared.binding = .value v := by
  cases hlookup : (env.bindIterators bindings).innermost.vars.lookup x with
  | none =>
    rw [← List.mem_reverse, ← names_bindValues env iteratorScopeName .iteratorScope] at h
    obtain ⟨p, hp, rfl⟩ := List.mem_map.mp h
    simpa using List.lookup_eq_none_iff.mp hlookup p hp
  | some declared =>
    obtain ⟨v, hv⟩ := innermost_bindValues env iteratorScopeName .iteratorScope bindings
      (mem_of_lookup_eq_some hlookup)
    exact ⟨declared, v, rfl, hv⟩

/-- With iterators bound the innermost frame is a scope of iterators. -/
theorem inIteratorScope_bindIterators : (env.bindIterators bindings).inIteratorScope = true := by
  rw [inIteratorScope, beq_iff_eq]
  exact kind_bindValues env iteratorScopeName .iteratorScope bindings

/-- A variable is found in the innermost scope, or where it was found before. -/
theorem lookup_bindIterators (x : String) :
    (env.bindIterators bindings).lookup x =
      match (env.bindIterators bindings).innermost.vars.lookup x with
      | some v => some ⟨v, (env.bindIterators bindings).innermost.name,
          (env.bindIterators bindings).innermost.kind == .iteratorScope,
          env.bindIterators bindings⟩
      | none => env.lookup x := by
  have houter := env.outer_bindValues iteratorScopeName .iteratorScope bindings
  rw [← bindIterators_eq_bindValues] at houter
  generalize env.bindIterators bindings = inner at houter
  obtain ⟨frame, outer⟩ := inner
  obtain rfl : outer = env.frames := houter
  cases hlookup : frame.vars.lookup x <;> simp [lookup, frames, findVariable, hlookup]

end

end Env

/-- The variable with another type. -/
def Variable.retype (τ : Ty → Ty) (v : Variable) : Variable := { v with ty := τ v.ty }

/-- The bindings with other names and types. -/
def rebind (σ : Renaming) (τ : Ty → Ty) (bindings : List (String × Ty × Value)) :
    List (String × Ty × Value) :=
  bindings.map fun (x, ty, v) => (σ x, τ ty, v)

/-- Iterators bound under other names and types are declared under these. -/
theorem Env.vars_bindIterators_rebind (env env' : Env) (σ : Renaming) (τ : Ty → Ty)
    (bindings : List (String × Ty × Value)) :
    (env'.bindIterators (rebind σ τ bindings)).innermost.vars
      = (env.bindIterators bindings).innermost.vars.map fun p => (σ p.1, p.2.retype τ) := by
  rw [vars_bindIterators, vars_bindIterators, rebind, List.map_reverse, List.map_map, List.map_map]
  rfl

/-- A list with other keys and values is looked up under the new key, if no other key becomes this. -/
theorem lookup_map_of_injOn {α β γ : Type} [BEq α] [LawfulBEq α] {σ : α → α} {g : β → γ}
    {items : List (α × β)} {x : α} (h : ∀ p ∈ items, σ p.1 = σ x → p.1 = x) :
    (items.map fun p => (σ p.1, g p.2)).lookup (σ x) = (items.lookup x).map g := by
  induction items with
  | nil => rfl
  | cons p items ih =>
    obtain ⟨hp, hitems⟩ := List.forall_mem_cons.mp h
    by_cases hx : x = p.1
    · subst hx
      rw [List.map_cons, List.lookup_cons_self, List.lookup_cons_self, Option.map_some]
    · have hne : (x == p.1) = false := by simpa using hx
      have hne' : (σ x == σ p.1) = false := by simpa using fun heq => hx (hp heq.symm).symm
      rw [List.map_cons, List.lookup_cons, List.lookup_cons, hne, hne']
      exact ih hitems

/-! ## A new name -/

/-- An iterator gets a new name, both single identifiers. The new one begins no name that is declared
in the environment, or bound within the expressions. -/
structure Relabelling where
  old : String
  new : String
  /-- The names that are declared or bound. -/
  Declared : String → Prop
  /-- The variables that may have a placeholder for a value, of the type annotated at a reference. -/
  Placeholders : String → Prop
  old_identifier : IsIdentifier old
  new_identifier : IsIdentifier new
  fresh : ∀ x, Declared x → ¬BeginsWith new x

namespace Relabelling

variable (R : Relabelling)

/-- The old name becomes the new one, or stays where it is hidden; all other names stay. -/
def Moves (ρ : Renaming) : Prop := ∀ x, ρ x = x ∨ x = R.old ∧ ρ x = R.new

variable {R} {ρ σ : Renaming}

/-- Replacing the old name by the new one moves that name alone. -/
theorem moves_single : R.Moves (.single R.old R.new) := by
  intro x
  by_cases hx : x = R.old
  · exact .inr ⟨hx, if_pos hx⟩
  · exact .inl (if_neg hx)

/-- Replacing nothing moves nothing. -/
theorem moves_id : R.Moves id := fun _ => .inl rfl

/-- A renaming that moves the old name alone keeps every other one. -/
theorem Moves.eq_of_ne (h : R.Moves ρ) {x : String} (hx : x ≠ R.old) : ρ x = x :=
  (h x).resolve_right fun hold => hx hold.1

/-- The new name is declared nowhere. -/
theorem new_not_declared : ¬R.Declared R.new := fun h => R.fresh R.new h ⟨[], rfl⟩

/-- Different names stay different, also if the old name becomes the new one at one place only. -/
theorem Moves.inj (hσ : R.Moves σ) (hρ : R.Moves ρ) {x y : String} (hy : y ≠ R.new)
    (hx : x ≠ R.new) (h : σ y = ρ x) : y = x := by
  rcases hσ y with heq | ⟨rfl, heq⟩ <;> rcases hρ x with heq' | ⟨rfl, heq'⟩
  · rw [← heq, h, heq']
  · exact absurd (heq.symm.trans (h.trans heq')) hy
  · exact absurd (heq'.symm.trans (h.symm.trans heq)) hx
  · rfl

/-! ## References -/

variable (R)

/-- A reference does not begin with the new name. Where its first identifier is replaced, no longer
prefix of it is declared, so that its other identifiers select fields. -/
def Clear (ρ : Renaming) : Reference → Prop
  | [] => True
  | part :: more => part.ident ≠ R.new ∧
    (ρ part.ident ≠ part.ident → ∀ n, 0 < n → n ≤ more.length →
      ¬R.Declared (Reference.name (part :: more.take n)))

variable {R}

/-- The first parts of a reference that is clear are clear. -/
theorem Clear.take {r : Reference} (h : R.Clear ρ r) (n : Nat) : R.Clear ρ (r.take n) := by
  rcases r with _ | ⟨part, more⟩
  · rwa [List.take_nil]
  · cases n with
    | zero => trivial
    | succ n =>
      refine ⟨h.1, fun hmoves m hm hle => ?_⟩
      rw [List.length_take] at hle
      rw [List.take_take, Nat.min_eq_left (Nat.le_trans hle (Nat.min_le_left _ _))]
      exact h.2 hmoves m hm (Nat.le_trans hle (Nat.min_le_right _ _))

/-- The part of a reference that names a variable is clear if the reference is. -/
theorem Clear.splitReference {r : Reference} (h : R.Clear ρ r) (env : Env) :
    R.Clear ρ (env.splitReference r).1 := by
  unfold Env.splitReference
  split
  · exact h.take _
  · exact h

/-- A clear reference is called by one name, which is replaced as a whole, or begins with the iterator
and is not declared under either name. -/
theorem Clear.cases {r : Reference} (h : R.Clear ρ r) (hρ : R.Moves ρ) :
    (Reference.name r ≠ R.new ∧ Reference.name (Reference.rename ρ r) = ρ (Reference.name r))
      ∨ ¬R.Declared (Reference.name r) ∧ ¬R.Declared (Reference.name (Reference.rename ρ r))
        ∧ Reference.name (Reference.rename ρ r) ≠ R.new := by
  match r, h with
  | [], _ => exact .inl ⟨R.new_identifier.1.symm, (hρ.eq_of_ne R.old_identifier.1.symm).symm⟩
  | [part], h => exact .inl ⟨h.1, Reference.name_rename_cons ρ part []⟩
  | part :: next :: more, h =>
    have hdotted : ∀ {x first : String}, IsIdentifier x →
        ".".intercalate (first :: next.ident :: more.map RefPart.ident) ≠ x :=
      fun hx heq => not_isIdentifier_intercalate _ _ _ (heq ▸ hx)
    rw [Reference.name_rename_cons, show Reference.name (part :: next :: more)
      = ".".intercalate (part.ident :: next.ident :: more.map RefPart.ident) from rfl]
    by_cases hstays : ρ part.ident = part.ident
    · refine .inl ⟨hdotted R.new_identifier, ?_⟩
      rw [hstays, hρ.eq_of_ne (hdotted R.old_identifier)]
      rfl
    · have hundeclared := h.2 hstays (next :: more).length (Nat.succ_pos _) (Nat.le_refl _)
      rw [List.take_length] at hundeclared
      have hmoves : ρ part.ident = R.new := ((hρ part.ident).resolve_left hstays).2
      refine .inr ⟨hundeclared, ?_, hdotted R.new_identifier⟩
      rw [hmoves]
      exact fun hdeclared => R.fresh _ hdeclared ⟨_, rfl⟩

/-! ## Expressions -/

variable (R)

/-- What a renaming asks of an expression apart from the expressions inside it: references are clear,
calls are of built-in functions other than `simplify`, or impure and so never evaluated, and no code is
quoted. The type that a variable with placeholders is annotated with does not change. -/
def Suits (ρ : Renaming) : Expr → Prop
  | .reference parts ty => R.Clear ρ parts
    ∧ (R.Placeholders (Reference.name parts) → ty.rename ρ = ty)
  | .call path _ _ builtin impure => if builtin then path.last ≠ "simplify" else impure = true
  | .reduction info body iterators =>
    ∀ position ∈ (Expr.reduction info body iterators).positions, ∀ x ∈ position.1, R.Declared x
  | .code _ => False
  | _ => True

/-- The expression and all that is evaluated with it suit the renaming, each as far as it is not hidden
by the names that are bound around it. -/
inductive Meets : Renaming → Expr → Prop where
  | intro {ρ : Renaming} {e : Expr} (hself : R.Suits ρ e)
      (hpositions : ∀ position ∈ e.positions, Meets (ρ.shadow position.1) position.2)
      (hsizes : ∀ d ∈ Steps.announced e, ∀ size, d.expr? = some size → Meets ρ size) : Meets ρ e

variable {R}

/-- An expression that a renaming meets suits it. -/
theorem Meets.suits {e : Expr} : R.Meets ρ e → R.Suits ρ e
  | .intro hself _ _ => hself

/-- A position in an expression is met under the renaming without what is bound around it. -/
theorem Meets.position {e sub : Expr} {bound : List String} (h : R.Meets ρ e)
    (hposition : (bound, sub) ∈ e.positions) : R.Meets (ρ.shadow bound) sub := by
  cases h with
  | intro _ hpositions _ => exact hpositions _ hposition

/-- A size that an expression announces is met as the expression is. -/
theorem Meets.size {e size : Expr} {d : Dimension} (h : R.Meets ρ e) (hd : d ∈ Steps.announced e)
    (hsize : d.expr? = some size) : R.Meets ρ size := by
  cases h with
  | intro _ _ hsizes => exact hsizes d hd size hsize

/-- Unless an expression is a reduction, its direct subexpressions are met as it is. -/
theorem Meets.children {e : Expr} (h : R.Meets ρ e)
    (he : ∀ info body iterators, e ≠ .reduction info body iterators) :
    ∀ child ∈ e.children, R.Meets ρ child := fun child hchild => by
  have hmeets := h.position ((Expr.mem_positions he).mpr ⟨rfl, hchild⟩)
  rwa [Renaming.shadow_nil] at hmeets

/-! ## Environments -/

variable (R) in
/-- An unbound variable is no record, and where unbound variables are deferred, one of unknown type
has placeholders. -/
def Allows (ev : Evaluator) (x : String) (v : Variable) : Prop :=
  v.binding = .unbound → v.ty.isRecord = false
    ∧ (ev.config.flags.deferUnbound = true → v.ty.isUnknown = true → R.Placeholders x)

variable (R) in
/-- What a name means in two environments, in the second perhaps under another name: nothing, the same
value, or the same declaration. -/
inductive SameVariable (ev : Evaluator) (x x' : String) : Option Found → Option Found → Prop where
  | none : SameVariable ev x x' none none
  | value {found found' : Found} {v : Value} (h : found.declared.binding = .value v)
      (h' : found'.declared.binding = .value v) : SameVariable ev x x' (some found) (some found')
  | declared {found : Found} (hname : x' = x) (hallowed : R.Allows ev x found.declared) :
      SameVariable ev x x' (some found) (some found)

/-- A variable is found under one name if it is found under the other. -/
theorem SameVariable.isSome_eq {ev : Evaluator} {x x' : String} {found found' : Option Found}
    (h : R.SameVariable ev x x' found found') : found'.isSome = found.isSome := by
  cases h <;> rfl

variable (R) in
/-- Under the new name a variable means in the second environment what it means in the first. -/
structure Corresponds (ev : Evaluator) (ρ : Renaming) (env env' : Env) : Prop where
  moves : R.Moves ρ
  names : ∀ x ∈ env.names, R.Declared x
  names' : ∀ x ∈ env'.names, R.Declared x ∨ x = R.new
  inIteratorScope : env.inIteratorScope = env'.inIteratorScope
  lookup : ∀ x, x ≠ R.new → R.SameVariable ev x (ρ x) (env.lookup x) (env'.lookup (ρ x))

namespace Corresponds

variable {ev : Evaluator} {env env' : Env}

/-- An environment corresponds to itself. -/
theorem refl (hnames : ∀ x ∈ env.names, R.Declared x)
    (hallowed : ∀ frame ∈ env.frames, ∀ p ∈ frame.vars, R.Allows ev p.1 p.2) :
    R.Corresponds ev id env env where
  moves := moves_id
  names := hnames
  names' x hx := .inl (hnames x hx)
  inIteratorScope := rfl
  lookup x _ := by
    cases hfound : env.lookup x with
    | none => rw [id, hfound]; exact .none
    | some found =>
      obtain ⟨hframes, hlookup, -⟩ := Env.findVariable_spec hfound
      rw [id, hfound]
      refine .declared rfl ?_
      exact hallowed _ (hframes.subset List.mem_cons_self) _ (mem_of_lookup_eq_some hlookup)

/-- A scope of iterators with the same values, where some names are replaced. -/
theorem bind (h : R.Corresponds ev ρ env env') (hσ : R.Moves σ) (τ : Ty → Ty)
    (bindings : List (String × Ty × Value)) (hbindings : ∀ x ∈ bindings.map Prod.fst, R.Declared x) :
    R.Corresponds ev (fun x => if x ∈ bindings.map Prod.fst then σ x else ρ x)
      (env.bindIterators bindings) (env'.bindIterators (rebind σ τ bindings)) where
  moves x := by
    by_cases hx : x ∈ bindings.map Prod.fst
    · simpa only [if_pos hx] using hσ x
    · simpa only [if_neg hx] using h.moves x
  names x hx := by
    rw [Env.names_bindIterators, List.mem_append, List.mem_reverse] at hx
    exact hx.elim (hbindings x) (h.names x)
  names' x hx := by
    rw [Env.names_bindIterators, List.mem_append, List.mem_reverse, rebind, List.map_map] at hx
    refine hx.elim (fun hx => ?_) (h.names' x)
    obtain ⟨b, hb, rfl⟩ := List.mem_map.mp hx
    rcases hσ b.1 with hstays | ⟨-, hmoves⟩
    · exact .inl (show R.Declared (σ b.1) from hstays.symm ▸ hbindings b.1 (List.mem_map_of_mem hb))
    · exact .inr hmoves
  inIteratorScope := by rw [Env.inIteratorScope_bindIterators, Env.inIteratorScope_bindIterators]
  lookup x hx := by
    have hkeys : ∀ p ∈ (env.bindIterators bindings).innermost.vars,
        p.1 ∈ bindings.map Prod.fst ∧ p.1 ≠ R.new := fun p hp =>
      have hmem := env.mem_of_mem_vars bindings hp
      ⟨hmem, fun hnew => new_not_declared (hnew ▸ hbindings _ hmem)⟩
    rw [Env.lookup_bindIterators, Env.lookup_bindIterators, Env.vars_bindIterators_rebind env]
    by_cases hbound : x ∈ bindings.map Prod.fst
    · obtain ⟨declared, v, hlookup, hv⟩ := env.exists_value_of_mem bindings hbound
      simp only [if_pos hbound]
      rw [lookup_map_of_injOn fun p hp => hσ.inj hσ (hkeys p hp).2 hx, hlookup]
      exact .value hv hv
    · simp only [if_neg hbound]
      have hnone : (env.bindIterators bindings).innermost.vars.lookup x = none := by
        refine List.lookup_eq_none_iff.mpr fun p hp => ?_
        simpa using fun heq : x = p.1 => hbound (heq ▸ (hkeys p hp).1)
      have hnone' : ((env.bindIterators bindings).innermost.vars.map
          fun p => (σ p.1, p.2.retype τ)).lookup (ρ x) = none := by
        refine List.lookup_eq_none_iff.mpr fun q hq => ?_
        obtain ⟨p, hp, rfl⟩ := List.mem_map.mp hq
        have hne : ρ x ≠ σ p.1 := fun heq =>
          hbound (hσ.inj h.moves (hkeys p hp).2 hx heq.symm ▸ (hkeys p hp).1)
        simpa using hne
      rw [hnone, hnone']
      exact h.lookup x hx

/-- A scope of iterators that binds the same names in both environments. -/
theorem shadow (h : R.Corresponds ev ρ env env') (τ : Ty → Ty)
    (bindings : List (String × Ty × Value)) (hbindings : ∀ x ∈ bindings.map Prod.fst, R.Declared x) :
    R.Corresponds ev (ρ.shadow (bindings.map Prod.fst)) (env.bindIterators bindings)
      (env'.bindIterators (rebind id τ bindings)) :=
  h.bind moves_id τ bindings hbindings

/-- The scope of a binding tuple, where iterators get other names and types. -/
theorem bindTuple (h : R.Corresponds ev ρ env env') (hσ : R.Moves σ) (τ : Ty → Ty)
    {iterators : List Iterator} {f : Iterator → Iterator} (hname : ∀ it, (f it).name = σ it.name)
    (hty : ∀ it, (f it).ty = τ it.ty) {values : List Value} (hlength : values.length = iterators.length)
    (hiterators : ∀ x ∈ iterators.map Iterator.name, R.Declared x) :
    R.Corresponds ev (fun x => if x ∈ iterators.map Iterator.name then σ x else ρ x)
      (env.bindTuple iterators values) (env'.bindTuple (iterators.map f) values) := by
  have hnames : ((iterators.zip values).map fun p => (p.1.name, p.1.ty, p.2)).map Prod.fst
      = iterators.map Iterator.name := by
    rw [List.map_map]
    show (iterators.zip values).map (Iterator.name ∘ Prod.fst) = _
    rw [← List.map_map, List.map_fst_zip (Nat.le_of_eq hlength.symm)]
  have hrebind : ((iterators.map f).zip values).map (fun p => (p.1.name, p.1.ty, p.2))
      = rebind σ τ ((iterators.zip values).map fun p => (p.1.name, p.1.ty, p.2)) := by
    rw [List.zip_map_left, List.map_map, rebind, List.map_map]
    exact List.map_congr_left fun p _ => by simp [hname, hty]
  have hbind := h.bind hσ τ ((iterators.zip values).map fun p => (p.1.name, p.1.ty, p.2))
    (hnames ▸ hiterators)
  rw [hnames, ← hrebind] at hbind
  exact hbind

/-- What a reference may read is found in both environments alike. -/
theorem lookup_reference (h : R.Corresponds ev ρ env env') {r : Reference} (hr : R.Clear ρ r) :
    R.SameVariable ev (Reference.name r) (Reference.name (Reference.rename ρ r))
      (env.lookup (Reference.name r)) (env'.lookup (Reference.name (Reference.rename ρ r))) := by
  rcases hr.cases h.moves with ⟨hnew, hname⟩ | ⟨hundeclared, hundeclared', hnew⟩
  · rw [hname]
    exact h.lookup _ hnew
  · rw [Env.lookup_eq_none fun hmem => hundeclared (h.names _ hmem),
      Env.lookup_eq_none fun hmem => (h.names' _ hmem).elim hundeclared' hnew]
    exact .none

/-- The same prefix of a reference is declared. -/
theorem declaredPrefix_rename (h : R.Corresponds ev ρ env env') {r : Reference} (hr : R.Clear ρ r)
    (n : Nat) : env'.declaredPrefix (Reference.rename ρ r) n = env.declaredPrefix r n := by
  induction n with
  | zero => rfl
  | succ n ih =>
    have hisSome : (env'.lookup (Reference.name ((Reference.rename ρ r).take (n + 1)))).isSome
        = (env.lookup (Reference.name (r.take (n + 1)))).isSome := by
      rw [Reference.rename_take]
      exact (h.lookup_reference (hr.take (n + 1))).isSome_eq
    rw [Env.declaredPrefix, Env.declaredPrefix, hisSome, ih]

/-- A reference is split at the same place. -/
theorem splitReference_rename (h : R.Corresponds ev ρ env env') {r : Reference} (hr : R.Clear ρ r) :
    env'.splitReference (Reference.rename ρ r)
      = (Reference.rename ρ (env.splitReference r).1,
        (env.splitReference r).2.map (RefPart.rename ρ)) := by
  rw [Env.splitReference, Env.splitReference, Reference.length_rename, h.declaredPrefix_rename hr]
  cases hprefix : env.declaredPrefix r r.length with
  | none => rfl
  | some n =>
    obtain ⟨m, rfl⟩ := Nat.exists_eq_succ_of_ne_zero (Env.declaredPrefix_ne_zero hprefix)
    simp only [Reference.rename_take, Nat.succ_eq_add_one, Reference.rename_drop]

end Corresponds

end Relabelling

end ModelicaFold
