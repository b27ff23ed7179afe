import ModelicaFold.Eval.Rule
import ModelicaFold.Proofs.Runs.Success
import ModelicaFold.Proofs.Scopes.Values
import ModelicaFold.Proofs.Subexpressions

/-!
# Free occurrences of names

A binding in which its own variable occurs is refused before it is evaluated (`Expr.refersTo`). What
counts is where evaluation would look the name up in the scope of the whole expression: at a
reference that no reduction around it captures. `Expr.positions` lists where the evaluation of an
expression goes, with the names that are bound on the way. These are the scopes of evaluation: a
reduction evaluates its parts at its positions only, each in a scope that declares just the names of
the position (`Steps.reduction_within`).

Every occurrence that is found is free, and every free one is found but those in three places of a
reduction, which are passed over: its default, its fold expression, and the guard of one iterator
where another one has the name (`Expr.free_iff`).
-/

namespace ModelicaFold

/-! ## Positions -/

/-- Where the evaluation of an expression goes, with the names that are bound there: its direct
subexpressions and, of a reduction, the default and the fold expression as well. -/
def Expr.positions : Expr → List (List String × Expr)
  | .reduction info body iterators =>
    iterators.flatMap
        (fun it => ([], it.source) :: it.guard.toList.map fun guard => ([it.name], guard))
      ++ (iterators.map Iterator.name, body)
        :: info.default.toList.map (fun default => ([], default))
      ++ info.fold.toList.map fun fold => ([info.valueName, info.resultName], fold)
  | e => e.children.map fun child => ([], child)

/-- A name occurs in an expression, and no reduction around the occurrence binds it. -/
inductive Expr.Free (name : String) : Expr → Prop where
  | here {parts : Reference} {ty : Ty} (h : Reference.name parts = name) :
      Free name (.reference parts ty)
  | inside {e sub : Expr} {bound : List String} (hposition : (bound, sub) ∈ e.positions)
      (hbound : name ∉ bound) (h : Free name sub) : Free name e

/-- A free occurrence in a place that the search for a name passes over. -/
inductive Expr.Overlooked (name : String) : Expr → Prop where
  | default {info : ReductionInfo} {body default : Expr} {iterators : List Iterator}
      (hdefault : info.default = some default) (h : default.Free name) :
      Overlooked name (.reduction info body iterators)
  | fold {info : ReductionInfo} {body fold : Expr} {iterators : List Iterator}
      (hfold : info.fold = some fold) (hbound : name ∉ [info.valueName, info.resultName])
      (h : fold.Free name) : Overlooked name (.reduction info body iterators)
  /-- The guard of one iterator, where another one has the name. -/
  | guard {info : ReductionInfo} {body guard : Expr} {iterators : List Iterator}
      {it other : Iterator} (hit : it ∈ iterators) (hguard : it.guard = some guard)
      (hname : it.name ≠ name) (hother : other ∈ iterators) (hnamed : other.name = name)
      (h : guard.Free name) : Overlooked name (.reduction info body iterators)
  | inside {e sub : Expr} {bound : List String} (hposition : (bound, sub) ∈ e.positions)
      (hbound : name ∉ bound) (h : Overlooked name sub) : Overlooked name e

namespace Expr

/-- The positions in a reduction are its sources, guards, body, default and fold, each with what is
bound there. -/
theorem mem_positions_reduction {info : ReductionInfo} {body sub : Expr} {iterators : List Iterator}
    {bound : List String} :
    (bound, sub) ∈ (Expr.reduction info body iterators).positions ↔
      (∃ it ∈ iterators, bound = [] ∧ sub = it.source)
        ∨ (∃ it ∈ iterators, bound = [it.name] ∧ it.guard = some sub)
        ∨ (bound = iterators.map Iterator.name ∧ sub = body)
        ∨ (bound = [] ∧ info.default = some sub)
        ∨ (bound = [info.valueName, info.resultName] ∧ info.fold = some sub) := by
  simp only [positions, List.mem_append, List.mem_flatMap, List.mem_cons, List.mem_map,
    Option.mem_toList, Prod.mk.injEq]
  constructor
  · rintro ((⟨it, hit, ⟨rfl, rfl⟩ | ⟨guard, hguard, rfl, rfl⟩⟩ | ⟨rfl, rfl⟩ | ⟨d, hd, rfl, rfl⟩)
      | ⟨fold, hfold, rfl, rfl⟩)
    · exact .inl ⟨it, hit, rfl, rfl⟩
    · exact .inr (.inl ⟨it, hit, rfl, hguard⟩)
    · exact .inr (.inr (.inl ⟨rfl, rfl⟩))
    · exact .inr (.inr (.inr (.inl ⟨rfl, hd⟩)))
    · exact .inr (.inr (.inr (.inr ⟨rfl, hfold⟩)))
  · rintro (⟨it, hit, rfl, rfl⟩ | ⟨it, hit, rfl, hguard⟩ | ⟨rfl, rfl⟩ | ⟨rfl, hd⟩ | ⟨rfl, hfold⟩)
    · exact .inl (.inl ⟨it, hit, .inl ⟨rfl, rfl⟩⟩)
    · exact .inl (.inl ⟨it, hit, .inr ⟨sub, hguard, rfl, rfl⟩⟩)
    · exact .inl (.inr (.inl ⟨rfl, rfl⟩))
    · exact .inl (.inr (.inr ⟨sub, hd, rfl, rfl⟩))
    · exact .inr ⟨sub, hfold, rfl, rfl⟩

/-- A reduction is the only form that binds names. -/
theorem mem_positions {e sub : Expr} {bound : List String}
    (he : ∀ info body iterators, e ≠ .reduction info body iterators) :
    (bound, sub) ∈ e.positions ↔ bound = [] ∧ sub ∈ e.children := by
  have hpositions : e.positions = e.children.map fun child => ([], child) := by
    cases e with
    | reduction info body iterators => exact absurd rfl (he info body iterators)
    | _ => rfl
  simp [hpositions, and_comm, eq_comm]

end Expr

/-! ## The scopes of a reduction -/

/-- The names that a scope of values declares. -/
theorem Env.names_bindValues (env : Env) (scope : String) (kind : ScopeKind)
    (bindings : List (String × Ty × Value)) :
    (env.bindValues scope kind bindings).innermost.vars.map Prod.fst
      = (bindings.map Prod.fst).reverse := by
  induction bindings using List.reverseRecOn with
  | nil => rfl
  | append_singleton bindings binding ih =>
    rw [← Env.define_bindValues, List.map_append, List.reverse_append]
    exact congrArg (binding.1 :: ·) ih

/-- The scopes in which names are bound on top of an environment; where none are, the environment
itself is one. -/
inductive Env.Binds (env : Env) : List String → Env → Prop where
  | none : Binds env [] env
  | iterators (bindings : List (String × Ty × Value)) :
      Binds env (bindings.map Prod.fst) (env.bindIterators bindings)

/-- A name that a scope does not bind means what it means outside of it. -/
theorem Env.Binds.lookup_eq {env scope : Env} {bound : List String} (h : env.Binds bound scope)
    {name : String} (hname : name ∉ bound) : scope.lookup name = env.lookup name := by
  cases h with
  | none => rfl
  | iterators bindings =>
    have hscope : env.bindIterators bindings
        = env.bindValues iteratorScopeName .iteratorScope bindings := rfl
    have hlookup : (env.bindIterators bindings).innermost.vars.lookup name = Option.none := by
      refine List.lookup_eq_none_iff.mpr fun p hp => ?_
      have hmem : p.1 ∈ (env.bindIterators bindings).innermost.vars.map Prod.fst :=
        List.mem_map_of_mem hp
      rw [hscope, Env.names_bindValues, List.mem_reverse] at hmem
      simpa using fun heq : name = p.1 => hname (heq ▸ hmem)
    have houter : (env.bindIterators bindings).outer = env.frames := Env.outer_bindValues ..
    rw [Env.lookup, houter, Env.frames, Env.findVariable, hlookup, Env.lookup]

/-- A combination has an item for each sequence. -/
theorem length_of_mem_combinations {α : Type} {sequences : List (List α)} {tuple : List α}
    (h : tuple ∈ combinations sequences) : tuple.length = sequences.length := by
  induction sequences generalizing tuple with
  | nil =>
    rw [show tuple = [] from List.mem_singleton.mp h]
    rfl
  | cons items more ih =>
    rw [combinations_cons] at h
    obtain ⟨rest, hrest, htuple⟩ := List.mem_flatMap.mp h
    obtain ⟨a, -, rfl⟩ := List.mem_map.mp htuple
    rw [List.length_cons, List.length_cons, ih hrest]

/-- A tuple of sequences run through in step has an item for each. -/
theorem length_of_mem_lockstep {α : Type} {n : Nat} {sequences : List (List α)}
    (hlengths : ∀ items ∈ sequences, items.length = n) {tuple : List α}
    (h : tuple ∈ lockstep n sequences) : tuple.length = sequences.length := by
  induction n generalizing sequences with
  | zero => cases h
  | succ n ih =>
    rcases List.mem_cons.mp h with rfl | h
    · refine List.filterMap_length_eq_length.mpr fun items hitems => ?_
      have hpos : 0 < items.length := by
        rw [hlengths items hitems]
        exact Nat.succ_pos n
      exact List.isSome_head?.mpr (List.length_pos_iff.mp hpos)
    · have htails : ∀ items ∈ sequences.map List.tail, items.length = n := by
        intro items hitems
        obtain ⟨longer, hlonger, rfl⟩ := List.mem_map.mp hitems
        rw [List.length_tail, hlengths longer hlonger, Nat.add_sub_cancel]
      rw [ih htails h, List.length_map]

/-- A binding tuple has a value for every iterator. -/
theorem length_of_mem_bindingTuples {α : Type} {kind : IteratorKind}
    {sequences tuples : List (List α)} (h : bindingTuples kind sequences = .ok tuples)
    {tuple : List α} (htuple : tuple ∈ tuples) : tuple.length = sequences.length := by
  cases kind with
  | combine =>
    simp only [bindingTuples] at h
    split at h
    · split at h
      · cases h
        exact length_of_mem_combinations htuple
      · cases h
    · cases h
  | thread =>
    simp only [bindingTuples] at h
    split at h
    · cases h
    · rename_i hsame
      cases h
      refine length_of_mem_lockstep (fun items hitems => ?_) htuple
      simp only [List.any_eq_true, List.mem_map, decide_eq_true_eq, not_exists, not_and] at hsame
      exact not_not.mp (hsame items.length ⟨items, hitems, rfl⟩)

/-- Steps that do the same after whatever a step gives do the same after the step. -/
theorem EvalM.bind_congr_of_gives {α β : Type} {x : EvalM α} {k k' : α → EvalM β}
    (h : ∀ {a ctx log ctx' log'}, x.Gives ctx log a ctx' log' → k a = k' a) :
    x >>= k = x >>= k' := by
  funext ctx log
  simp only [bind_apply]
  rcases hx : x ctx log with ⟨f | ⟨a, ctx'⟩, log'⟩
  · rfl
  · simp only [h hx]

/-- Steps that agree on the items of a list map it alike. -/
theorem EvalM.mapM_congr {α β : Type} {f g : α → EvalM β} {items : List α}
    (h : ∀ a ∈ items, f a = g a) : items.mapM f = items.mapM g := by
  induction items with
  | nil => rfl
  | cons a items ih =>
    rw [List.mapM_cons, List.mapM_cons, h a List.mem_cons_self,
      ih fun b hb => h b (List.mem_cons_of_mem a hb)]

/-- Steps that agree on the items of a list fold it alike. -/
theorem EvalM.foldlM_congr {α β : Type} {f g : β → α → EvalM β} {items : List α}
    (h : ∀ b, ∀ a ∈ items, f b a = g b a) (b : β) : items.foldlM f b = items.foldlM g b := by
  induction items generalizing b with
  | nil => rfl
  | cons a items ih =>
    rw [List.foldlM_cons, List.foldlM_cons, h b a List.mem_cons_self]
    exact congrArg _ (funext fun b' => ih (fun c d hd => h c d (List.mem_cons_of_mem a hd)) b')

namespace Steps

section

variable {s s' : Steps} {req : Request} {info : ReductionInfo} {body : Expr}
  {iterators : List Iterator}
  (h : ∀ {bound sub}, (bound, sub) ∈ (Expr.reduction info body iterators).positions →
    ∀ k {scope}, req.env.Binds bound scope →
      s.evalAfter k (req.within scope) sub = s'.evalAfter k (req.within scope) sub)

include h

/-- The source of an iterator is evaluated where the reduction is, and its guard in a scope of this
iterator alone. -/
theorem sequence_within {it : Iterator} (hit : it ∈ iterators) :
    s.sequence req it = s'.sequence req it := by
  have hsource : s.eval req it.source = s'.eval req it.source :=
    h (Expr.mem_positions_reduction.mpr (.inl ⟨it, hit, rfl, rfl⟩)) 0 .none
  have hpasses : ∀ guard, it.guard = some guard →
      s.passes req it.name it.ty guard = s'.passes req it.name it.ty guard := by
    intro guard hguard
    have hposition : ([it.name], guard) ∈ (Expr.reduction info body iterators).positions :=
      Expr.mem_positions_reduction.mpr (.inr (.inl ⟨it, hit, rfl, hguard⟩))
    funext v
    exact congrArg (· >>= _) (h hposition 1 (.iterators [(it.name, it.ty, v)]))
  unfold sequence
  rw [hsource]
  refine congrArg _ (funext fun source => ?_)
  cases source.elements? with
  | none => rfl
  | some candidates =>
    cases hguard : it.guard with
    | none => rfl
    | some guard => simp only [hpasses guard hguard]

/-- The body is evaluated in the scope of all iterators. -/
theorem bodyValue_within {values : List Value} (hlength : values.length = iterators.length) :
    s.bodyValue req iterators body values = s'.bodyValue req iterators body values := by
  have hnames : ((iterators.zip values).map fun p => (p.1.name, p.1.ty, p.2)).map Prod.fst
      = iterators.map Iterator.name := by
    rw [List.map_map]
    show (iterators.zip values).map (Iterator.name ∘ Prod.fst) = _
    rw [← List.map_map, List.map_fst_zip (Nat.le_of_eq hlength.symm)]
  have hbinds : req.env.Binds (iterators.map Iterator.name) (req.env.bindTuple iterators values) :=
    hnames ▸ .iterators _
  exact h (Expr.mem_positions_reduction.mpr (.inr (.inr (.inl ⟨rfl, rfl⟩)))) 0 hbinds

/-- The fold expression is evaluated in a scope of the next value and the result so far. -/
theorem foldStep_within (acc next : Value) :
    s.foldStep req info acc next = s'.foldStep req info acc next := by
  unfold foldStep
  cases hinfo : info.fold with
  | none => rfl
  | some fold =>
    exact h (Expr.mem_positions_reduction.mpr (.inr (.inr (.inr (.inr ⟨rfl, hinfo⟩))))) 1
      (.iterators [(info.valueName, info.ty, next), (info.resultName, info.ty, acc)])

/-- A reduction evaluates its parts at their positions only, each in a scope that binds just the
names of its position. -/
theorem reduction_within :
    s.reduction req info body iterators = s'.reduction req info body iterators := by
  have hsequences : iterators.mapM (s.sequence req) = iterators.mapM (s'.sequence req) :=
    EvalM.mapM_congr fun it hit => sequence_within h hit
  unfold reduction
  rw [hsequences]
  refine EvalM.bind_congr_of_gives fun {sequences _ _ _ _} hgives => ?_
  have hlength : sequences.length = iterators.length := (EvalM.gives_mapM hgives).length_eq.symm
  refine EvalM.bind_congr_of_gives fun {tuples _ _ _ _} htuples => ?_
  have hvalue : ∀ tuple ∈ tuples,
      s.bodyValue req iterators body tuple = s'.bodyValue req iterators body tuple :=
    fun tuple htuple => bodyValue_within h
      ((length_of_mem_bindingTuples (EvalM.gives_ofOutcome.mp htuples).1 htuple).trans hlength)
  cases tuples with
  | nil =>
    cases hdefault : info.default with
    | none => rfl
    | some default =>
      exact h (Expr.mem_positions_reduction.mpr (.inr (.inr (.inr (.inl ⟨rfl, hdefault⟩))))) 0
        .none
  | cons first others =>
    have hothers := fun tuple htuple => hvalue tuple (List.mem_cons_of_mem first htuple)
    have hvalues := EvalM.mapM_congr hvalue
    simp only
    cases Gathering.ofName info.path.last with
    | fold =>
      simp only [hvalue first List.mem_cons_self]
      refine congrArg _ (funext fun acc => EvalM.foldlM_congr (fun acc tuple htuple => ?_) acc)
      simp only [hothers tuple htuple, foldStep_within h]
    | _ => simp only [hvalues]

end

end Steps

/-! ## The search for a name -/

section

variable {name : String}

/-- A list refers to a name if one of its expressions does. -/
theorem Expr.anyRefersTo_iff {es : List Expr} :
    Expr.anyRefersTo name es = true ↔ ∃ e ∈ es, e.refersTo name = true := by
  induction es with
  | nil => simp [Expr.anyRefersTo]
  | cons e es ih => simp [Expr.anyRefersTo, ih]

/-- Rows refer to a name if one of their expressions does. -/
theorem Expr.anyRowRefersTo_iff {rows : List (List Expr)} :
    Expr.anyRowRefersTo name rows = true ↔ ∃ e ∈ rows.flatten, e.refersTo name = true := by
  induction rows with
  | nil => simp [Expr.anyRowRefersTo]
  | cons row rows ih =>
    simp only [Expr.anyRowRefersTo, Bool.or_eq_true, Expr.anyRefersTo_iff, ih, List.flatten_cons,
      List.mem_append, or_and_right, exists_or]

/-- Subscripts refer to a name if one of their expressions does. -/
theorem Subscript.anyRefersTo_iff {subscripts : List Subscript} :
    Subscript.anyRefersTo name subscripts = true ↔
      ∃ e ∈ subscripts.filterMap Subscript.expr?, e.refersTo name = true := by
  induction subscripts with
  | nil => simp [Subscript.anyRefersTo]
  | cons subscript subscripts ih =>
    cases subscript <;> simp [Subscript.anyRefersTo, Subscript.expr?, ih]

/-- The parts of a reference refer to a name if one of their subscripts does. -/
theorem RefPart.anyRefersTo_iff {parts : Reference} :
    RefPart.anyRefersTo name parts = true ↔
      ∃ e ∈ (Reference.subscripts parts).filterMap Subscript.expr?, e.refersTo name = true := by
  induction parts with
  | nil => simp [RefPart.anyRefersTo, Reference.subscripts]
  | cons part parts ih =>
    obtain ⟨ident, subscripts⟩ := part
    have hsubscripts : Reference.subscripts (.mk ident subscripts :: parts)
        = subscripts ++ Reference.subscripts parts := rfl
    simp only [RefPart.anyRefersTo, Bool.or_eq_true, Subscript.anyRefersTo_iff, ih, hsubscripts,
      List.filterMap_append, List.mem_append, or_and_right, exists_or]

/-- Iterators refer to a name outside their scope if one of their sources does. -/
theorem Iterator.anySourceRefersTo_iff {iterators : List Iterator} :
    Iterator.anySourceRefersTo name iterators = true ↔
      ∃ it ∈ iterators, it.source.refersTo name = true := by
  induction iterators with
  | nil => simp [Iterator.anySourceRefersTo]
  | cons it iterators ih =>
    obtain ⟨x, source, guard, ty⟩ := it
    simp [Iterator.anySourceRefersTo, Iterator.source, ih]

/-- Iterators refer to a name in their guards if one of the guards does. -/
theorem Iterator.anyGuardRefersTo_iff {iterators : List Iterator} :
    Iterator.anyGuardRefersTo name iterators = true ↔
      ∃ it ∈ iterators, ∃ guard, it.guard = some guard ∧ guard.refersTo name = true := by
  induction iterators with
  | nil => simp [Iterator.anyGuardRefersTo]
  | cons it iterators ih =>
    obtain ⟨x, source, guard, ty⟩ := it
    cases guard <;> simp [Iterator.anyGuardRefersTo, Iterator.guard, ih]

namespace Expr

/-- A name is found in a reduction if it is found in a source, or, where no iterator has the name,
in the body or in a guard. -/
theorem refersTo_reduction {info : ReductionInfo} {body : Expr} {iterators : List Iterator} :
    (Expr.reduction info body iterators).refersTo name = true ↔
      (∃ it ∈ iterators, it.source.refersTo name = true)
        ∨ (∀ it ∈ iterators, it.name ≠ name)
          ∧ (body.refersTo name = true
            ∨ ∃ it ∈ iterators, ∃ guard, it.guard = some guard ∧ guard.refersTo name = true) := by
  simp [refersTo, Iterator.anySourceRefersTo_iff, Iterator.anyGuardRefersTo_iff]

/-- In any other expression a name is found if it is found in a direct subexpression, or if the
expression is a reference to it. -/
theorem refersTo_iff {e : Expr} (he : ∀ info body iterators, e ≠ .reduction info body iterators) :
    e.refersTo name = true ↔
      (∃ parts ty, e = .reference parts ty ∧ Reference.name parts = name)
        ∨ ∃ child ∈ e.children, child.refersTo name = true := by
  cases e with
  | reduction info body iterators => exact absurd rfl (he info body iterators)
  | reference parts ty =>
    simp [refersTo, children, RefPart.anyRefersTo_iff]
  | subscripted operand subscripts =>
    simp [refersTo, children, Subscript.anyRefersTo_iff]
  | range ty start step stop => cases step <;> simp [refersTo, children, or_assoc]
  | size operand dim => cases dim <;> simp [refersTo, children]
  | matrix ty rows => simp [refersTo, children, anyRowRefersTo_iff]
  | _ => simp [refersTo, children, anyRefersTo_iff, or_assoc]

/-! ## What is found is free -/

/-- What is found in a reduction is free in it, if what is found in its parts is free there. -/
theorem free_of_refersTo_reduction {info : ReductionInfo} {body : Expr} {iterators : List Iterator}
    (ih : ∀ child ∈ (Expr.reduction info body iterators).children,
      child.refersTo name = true → child.Free name)
    (h : (Expr.reduction info body iterators).refersTo name = true) :
    (Expr.reduction info body iterators).Free name := by
  simp only [children, List.mem_append, List.mem_flatMap, List.mem_cons, Option.mem_toList,
    List.not_mem_nil, or_false] at ih
  rcases refersTo_reduction.mp h with ⟨it, hit, hfound⟩ | ⟨hnames, hfound⟩
  · have hfree := ih it.source (.inl ⟨it, hit, .inl rfl⟩) hfound
    exact .inside (mem_positions_reduction.mpr (.inl ⟨it, hit, rfl, rfl⟩)) List.not_mem_nil hfree
  rcases hfound with hfound | ⟨it, hit, guard, hguard, hfound⟩
  · refine .inside (mem_positions_reduction.mpr (.inr (.inr (.inl ⟨rfl, rfl⟩)))) (fun hmem => ?_)
      (ih body (.inr rfl) hfound)
    obtain ⟨it, hit, hname⟩ := List.mem_map.mp hmem
    exact hnames it hit hname
  · refine .inside (mem_positions_reduction.mpr (.inr (.inl ⟨it, hit, rfl, hguard⟩)))
      (fun hmem => ?_) (ih guard (.inl ⟨it, hit, .inr hguard⟩) hfound)
    exact hnames it hit (List.mem_singleton.mp hmem).symm

/-- A name that is found occurs free. -/
theorem free_of_refersTo {e : Expr} (h : e.refersTo name = true) : e.Free name := by
  induction e using childInduction with
  | step e ih =>
    by_cases he : ∀ info body iterators, e ≠ .reduction info body iterators
    · rcases (refersTo_iff he).mp h with ⟨parts, ty, rfl, hname⟩ | ⟨child, hchild, hfound⟩
      · exact .here hname
      · exact .inside ((mem_positions he).mpr ⟨rfl, hchild⟩) List.not_mem_nil
          (ih child hchild hfound)
    · push Not at he
      obtain ⟨info, body, iterators, rfl⟩ := he
      exact free_of_refersTo_reduction ih h

/-- A name that is overlooked occurs free. -/
theorem Overlooked.free {e : Expr} (h : e.Overlooked name) : e.Free name := by
  induction h with
  | default hdefault h =>
    exact .inside (mem_positions_reduction.mpr (.inr (.inr (.inr (.inl ⟨rfl, hdefault⟩)))))
      List.not_mem_nil h
  | fold hfold hbound h =>
    exact .inside (mem_positions_reduction.mpr (.inr (.inr (.inr (.inr ⟨rfl, hfold⟩))))) hbound h
  | guard hit hguard hname _ _ h =>
    refine .inside (mem_positions_reduction.mpr (.inr (.inl ⟨_, hit, rfl, hguard⟩))) ?_ h
    exact fun hmem => hname (List.mem_singleton.mp hmem).symm
  | inside hposition hbound _ ih => exact .inside hposition hbound ih

/-! ## What is free is found or overlooked -/

/-- What is found at a position of a reduction is found in the reduction, or is overlooked there. -/
theorem refersTo_or_overlooked_reduction {info : ReductionInfo} {body sub : Expr}
    {iterators : List Iterator} {bound : List String}
    (hposition : (bound, sub) ∈ (Expr.reduction info body iterators).positions)
    (hbound : name ∉ bound) (hfree : sub.Free name) (h : sub.refersTo name = true) :
    (Expr.reduction info body iterators).refersTo name = true
      ∨ (Expr.reduction info body iterators).Overlooked name := by
  rw [refersTo_reduction]
  rcases mem_positions_reduction.mp hposition with ⟨it, hit, rfl, rfl⟩ | ⟨it, hit, rfl, hguard⟩
    | ⟨rfl, rfl⟩ | ⟨rfl, hdefault⟩ | ⟨rfl, hfold⟩
  · exact .inl (.inl ⟨it, hit, h⟩)
  · -- found in a guard, unless another iterator has the name
    by_cases hnamed : ∃ other ∈ iterators, other.name = name
    · obtain ⟨other, hother, hname⟩ := hnamed
      have hit' : it.name ≠ name := fun heq => hbound (by simp [heq])
      exact .inr (.guard hit hguard hit' hother hname hfree)
    · have hnames : ∀ it ∈ iterators, it.name ≠ name := fun it hit hname =>
        hnamed ⟨it, hit, hname⟩
      exact .inl (.inr ⟨hnames, .inr ⟨it, hit, sub, hguard, h⟩⟩)
  · have hnames : ∀ it ∈ iterators, it.name ≠ name := fun it hit hname =>
      hbound (List.mem_map.mpr ⟨it, hit, hname⟩)
    exact .inl (.inr ⟨hnames, .inl h⟩)
  · exact .inr (.default hdefault hfree)
  · exact .inr (.fold hfold hbound hfree)

/-- A name that occurs free is found or overlooked. -/
theorem Free.refersTo_or_overlooked {e : Expr} (h : e.Free name) :
    e.refersTo name = true ∨ e.Overlooked name := by
  induction h with
  | @here parts ty h =>
    exact .inl ((refersTo_iff fun _ _ _ heq => by cases heq).mpr (.inl ⟨parts, ty, rfl, h⟩))
  | @inside e sub bound hposition hbound hfree ih =>
    rcases ih with hfound | hover
    · by_cases he : ∀ info body iterators, e ≠ .reduction info body iterators
      · have hchild := ((mem_positions he).mp hposition).2
        exact .inl ((refersTo_iff he).mpr (.inr ⟨sub, hchild, hfound⟩))
      · push Not at he
        obtain ⟨info, body, iterators, rfl⟩ := he
        exact refersTo_or_overlooked_reduction hposition hbound hfree hfound
    · exact .inr (.inside hposition hbound hover)

/-- A name is free in an expression exactly if it is found there or occurs free in one of the places
that are passed over; what is found is always free. -/
theorem free_iff (name : String) (e : Expr) :
    e.Free name ↔ e.refersTo name = true ∨ e.Overlooked name :=
  ⟨Free.refersTo_or_overlooked, fun h => h.elim free_of_refersTo Overlooked.free⟩

end Expr

/-- The reduction `sum(i for i in {})` with the default `x`. -/
def Expr.sumOrX : Expr :=
  .reduction
    (.mk (.ident "sum") .combine .unknown (some (.reference [.mk "x" []] .unknown)) "$value"
      "$result" none)
    (.reference [.mk "i" []] .unknown) [.mk "i" (.arrayOf []) none .unknown]

/-- A free occurrence that is not found: the default of a reduction is evaluated where the reduction
is, and is passed over. -/
theorem Expr.default_overlooked :
    Expr.sumOrX.Free "x" ∧ Expr.sumOrX.refersTo "x" = false := by
  have hposition : ([], Expr.reference [.mk "x" []] .unknown) ∈ Expr.sumOrX.positions :=
    Expr.mem_positions_reduction.mpr (.inr (.inr (.inr (.inl ⟨rfl, rfl⟩))))
  exact ⟨.inside hposition List.not_mem_nil (.here rfl), by decide⟩

end

end ModelicaFold
