import ModelicaFold.Proofs.Order.Relations
import ModelicaFold.Proofs.Reductions.Collecting
import ModelicaFold.Proofs.Runs.Calls
import ModelicaFold.Proofs.Shape.Reductions

/-!
# Folds by name and the functions they are named after

`sum`, `product`, `max` and `min` name both a way to fold the values of a body and a built-in
function of an array. A reduction folds the values as they come, from the first on. The function gets
them nested into an array, lists its leaves and folds these, from a neutral number or by a strict
comparison. Where all values are Integers the two come to the same, overflows included: nesting and
listing give the values back in their order (`Value.flatten_nest`), a neutral number leaves the first
value as it is, and one Integer is kept against another just if the other is not better.
-/

namespace ModelicaFold

open Value (leafCount)

/-! ## The leaves of nested values -/

/-- Scalars that are nested into an array are its leaves, in their order. -/
theorem Value.flatten_nest {flat : List Value} {shape : List Nat}
    (hflat : ∀ v ∈ flat, v.isArray = false) (hcount : flat.length = leafCount shape)
    (hpos : 0 < flat.length) (hword : flat.length < wordCount) :
    (nest arrayOf flat shape).flatten = flat := by
  induction shape generalizing flat with
  | nil => exact flatten_array_of_leaves hflat _
  | cons n rest ih =>
    rw [leafCount_cons] at hcount
    cases rest with
    | nil => exact flatten_array_of_leaves hflat _
    | cons m inner =>
      have hn : n ≠ 0 := fun h => by rw [h, Nat.zero_mul] at hcount; omega
      have hsize : leafCount (m :: inner) ≠ 0 := fun h => by rw [h] at hcount; omega
      have hle : leafCount (m :: inner) ≤ flat.length :=
        hcount ▸ Nat.le_mul_of_pos_left _ (Nat.pos_of_ne_zero hn)
      have hproduct : sizeProduct (m :: inner) = leafCount (m :: inner) :=
        sizeProduct_of_leafCount_lt hn (by rwa [leafCount_cons, ← hcount])
      have hpieces : ∀ piece ∈ chunks (leafCount (m :: inner)) n flat,
          (nest arrayOf piece (m :: inner)).flatten = piece := by
        intro piece hpiece
        have hlength : piece.length = leafCount (m :: inner) := length_of_mem_chunks hcount hpiece
        exact ih (fun v hv => hflat v (mem_of_mem_chunks hpiece v hv)) hlength (by omega) (by omega)
      simp only [nest, hproduct]
      rw [if_neg (by rintro (h | h) <;> contradiction), arrayOf, flatten, flattenAll_eq_flatMap,
        List.flatMap_map, List.flatMap_congr hpieces, List.flatMap_id', flatten_chunks hcount]

/-- Nested values are no boxed value. -/
theorem Value.unboxed_nest (flat : List Value) (shape : List Nat) :
    (nest arrayOf flat shape).unboxed = nest arrayOf flat shape := by
  match shape with
  | [] => rfl
  | [_] => rfl
  | n :: m :: inner =>
    simp only [nest]
    split <;> rfl

/-! ## Folding Integers -/

/-- Two ways to combine Integers that agree, and give Integers, fold alike. -/
theorem foldlM_integers_congr {f g : Value → Value → Outcome Value}
    (heq : ∀ a b : Int, f (.integer a) (.integer b) = g (.integer a) (.integer b))
    (hclosed : ∀ (a b : Int) v, g (.integer a) (.integer b) = .ok v → ∃ c : Int, v = .integer c)
    (a : Int) (ns : List Int) :
    (ns.map Value.integer).foldlM f (.integer a) = (ns.map Value.integer).foldlM g (.integer a) := by
  induction ns generalizing a with
  | nil => rfl
  | cons b ns ih =>
    rw [List.map_cons, List.foldlM_cons, List.foldlM_cons, heq]
    cases hg : g (.integer a) (.integer b) with
    | error f => rfl
    | ok v =>
      obtain ⟨c, rfl⟩ := hclosed a b v hg
      exact ih c

/-- A result that is a word is an Integer. -/
theorem integer_of_inRange {operation : String} {n : Int} {v : Value}
    (h : inRange operation n = .ok v) : ∃ c : Int, v = .integer c := by
  unfold inRange at h
  split at h
  · exact ⟨n, (Except.ok.inj h).symm⟩
  · simp at h

namespace Builtin

/-- A function folds the leaves of its argument as a reduction of this name folds values. -/
def FoldsAs (f : Function) (name : String) : Prop :=
  ∀ (v : Value) (n : Int) (ns : List Int), IsWord n →
    v.unboxed.flatten = (n :: ns).map Value.integer →
    f [v] = (ns.map Value.integer).foldlM (Value.foldNamed name) (.integer n)

/-- A sum or a product may begin with a neutral number. -/
theorem foldsAs_foldLeaves {name : String} {op : Arith}
    (hneutral : ∀ n : Int, ∃ e : Int, neutral op (.integer n) = .integer e
      ∧ Value.integerArith op e n = inRange op.name n)
    (hrange : ∀ a b : Int, ∃ c, Value.integerArith op a b = inRange op.name c)
    (hnamed : ∀ a b : Int, Value.foldNamed name (.integer a) (.integer b)
      = Value.integerArith op a b) : FoldsAs (foldLeaves name op) name := by
  intro v n ns hn hv
  obtain ⟨e, he, hfirst⟩ := hneutral n
  have hleaves : foldLeaves name op [v]
      = ((n :: ns).map Value.integer).foldlM (Value.scalarArith op)
          (neutral op (((n :: ns).map Value.integer).headD (.integer 0))) := by
    rw [← hv]
    rfl
  rw [hleaves, List.map_cons, List.headD_cons, he, List.foldlM_cons, Value.scalarArith, hfirst,
    inRange_of_isWord _ hn]
  refine (foldlM_integers_congr hnamed (fun a b w hw => ?_) n ns).symm
  obtain ⟨c, hc⟩ := hrange a b
  exact integer_of_inRange (hc.symm.trans hw)

/-- The best Integer is the one that a fold keeps, if it is kept against those not better. -/
theorem best_eq_foldlM {name : String} {better keeps : RelationOp}
    (hopposite : ∀ a b : Int, keeps.holds (compare a b) = !better.holds (compare b a))
    (hnamed : ∀ a b : Int, Value.foldNamed name (.integer a) (.integer b)
      = Value.foldExtreme name keeps (.integer a) (.integer b)) (n : Int) (ns : List Int) :
    best name better (.integer n) (ns.map Value.integer)
      = (ns.map Value.integer).foldlM (Value.foldNamed name) (.integer n) := by
  induction ns generalizing n with
  | nil => rfl
  | cons b ns ih =>
    have hrelate : Value.relate? (.integer b) better (.integer n)
        = some (better.holds (compare b n)) := Value.relate?_integer b n better
    have hstep : Value.foldNamed name (.integer n) (.integer b)
        = .ok (if better.holds (compare b n) then .integer b else .integer n) := by
      have hkeeps : Value.foldNamed name (.integer n) (.integer b)
          = .ok (if keeps.holds (compare n b) then .integer n else .integer b) := by
        rw [hnamed, Value.foldExtreme, Value.relate?_integer]
      rw [hkeeps, hopposite]
      cases better.holds (compare b n) <;> rfl
    rw [List.map_cons, best, List.foldlM_cons, hstep, hrelate, Outcome.ok_bind]
    cases better.holds (compare b n) with
    | true => exact ih b
    | false => exact ih n

/-- An extremum of Integers folds as its name does if it keeps the opposite of what is better. -/
theorem foldsAs_extremum {name : String} {better : RelationOp} (keeps : RelationOp)
    (hopposite : ∀ a b : Int, keeps.holds (compare a b) = !better.holds (compare b a))
    (hnamed : ∀ a b : Int, Value.foldNamed name (.integer a) (.integer b)
      = Value.foldExtreme name keeps (.integer a) (.integer b)) :
    FoldsAs (extremum name better) name := by
  intro v n ns _ hv
  have hleaves : extremum name better [v]
      = best name better (.integer n) (ns.map Value.integer) := by
    rw [List.map_cons] at hv
    simp [extremum, takesBetween, arg, Outcome.ok_bind, hv]
  rw [hleaves]
  exact best_eq_foldlM hopposite hnamed n ns

/-- The names that fold by themselves. -/
def foldNames : List String := ["sum", "product", "min", "max"]

/-- Each of the names is that of a function that folds as the reduction does. -/
theorem exists_foldsAs {name : String} (hname : name ∈ foldNames) :
    ∃ f, baseTable.lookup name = some (.ofValues f) ∧ FoldsAs f name := by
  have hswap : ∀ a b : Int, compare a b = (compare b a).swap := fun a b =>
    Std.OrientedCmp.eq_swap
  simp only [foldNames, List.mem_cons, List.not_mem_nil, or_false] at hname
  rcases hname with rfl | rfl | rfl | rfl
  · exact ⟨foldLeaves "sum" .add, rfl, foldsAs_foldLeaves
      (fun n => ⟨0, rfl, congrArg (inRange _) (Int.zero_add n)⟩) (fun a b => ⟨a + b, rfl⟩)
      fun _ _ => rfl⟩
  · exact ⟨foldLeaves "product" .mul, rfl, foldsAs_foldLeaves
      (fun n => ⟨1, rfl, congrArg (inRange _) (Int.one_mul n)⟩) (fun a b => ⟨a * b, rfl⟩)
      fun _ _ => rfl⟩
  · refine ⟨extremum "min" .less, rfl, foldsAs_extremum .lessEq (fun a b => ?_)
      fun _ _ => rfl⟩
    rw [hswap a b]
    cases compare b a <;> rfl
  · refine ⟨extremum "max" .greater, rfl, foldsAs_extremum .greaterEq (fun a b => ?_)
      fun _ _ => rfl⟩
    rw [hswap a b]
    cases compare b a <;> rfl

end Builtin

/-! ## Two reductions over the same bodies -/

/-- Folding what steps give while they are taken comes to folding it afterwards, if all of them
succeed. -/
theorem EvalM.foldlM_of_mapM {α β γ : Type} {f : α → EvalM β} {g : γ → β → Outcome γ}
    {items : List α} {bs : List β} {ctx ctx' : Context} {log log' : Log}
    (h : (items.mapM f).Gives ctx log bs ctx' log') (c : γ) :
    ((items.foldlM (fun c a => f a >>= fun b => EvalM.ofOutcome (g c b)) c) ctx log).1
      = (bs.foldlM g c).map fun c => (c, ctx') := by
  induction items generalizing bs c ctx log with
  | nil =>
    obtain ⟨rfl, rfl, rfl⟩ := gives_pure.mp h
    rfl
  | cons a items ih =>
    rw [List.mapM_cons] at h
    obtain ⟨b, ctx₁, log₁, hb, h⟩ := gives_bind.mp h
    obtain ⟨bs, ctx₂, log₂, hbs, h⟩ := gives_bind.mp h
    obtain ⟨rfl, rfl, rfl⟩ := gives_pure.mp h
    have hstep : (f a >>= fun b => EvalM.ofOutcome (g c b)) ctx log
        = EvalM.ofOutcome (g c b) ctx₁ log₁ := by
      rw [bind_apply, hb]
    rw [List.foldlM_cons, List.foldlM_cons, bind_apply, hstep]
    cases g c b with
    | error failure => rfl
    | ok c' => exact ih hbs c'

/-- Integers that are gathered into an array, one for each binding tuple, are its leaves, in their
order. -/
theorem gather_leaves {kind : IteratorKind} {sequences tuples : List (List Value)} {ns : List Int}
    (htuples : bindingTuples kind sequences = .ok tuples)
    (hlength : (ns.map Value.integer).length = tuples.length) (hne : tuples ≠ []) :
    (Gathering.array.gather (ns.map Value.integer)
      (kind.shape (sequences.map List.length) tuples.length)).unboxed.flatten
        = ns.map Value.integer := by
  obtain ⟨hcount, hfew⟩ := length_bindingTuples htuples
  have hleaves : ∀ v ∈ ns.map Value.integer, v.isArray = false := by simp [Value.isArray]
  have hunboxed : (ns.map Value.integer).map Value.unboxed = ns.map Value.integer := by
    simp [Value.unboxed]
  rw [Gathering.gather, Value.unboxed_nest, hunboxed]
  cases kind with
  | thread => exact Value.flatten_array_of_leaves hleaves _
  | combine =>
    refine Value.flatten_nest hleaves (hlength.trans hcount) ?_ ?_
    · rw [hlength]
      exact List.length_pos_iff.mpr hne
    · rw [hlength]
      exact Nat.lt_of_le_of_lt (hfew rfl) (by decide)

namespace Steps

/-- The body of a reduction is evaluated for at least one binding tuple, and each time it gives an
Integer: `ns` are these Integers in their order. -/
def GivesIntegers (s : Steps) (req : Request) (kind : IteratorKind) (body : Expr)
    (iterators : List Iterator) (ctx : Context) (log : Log) (ns : List Int) (ctx' : Context)
    (log' : Log) : Prop :=
  ∃ sequences ctx₁ log₁ tuples,
    (iterators.mapM (s.sequence req)).Gives ctx log sequences ctx₁ log₁
      ∧ bindingTuples kind sequences = .ok tuples ∧ tuples ≠ []
      ∧ (tuples.mapM (s.bodyValue req iterators body)).Gives ctx₁ log₁ (ns.map Value.integer) ctx'
        log'
      ∧ ∀ n ∈ ns, IsWord n

namespace GivesIntegers

variable {s : Steps} {req : Request} {info : ReductionInfo} {body : Expr}
  {iterators : List Iterator} {ctx ctx' : Context} {log log' : Log} {ns : List Int}

/-- The Integers that a reduction gives are words. -/
theorem isWord (h : s.GivesIntegers req info.kind body iterators ctx log ns ctx' log') :
    ∀ n ∈ ns, IsWord n := by
  obtain ⟨_, _, _, _, _, _, _, _, hwords⟩ := h
  exact hwords

/-- A reduction that gives Integers gives at least one. -/
theorem ne_nil (h : s.GivesIntegers req info.kind body iterators ctx log ns ctx' log') :
    ns ≠ [] := by
  obtain ⟨_, _, _, _, _, _, hne, hbodies, _⟩ := h
  have hlength := (EvalM.gives_mapM hbodies).length_eq
  rintro rfl
  exact hne (List.length_eq_zero_iff.mp hlength)

/-- An array reduction gives an array whose leaves are these Integers. -/
theorem reduction_array (h : s.GivesIntegers req info.kind body iterators ctx log ns ctx' log')
    (harray : info.path.last = "array") :
    ∃ a, (s.reduction req info body iterators).Gives ctx log a ctx' log'
      ∧ a.unboxed.flatten = ns.map Value.integer := by
  obtain ⟨sequences, ctx₁, log₁, tuples, hsequences, htuples, hne, hbodies, _⟩ := h
  have hlength : (ns.map Value.integer).length = tuples.length :=
    (EvalM.gives_mapM hbodies).length_eq.symm
  refine ⟨Gathering.array.gather (ns.map Value.integer)
    (info.kind.shape (sequences.map List.length) tuples.length), ?_,
    gather_leaves htuples hlength hne⟩
  refine EvalM.gives_bind.mpr ⟨sequences, ctx₁, log₁, hsequences, ?_⟩
  refine EvalM.gives_bind.mpr ⟨tuples, ctx₁, log₁, EvalM.gives_ofOutcome.mpr
    ⟨htuples, rfl, rfl⟩, ?_⟩
  have hgathering : Gathering.ofName info.path.last = .array := by rw [harray]; rfl
  cases tuples with
  | nil => exact absurd rfl hne
  | cons first others =>
    simp only [hgathering]
    exact EvalM.gives_bind.mpr ⟨_, ctx', log', hbodies, rfl⟩

/-- A fold by name alone folds these Integers. -/
theorem reduction_fold {n : Int}
    (h : s.GivesIntegers req info.kind body iterators ctx log (n :: ns) ctx' log')
    (hfold : info.fold = none) (hgathering : Gathering.ofName info.path.last = .fold) :
    (s.reduction req info body iterators ctx log).1
      = ((ns.map Value.integer).foldlM (Value.foldNamed info.path.last) (.integer n)).map
        fun v => (v, ctx') := by
  obtain ⟨sequences, ctx₁, log₁, tuples, hsequences, htuples, hne, hbodies, _⟩ := h
  cases tuples with
  | nil => exact absurd rfl hne
  | cons first others =>
    rw [List.mapM_cons, List.map_cons] at hbodies
    obtain ⟨acc, ctx₂, log₂, hfirst, hbodies⟩ := EvalM.gives_bind.mp hbodies
    obtain ⟨values, ctx₃, log₃, hothers, hbodies⟩ := EvalM.gives_bind.mp hbodies
    obtain ⟨hvalues, rfl, rfl⟩ := EvalM.gives_pure.mp hbodies
    obtain ⟨rfl, rfl⟩ := List.cons.inj hvalues
    rw [← EvalM.foldlM_of_mapM hothers]
    simp only [Steps.reduction, hgathering, Steps.foldStep, hfold]
    rw [EvalM.bind_apply, hsequences]
    simp only [htuples]
    change ((s.bodyValue req iterators body first >>= _) ctx₁ log₁).1 = _
    rw [EvalM.bind_apply, hfirst]

end GivesIntegers

end Steps

/-! ## Reductions and calls -/

/-- A reduction named `sum`, `product`, `min` or `max` without a fold expression, and the built-in
function of this name applied to the same reduction named `array`: if the latter succeeds, and its
leaves are Integers that the body gives itself for at least one binding tuple, both have the same
outcome. -/
theorem named_fold_agrees {ev : Evaluator} {n : Nat} {req : Request}
    {info collected : ReductionInfo} {body : Expr} {iterators : List Iterator} {function : Path}
    (ty : Ty) (impure : Bool) {ctx ctx' ctx₁ : Context} {log log' log₁ : Log} {a : Value}
    (ns : List Int) (hname : info.path.last ∈ Builtin.foldNames) (hfold : info.fold = none)
    (hfunction : function.last = info.path.last) (harray : collected.path.last = "array")
    (hkind : collected.kind = info.kind)
    (hcollected : ((ev.steps (n + 1)).eval req (.reduction collected body iterators)).Gives ctx
      log.calling a ctx' log')
    (hintegers : (ev.steps n).GivesIntegers req info.kind body iterators ctx log.calling.visiting
      ns ctx₁ log₁) :
    ((ev.steps (n + 1)).eval req (.reduction info body iterators) ctx log.calling).1
      = ((ev.steps (n + 2)).eval req
          (.call function [.reduction collected body iterators] ty true impure) ctx log).1 := by
  obtain ⟨f, hf, hfolds⟩ := Builtin.exists_foldsAs hname
  have hgathering : Gathering.ofName info.path.last = .fold :=
    (by decide : ∀ name ∈ Builtin.foldNames, Gathering.ofName name = .fold) _ hname
  -- the argument of the call is the array of the Integers
  obtain ⟨a', ha', hleaves⟩ := (hkind.symm ▸ hintegers).reduction_array harray
  have hrun : ((ev.steps n).reduction req collected body iterators).Gives ctx log.calling.visiting a
      ctx' log' := hcollected
  cases hrun.symm.trans ha'
  rw [eval_callBuiltin (hfunction.symm ▸ hf) hcollected]
  obtain ⟨m, ms, rfl⟩ := List.exists_cons_of_ne_nil hintegers.ne_nil
  rw [hfolds a m ms (hintegers.isWord m List.mem_cons_self) hleaves]
  exact hintegers.reduction_fold hfold hgathering

/-- Combining values under a name, without default and fold expression. -/
def ReductionInfo.combining (name : String) : ReductionInfo :=
  .mk (.ident name) .combine .integer none "value" "result" none

/-- The largest of the values 21, 31, 22 and 32 of `10 * i + j`. -/
theorem named_fold_agrees_tens :
    (((Evaluator.alone ⟨9, .none⟩).steps 6).eval ⟨.empty, .explicit, .silent⟩
        (.reduction (.combining "max") .tens Iterator.tens) .empty
        (Log.start .unlimited).calling).1
      = (((Evaluator.alone ⟨9, .none⟩).steps 7).eval ⟨.empty, .explicit, .silent⟩
          (.call (.ident "max") [.reduction (.combining "array") .tens Iterator.tens] .integer true
            false) .empty (.start .unlimited)).1 :=
  named_fold_agrees .integer false [21, 31, 22, 32] (by decide) rfl rfl rfl rfl rfl
    ⟨_, _, _, _, rfl, rfl, by decide, rfl, by decide⟩

end ModelicaFold
