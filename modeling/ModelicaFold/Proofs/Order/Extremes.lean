import ModelicaFold.Proofs.Order.Relations
import ModelicaFold.Proofs.Runs.Calls

/-!
# The first extreme

`max` and `min` keep the best value so far while they go through the leaves of an array or through
two arguments. The one that is kept is the first that no other is better than
(`extremes_of_relations`): the values of one class being in a linear order, a value that is replaced
is worse than its successor, and a value that was passed by is not better than any later best.
-/

namespace ModelicaFold

namespace Builtin

open Value

/-- What the extremes are called, and the relation by which a value is better than another. -/
def extremes : List (String × RelationOp) := [("max", .greater), ("min", .less)]

/-- The values that an extreme is taken of: the leaves of one argument, or two arguments. -/
def candidates? : List Value → Option (List Value)
  | [v] => some v.unboxed.flatten
  | [v, w] => some [v.unboxed, w.unboxed]
  | _ => none

/-- The first of the values that none of them is better than. -/
def firstBest? (better : RelationOp) (values : List Value) : Option Value :=
  values.find? fun w => values.all fun u => !decide (u.Holds better w)

variable {name : String} {better : RelationOp} {values seen others : List Value}
  {u v w champion : Value} {c : OrderClass}

/-! ## Being better -/

/-- How values of one class are better than each other. -/
structure Prefers (better : RelationOp) (c : OrderClass) : Prop where
  irrefl : ∀ v : Value, v.orderClass? = some c → ¬v.Holds better v
  trans : ∀ u v w : Value, u.orderClass? = some c → u.Holds better v → v.Holds better w →
    u.Holds better w
  between : ∀ u v w : Value, u.orderClass? = some c → v.orderClass? = some c →
    u.Holds better w → u.Holds better v ∨ v.Holds better w

/-- A value in a class is discrete. -/
theorem discrete_of_orderClass? (h : v.orderClass? = some c) : v.Discrete := by
  rw [Discrete, ← Option.isSome_map (f := Key.orderClass)]
  exact Option.isSome_of_eq_some h

/-- Less prefers the lesser of two values of a class. -/
theorem prefers_less (c : OrderClass) : Prefers .less c where
  irrefl _ hv := not_holds_less_self (discrete_of_orderClass? hv)
  trans _ _ _ hu h h' := Holds.less_trans (discrete_of_orderClass? hu) h h'
  between _ _ _ hu hv h := Holds.less_or_less (discrete_of_orderClass? hu) h (hu.trans hv.symm)

/-- To exceed is to be exceeded with the operands swapped. -/
theorem prefers_greater (c : OrderClass) : Prefers .greater c where
  irrefl := (prefers_less c).irrefl
  trans u v w hu h h' := by
    have hw : w.orderClass? = some c :=
      (orderClass?_of_relate? h').symm.trans ((orderClass?_of_relate? h).symm.trans hu)
    exact (prefers_less c).trans w v u hw h' h
  between u v w hu hv h := by
    have hw : w.orderClass? = some c := (orderClass?_of_relate? h).symm.trans hu
    exact ((prefers_less c).between w v u hw hv h).symm

/-- The relation of each of the two functions prefers one of two values of a class. -/
theorem prefers_of_mem_extremes (h : (name, better) ∈ extremes) (c : OrderClass) :
    Prefers better c := by
  simp only [extremes, List.mem_cons, Prod.mk.injEq, List.not_mem_nil, or_false] at h
  rcases h with ⟨-, rfl⟩ | ⟨-, rfl⟩
  · exact prefers_greater c
  · exact prefers_less c

/-! ## The best so far -/

/-- None of the values is better than `w`, but than each one before it some value is better. -/
structure IsFirstBest (better : RelationOp) (values : List Value) (w : Value) : Prop where
  best : ∀ u ∈ values, ¬u.Holds better w
  first : ∃ before after, values = before ++ w :: after
    ∧ ∀ u ∈ before, ∃ x ∈ values, x.Holds better u

namespace IsFirstBest

/-- The first best of some values is one of them. -/
theorem mem (h : IsFirstBest better values w) : w ∈ values := by
  obtain ⟨before, after, hvalues, -⟩ := h.first
  simp [hvalues]

/-- The first best value is the one that is computed. -/
theorem firstBest?_eq (h : IsFirstBest better values w) : firstBest? better values = some w := by
  obtain ⟨before, after, hvalues, hbefore⟩ := h.first
  rw [firstBest?, List.find?_eq_some_iff_append]
  refine ⟨by simpa using h.best, before, after, hvalues, fun u hu => ?_⟩
  obtain ⟨x, hx, hbetter⟩ := hbefore u hu
  simpa using ⟨x, hx, hbetter⟩

/-- A single value is the first best. -/
theorem singleton (hbetter : Prefers better c) (hw : w.orderClass? = some c) :
    IsFirstBest better [w] w where
  best u hu := by
    rw [List.mem_singleton.mp hu]
    exact hbetter.irrefl w hw
  first := ⟨[], [], rfl, fun _ hu => absurd hu List.not_mem_nil⟩

/-- A value that is not better is passed by. -/
theorem passed (h : IsFirstBest better seen w) (hv : ¬v.Holds better w) :
    IsFirstBest better (seen ++ [v]) w where
  best u hu := by
    rcases List.mem_append.mp hu with hu | hu
    · exact h.best u hu
    · rwa [List.mem_singleton.mp hu]
  first := by
    obtain ⟨before, after, rfl, hbefore⟩ := h.first
    refine ⟨before, after ++ [v], by simp, fun u hu => ?_⟩
    obtain ⟨x, hx, hbetter⟩ := hbefore u hu
    exact ⟨x, List.mem_append_left _ hx, hbetter⟩

/-- A value that is better than the best so far is better than all values before. -/
theorem replaced (hbetter : Prefers better c) (hclass : ∀ u ∈ seen ++ [v], u.orderClass? = some c)
    (h : IsFirstBest better seen w) (hv : v.Holds better w) :
    IsFirstBest better (seen ++ [v]) v := by
  have hclassv := hclass v (by simp)
  have hseen : ∀ u ∈ seen, v.Holds better u := fun u hu =>
    (hbetter.between v u w hclassv (hclass u (List.mem_append_left _ hu)) hv).resolve_right
      (h.best u hu)
  refine ⟨fun u hu huv => ?_, seen, [], by simp, fun u hu => ⟨v, by simp, hseen u hu⟩⟩
  have hself := hbetter.trans v u v hclassv
  rcases List.mem_append.mp hu with hu | hu
  · exact hbetter.irrefl v hclassv (hself (hseen u hu) huv)
  · rw [List.mem_singleton.mp hu] at huv
    exact hbetter.irrefl v hclassv huv

end IsFirstBest

/-- Among values of one class the best is found, whatever was seen before. -/
theorem best_isFirstBest (name : String) (hbetter : Prefers better c)
    (hclass : ∀ u ∈ seen ++ others, u.orderClass? = some c) (h : IsFirstBest better seen champion) :
    ∃ w, best name better champion others = .ok w ∧ IsFirstBest better (seen ++ others) w := by
  induction others generalizing seen champion with
  | nil => exact ⟨champion, rfl, by rwa [List.append_nil]⟩
  | cons v others ih =>
    rw [List.append_cons] at hclass ⊢
    have hv : v.orderClass? = some c := hclass v (by simp)
    have hchampion : champion.orderClass? = some c := hclass champion (by simp [h.mem])
    obtain ⟨holds, hholds⟩ := Option.isSome_iff_exists.mp
      ((ordered_of_sameClass (discrete_of_orderClass? hv) (hv.trans hchampion.symm)).comparable
        better)
    rw [best, hholds]
    cases holds with
    | true =>
      exact ih hclass (h.replaced hbetter (fun u hu => hclass u (List.mem_append_left _ hu)) hholds)
    | false =>
      exact ih hclass (h.passed (by rw [Holds, hholds]; decide))

/-- Only the values of one class have a best one. -/
theorem orderClass?_of_best (h : best name better champion others = .ok w) :
    ∀ v ∈ others, v.orderClass? = champion.orderClass? := by
  induction others generalizing champion with
  | nil => exact fun _ hv => absurd hv List.not_mem_nil
  | cons v others ih =>
    rw [best] at h
    cases hholds : relate? v better champion with
    | none => simp [hholds, refuse] at h
    | some holds =>
      have hv := orderClass?_of_relate? hholds
      rw [hholds] at h
      rw [List.forall_mem_cons]
      cases holds with
      | true => exact ⟨hv, fun u hu => (ih h u hu).trans hv⟩
      | false => exact ⟨hv, ih h⟩

/-! ## The functions -/

/-- The function looks for the best of the candidates, beginning with the first. -/
theorem extremum_eq (h : candidates? values = some (champion :: others)) :
    extremum name better values = best name better champion others := by
  unfold candidates? at h
  split at h
  · rename_i v
    simp [extremum, takesBetween, arg, Outcome.ok_bind, Option.some.inj h]
  · rename_i v w
    cases h
    rfl
  · cases h

/-- The two functions are in the table of the base language. -/
theorem lookup_of_mem_extremes (h : (name, better) ∈ extremes) :
    baseTable.lookup name = some (.ofValues (extremum name better)) ∧ name ≠ "smooth" := by
  simp only [extremes, List.mem_cons, Prod.mk.injEq, List.not_mem_nil, or_false] at h
  rcases h with ⟨rfl, rfl⟩ | ⟨rfl, rfl⟩
  · exact ⟨rfl, by decide⟩
  · exact ⟨rfl, by decide⟩

/-- Values that are comparable with the first have a first best. -/
theorem best_of_comparable (name : String) (hbetter : ∀ c, Prefers better c) {first : Value}
    (hfirst : first.Discrete) (hothers : ∀ v ∈ others, first.Comparable v) :
    ∃ w, firstBest? better (first :: others) = some w
      ∧ best name better first others = .ok w := by
  obtain ⟨k, hk⟩ := Option.isSome_iff_exists.mp hfirst
  have hclassFirst : first.orderClass? = some k.orderClass := congrArg (Option.map _) hk
  have hclass : ∀ u ∈ [first] ++ others, u.orderClass? = some k.orderClass := by
    rw [List.singleton_append, List.forall_mem_cons]
    exact ⟨hclassFirst, fun v hv =>
      ((comparable_iff hfirst).mp (hothers v hv)).symm.trans hclassFirst⟩
  obtain ⟨w, hw, hbest⟩ := best_isFirstBest name (hbetter _) hclass
    (.singleton (hbetter _) hclassFirst)
  exact ⟨w, hbest.firstBest?_eq, hw⟩

/-- One value that is not comparable with the first is refused. -/
theorem exists_error_best (name : String) (better : RelationOp) {first : Value} (hv : v ∈ others)
    (hdiscrete : first.Discrete ∨ v.Discrete) (hcomparable : ¬first.Comparable v) :
    ∃ f, best name better first others = .error f := by
  cases hbest : best name better first others with
  | error f => exact ⟨f, rfl⟩
  | ok w =>
    have hclass := (orderClass?_of_best hbest v hv).symm
    have hfirst : first.Discrete := hdiscrete.elim id fun h => h.of_orderClass? hclass.symm
    exact absurd ((comparable_iff hfirst).mpr hclass) hcomparable

end Builtin

open Value Builtin

/-- The six relations of discrete values: between the values of one class all are defined and answer
one linear order, which is that of the positions for Integers and enumeration literals; between
other values none is defined. A call of `max` or `min` gives the first of its candidates that none
is better than, if all of them are comparable with the first one, and fails otherwise. -/
theorem extremes_of_relations :
    (∀ v w : Value, v.Discrete → w.Discrete →
      if v.orderClass? = w.orderClass? then v.Ordered w else ∀ op, relate? v op w = none)
    ∧ (∀ (v w : Value) (i j : Int), v.key? = some (.position i) → w.key? = some (.position j) →
      (v.Holds .less w ↔ i < j) ∧ (v.Holds .equal w ↔ i = j))
    ∧ (∀ u v w : Value, u.Discrete → u.Holds .less v → v.Holds .less w → u.Holds .less w)
    ∧ (∀ u v w : Value, u.Discrete → u.Holds .lessEq v → v.Holds .lessEq w → u.Holds .lessEq w)
    ∧ ∀ {ev : Evaluator} {n : Nat} {req : Request} {path : Path} {args : List Expr} {ty : Ty}
        {impure : Bool} {ctx ctx' : Context} {log log' : Log} {better : RelationOp}
        {values others : List Value} {first : Value}, (path.last, better) ∈ extremes →
      ((ev.steps n).evalAll req args).Gives ctx log.calling values ctx' log' →
      candidates? values = some (first :: others) →
      let outcome := ((ev.steps (n + 1)).eval req (.call path args ty true impure) ctx log).1
      (first.Discrete → (∀ v ∈ others, first.Comparable v) →
        ∃ w, firstBest? better (first :: others) = some w ∧ outcome = .ok (w, ctx'))
      ∧ ∀ v ∈ others, first.Discrete ∨ v.Discrete → ¬first.Comparable v →
        ∃ f, outcome = .error f := by
  refine ⟨fun v w hv _ => ?_, fun v w i j hv hw => ?_, fun u v w => Holds.less_trans,
    fun u v w => Holds.lessEq_trans, ?_⟩
  · split
    · rename_i hclass
      exact ordered_of_sameClass hv hclass
    · rename_i hclass
      exact relate?_eq_none hclass
  · have horder : (Key.position i).order? (.position j) = some (compare i j) := rfl
    constructor
    · rw [holds_iff hv hw horder, RelationOp.holds_less, Int.compare_eq_lt]
    · rw [holds_iff hv hw horder]
      exact beq_iff_eq.trans Std.compare_eq_iff_eq
  · intro ev n req path args ty impure ctx ctx' log log' better values others first hname hvalues
      hcandidates outcome
    obtain ⟨hrule, hsmooth⟩ := lookup_of_mem_extremes hname
    have hrun : outcome = (best path.last better first others).map fun w => (w, ctx') := by
      rw [← extremum_eq hcandidates]
      exact eval_builtin_ofValues hrule (Steps.smoothZero?_eq_none hsmooth _ _) hvalues
    constructor
    · intro hfirst hothers
      obtain ⟨w, hw, hbest⟩ :=
        best_of_comparable path.last (prefers_of_mem_extremes hname) hfirst hothers
      exact ⟨w, hw, by rw [hrun, hbest]; rfl⟩
    · intro v hv hdiscrete hcomparable
      obtain ⟨f, hf⟩ := exists_error_best path.last better hv hdiscrete hcomparable
      exact ⟨f, by rw [hrun, hf]; rfl⟩

/-- A vector of an Integer and the literal at a position. -/
def Expr.withLiteral (n i : Int) : Expr :=
  .array (.array .integer [.known 2]) true [.integer n, .enumeration (.ident "E") i]

/-- The literal at position three is the first of the largest values of a matrix, with 3 after it;
it is not compared with a Boolean. -/
theorem extremes_of_relations_literal :
    let outcome (args : List Expr) :=
      (((Evaluator.alone ⟨9, .none⟩).steps 7).eval ⟨.empty, .explicit, .silent⟩
        (.call (.ident "max") args .integer true false) .empty (.start .unlimited)).1
    outcome [.array (.array .integer [.known 2, .known 2]) false
        [.withLiteral 1 3, .withLiteral 3 2]] = .ok (.enumeration (.ident "E") 3, .empty)
      ∧ ∃ f, outcome [.enumeration (.ident "E") 3, .bool true] = .error f := by
  intro outcome
  obtain ⟨-, -, -, -, hcall⟩ := extremes_of_relations
  have hmax : ((Path.ident "max").last, RelationOp.greater) ∈ extremes := by decide
  constructor
  · have hvalues : ∃ log', (((Evaluator.alone ⟨9, .none⟩).steps 6).evalAll
        ⟨.empty, .explicit, .silent⟩ [.array (.array .integer [.known 2, .known 2]) false
          [.withLiteral 1 3, .withLiteral 3 2]]).Gives .empty (Log.start .unlimited).calling
        [.array #[.array #[.integer 1, .enumeration (.ident "E") 3] [2],
          .array #[.integer 3, .enumeration (.ident "E") 2] [2]] [2, 2]] .empty log' := ⟨_, rfl⟩
    obtain ⟨log', hvalues⟩ := hvalues
    have hleaves : ∀ v ∈ [.enumeration (.ident "E") 3, .integer 3, .enumeration (.ident "E") 2],
        (Value.integer 1).Comparable v := by
      simp only [List.forall_mem_cons, comparable_iff (by decide : (Value.integer 1).Discrete)]
      exact ⟨rfl, rfl, rfl, fun _ hv => absurd hv List.not_mem_nil⟩
    obtain ⟨w, hw, hok⟩ := (hcall hmax hvalues rfl).1 (by decide) hleaves
    cases hw
    exact hok
  · have hvalues : ∃ log', (((Evaluator.alone ⟨9, .none⟩).steps 6).evalAll
        ⟨.empty, .explicit, .silent⟩ [.enumeration (.ident "E") 3, .bool true]).Gives .empty
        (Log.start .unlimited).calling [.enumeration (.ident "E") 3, .bool true] .empty log' :=
      ⟨_, rfl⟩
    obtain ⟨log', hvalues⟩ := hvalues
    exact (hcall hmax hvalues rfl).2 (.bool true) List.mem_cons_self (.inl rfl)
      fun h => absurd (h .equal) (by decide)

end ModelicaFold
