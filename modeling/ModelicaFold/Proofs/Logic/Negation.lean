import ModelicaFold.Proofs.Runs.Calls
import ModelicaFold.Proofs.Runs.Insensitive
import ModelicaFold.Proofs.Shape.Broadcast

/-!
# Negated logical operations

A negated conjunction is the disjunction of the negated operands, and the other way round. On values
this is so leaf by leaf (`Value.logical_not`): negation keeps the shape of its operand, so it may be
done before or after the operands are combined. A literal decides an operation where its negation
decides the dual one (`Value.decided?_not`). So both forms evaluate the same operands in the same order,
and they have the same value or none (`de_morgan`).
-/

namespace ModelicaFold

namespace LogicalOp

/-- `or` for `and` and `and` for `or`. -/
def dual : LogicalOp → LogicalOp
  | .and => .or
  | .or => .and

/-- The left operand that decides: `false` for `and`, `true` for `or`. -/
def deciding : LogicalOp → Bool
  | .and => false
  | .or => true

/-- The dual operation on negated truth values gives the negated result. -/
theorem apply_dual (op : LogicalOp) (a b : Bool) : op.dual.apply (!a) (!b) = !op.apply a b := by
  cases op with
  | and => exact (Bool.not_and a b).symm
  | or => exact (Bool.not_or a b).symm

/-- The dual operation is decided by the other truth value. -/
theorem deciding_dual (op : LogicalOp) : op.dual.deciding = !op.deciding := by
  cases op <;> rfl

end LogicalOp

namespace Value

/-! ## Mapping and combining leaves -/

section Leaves

variable {f f' : Value → Value → Outcome Value} {g : Value → Outcome Value}

/-- A list of values is mapped if its head and its tail are. -/
theorem mapAllLeaves_cons_eq_ok {v : Value} {vs ws : List Value} :
    mapAllLeaves g (v :: vs) = .ok ws ↔
      ∃ w ws', v.mapLeaves g = .ok w ∧ mapAllLeaves g vs = .ok ws' ∧ ws = w :: ws' := by
  rw [mapAllLeaves]
  cases v.mapLeaves g with
  | error e => simp
  | ok w => cases mapAllLeaves g vs <;> simp [eq_comm]

/-- Two lists of values are combined if their heads and their tails are. -/
theorem zipAllLeaves_cons_eq_ok {x y : Value} {xs ys zs : List Value} :
    zipAllLeaves f (x :: xs) (y :: ys) = some (.ok zs) ↔
      ∃ z zs', x.zipLeaves f y = some (.ok z) ∧ zipAllLeaves f xs ys = some (.ok zs')
        ∧ zs = z :: zs' := by
  rw [zipAllLeaves]
  cases x.zipLeaves f y with
  | none => simp
  | some o =>
    cases o with
    | error e => simp
    | ok z =>
      cases zipAllLeaves f xs ys with
      | none => simp
      | some o => cases o <;> simp [eq_comm]

/-- The leaves of two arrays are combined where their sizes agree. -/
theorem zipLeaves_array_eq_ok {xs ys : List Value} {dims dims' : List Nat} {v : Value} :
    (Value.array ⟨xs⟩ dims).zipLeaves f (.array ⟨ys⟩ dims') = some (.ok v) ↔
      (dims = dims' ∧ xs.length = ys.length)
        ∧ ∃ zs, zipAllLeaves f xs ys = some (.ok zs) ∧ v = .array ⟨zs⟩ dims := by
  rw [zipLeaves]
  by_cases hfit : dims = dims' ∧ xs.length = ys.length
  · rw [if_pos hfit]
    cases zipAllLeaves f xs ys with
    | none => simp
    | some o => cases o <;> simp [hfit, Except.map, eq_comm]
  · simp [hfit]

/-- An array is mapped if its elements are, and keeps its sizes. -/
theorem mapLeaves_array_eq_ok {xs : List Value} {dims : List Nat} {v : Value} :
    (Value.array ⟨xs⟩ dims).mapLeaves g = .ok v ↔
      ∃ ws, mapAllLeaves g xs = .ok ws ∧ v = .array ⟨ws⟩ dims := by
  rw [mapLeaves]
  cases mapAllLeaves g xs <;> simp [Except.map, eq_comm]

/-- Mapping the leaves of some values gives as many values. -/
theorem length_of_mapAllLeaves {vs ws : List Value} (h : mapAllLeaves g vs = .ok ws) :
    ws.length = vs.length := by
  rw [mapAllLeaves_eq_mapM] at h
  exact Outcome.length_of_mapM_eq_ok h

variable (f f' g) in
/-- To map what comes of combining an operand with another is to combine what comes of mapping both. -/
def Exchanges (x : Value) : Prop :=
  ∀ y v, (∃ z, x.zipLeaves f y = some (.ok z) ∧ z.mapLeaves g = .ok v) ↔
    ∃ x' y', x.mapLeaves g = .ok x' ∧ y.mapLeaves g = .ok y' ∧ x'.zipLeaves f' y' = some (.ok v)

/-- Combining and mapping may be exchanged on a leaf if they may on what they are applied to. -/
theorem exchanges_leaf (hcombine : ∀ x y v, (∃ z, f x y = .ok z ∧ g z = .ok v) ↔
      ∃ x' y', g x = .ok x' ∧ g y = .ok y' ∧ f' x' y' = .ok v)
    (hf : ∀ {x y z}, f x y = .ok z → z.isArray = false)
    (hg : ∀ {x w}, g x = .ok w → w.isArray = false) {x : Value} (hx : x.isArray = false) :
    Exchanges f f' g x := by
  intro y v
  rw [mapLeaves_leaf hx]
  by_cases hy : y.isArray = true
  · -- a scalar and an array are not combined, neither before nor after the map
    cases y with
    | array elements dims =>
      obtain ⟨ys⟩ := elements
      rw [zipLeaves_leaf_array hx]
      constructor
      · rintro ⟨z, hz, -⟩
        cases hz
      · rintro ⟨x', y', hx', hy', hzip⟩
        obtain ⟨ws, -, rfl⟩ := mapLeaves_array_eq_ok.mp hy'
        rw [zipLeaves_leaf_array (hg hx')] at hzip
        cases hzip
    | _ => cases hy
  · have hy : y.isArray = false := by simpa using hy
    rw [zipLeaves_leaves hx hy, mapLeaves_leaf hy]
    have hcombine := hcombine x y v
    constructor
    · rintro ⟨z, hz, hv⟩
      have hz : f x y = .ok z := Option.some.inj hz
      rw [mapLeaves_leaf (hf hz)] at hv
      obtain ⟨x', y', hx', hy', hv⟩ := hcombine.mp ⟨z, hz, hv⟩
      refine ⟨x', y', hx', hy', ?_⟩
      rw [zipLeaves_leaves (hg hx') (hg hy'), hv]
    · rintro ⟨x', y', hx', hy', hv⟩
      rw [zipLeaves_leaves (hg hx') (hg hy')] at hv
      obtain ⟨z, hz, hv⟩ := hcombine.mpr ⟨x', y', hx', hy', Option.some.inj hv⟩
      refine ⟨z, congrArg some hz, ?_⟩
      rw [mapLeaves_leaf (hf hz)]
      exact hv

/-- Combining and mapping may be exchanged on a list if they may on its values. -/
theorem exchanges_all {xs ys vs : List Value} (h : ∀ x ∈ xs, Exchanges f f' g x)
    (hlength : xs.length = ys.length) :
    (∃ zs, zipAllLeaves f xs ys = some (.ok zs) ∧ mapAllLeaves g zs = .ok vs) ↔
      ∃ xs' ys', mapAllLeaves g xs = .ok xs' ∧ mapAllLeaves g ys = .ok ys'
        ∧ zipAllLeaves f' xs' ys' = some (.ok vs) := by
  induction xs generalizing ys vs with
  | nil =>
    cases ys with
    | nil => simp [zipAllLeaves, mapAllLeaves]
    | cons y ys => cases hlength
  | cons x xs ih =>
    cases ys with
    | nil => cases hlength
    | cons y ys =>
      obtain ⟨hx, hxs⟩ := List.forall_mem_cons.mp h
      have hlength : xs.length = ys.length := Nat.succ.inj hlength
      constructor
      · rintro ⟨_, hzip, hmap⟩
        obtain ⟨z, zs, hz, hzs, rfl⟩ := zipAllLeaves_cons_eq_ok.mp hzip
        obtain ⟨v, vs, hv, hvs, rfl⟩ := mapAllLeaves_cons_eq_ok.mp hmap
        obtain ⟨x', y', hx', hy', hv⟩ := (hx y v).mp ⟨z, hz, hv⟩
        obtain ⟨xs', ys', hxs', hys', hvs⟩ := (ih hxs hlength).mp ⟨zs, hzs, hvs⟩
        exact ⟨x' :: xs', y' :: ys', mapAllLeaves_cons_eq_ok.mpr ⟨x', xs', hx', hxs', rfl⟩,
          mapAllLeaves_cons_eq_ok.mpr ⟨y', ys', hy', hys', rfl⟩,
          zipAllLeaves_cons_eq_ok.mpr ⟨v, vs, hv, hvs, rfl⟩⟩
      · rintro ⟨_, _, hleft, hright, hzip⟩
        obtain ⟨x', xs', hx', hxs', rfl⟩ := mapAllLeaves_cons_eq_ok.mp hleft
        obtain ⟨y', ys', hy', hys', rfl⟩ := mapAllLeaves_cons_eq_ok.mp hright
        obtain ⟨v, vs, hv, hvs, rfl⟩ := zipAllLeaves_cons_eq_ok.mp hzip
        obtain ⟨z, hz, hv⟩ := (hx y v).mpr ⟨x', y', hx', hy', hv⟩
        obtain ⟨zs, hzs, hvs⟩ := (ih hxs hlength).mpr ⟨xs', ys', hxs', hys', hvs⟩
        exact ⟨z :: zs, zipAllLeaves_cons_eq_ok.mpr ⟨z, zs, hz, hzs, rfl⟩,
          mapAllLeaves_cons_eq_ok.mpr ⟨v, vs, hv, hvs, rfl⟩⟩

/-- Combining and mapping may be exchanged on an array if they may on its elements. -/
theorem exchanges_array (hg : ∀ {x w}, g x = .ok w → w.isArray = false) {xs : List Value}
    {dims : List Nat} (h : ∀ x ∈ xs, Exchanges f f' g x) : Exchanges f f' g (.array ⟨xs⟩ dims) := by
  intro y v
  by_cases hy : y.isArray = true
  · cases y with
    | array elements dims' =>
      obtain ⟨ys⟩ := elements
      constructor
      · rintro ⟨z, hz, hv⟩
        obtain ⟨⟨hdims, hlength⟩, zs, hzs, rfl⟩ := zipLeaves_array_eq_ok.mp hz
        obtain ⟨vs, hvs, rfl⟩ := mapLeaves_array_eq_ok.mp hv
        obtain ⟨xs', ys', hxs', hys', hvs⟩ := (exchanges_all h hlength).mp ⟨zs, hzs, hvs⟩
        have hlength' : xs'.length = ys'.length := by
          rw [length_of_mapAllLeaves hxs', length_of_mapAllLeaves hys', hlength]
        exact ⟨_, _, mapLeaves_array_eq_ok.mpr ⟨xs', hxs', rfl⟩,
          mapLeaves_array_eq_ok.mpr ⟨ys', hys', rfl⟩,
          zipLeaves_array_eq_ok.mpr ⟨⟨hdims, hlength'⟩, vs, hvs, rfl⟩⟩
      · rintro ⟨x', y', hx', hy', hv⟩
        obtain ⟨xs', hxs', rfl⟩ := mapLeaves_array_eq_ok.mp hx'
        obtain ⟨ys', hys', rfl⟩ := mapLeaves_array_eq_ok.mp hy'
        obtain ⟨⟨hdims, hlength'⟩, vs, hvs, rfl⟩ := zipLeaves_array_eq_ok.mp hv
        have hlength : xs.length = ys.length := by
          rw [← length_of_mapAllLeaves hxs', ← length_of_mapAllLeaves hys', hlength']
        obtain ⟨zs, hzs, hvs⟩ := (exchanges_all h hlength).mpr ⟨xs', ys', hxs', hys', hvs⟩
        exact ⟨_, zipLeaves_array_eq_ok.mpr ⟨⟨hdims, hlength⟩, zs, hzs, rfl⟩,
          mapLeaves_array_eq_ok.mpr ⟨vs, hvs, rfl⟩⟩
    | _ => cases hy
  · have hy : y.isArray = false := by simpa using hy
    rw [zipLeaves_array_leaf _ _ hy, mapLeaves_leaf hy]
    constructor
    · rintro ⟨z, hz, -⟩
      cases hz
    · rintro ⟨x', y', hx', hy', hv⟩
      obtain ⟨xs', -, rfl⟩ := mapLeaves_array_eq_ok.mp hx'
      rw [zipLeaves_array_leaf _ _ (hg hy')] at hv
      cases hv

/-- Leaves may be mapped before or after they are combined, if this is so for a single pair. -/
theorem mapLeaves_zipLeaves (hcombine : ∀ x y v, (∃ z, f x y = .ok z ∧ g z = .ok v) ↔
      ∃ x' y', g x = .ok x' ∧ g y = .ok y' ∧ f' x' y' = .ok v)
    (hf : ∀ {x y z}, f x y = .ok z → z.isArray = false)
    (hg : ∀ {x w}, g x = .ok w → w.isArray = false) (x : Value) : Exchanges f f' g x := by
  induction x using arrayInduction with
  | leaf x hx => exact exchanges_leaf hcombine hf hg hx
  | array xs dims ih => exact exchanges_array hg ih

end Leaves

/-! ## Operands -/

/-- A leaf has a negation if it is a truth value. -/
theorem notLeaf_eq_ok {x v : Value} : notLeaf x = .ok v ↔ ∃ p, x = .bool p ∧ v = .bool !p := by
  unfold notLeaf
  split
  · simp [eq_comm]
  · rename_i hother
    constructor
    · intro h
      cases h
    · rintro ⟨p, rfl, -⟩
      exact absurd rfl (hother p)

/-- Two leaves are combined if they are truth values. -/
theorem logicalLeaves_eq_ok {op : LogicalOp} {x y v : Value} : logicalLeaves op x y = .ok v ↔
    ∃ p q, x = .bool p ∧ y = .bool q ∧ v = .bool (op.apply p q) := by
  unfold logicalLeaves
  split
  · simp [eq_comm]
  · rename_i hother
    constructor
    · intro h
      cases h
    · rintro ⟨p, q, -, rfl, -⟩
      exact absurd rfl (hother q)
  · rename_i hother
    constructor
    · intro h
      cases h
    · rintro ⟨p, q, rfl, rfl, -⟩
      exact (hother p q rfl rfl).elim

/-- Two values are combined if their leaves are, in one shape. -/
theorem logical_eq_ok {op : LogicalOp} {x y v : Value} :
    logical op x y = .ok v ↔ x.zipLeaves (logicalLeaves op) y = some (.ok v) := by
  unfold logical
  cases x.zipLeaves (logicalLeaves op) y with
  | none => simp
  | some o => simp

/-- The negation of what two operands are combined to is what their negations are combined to by the
dual operator, and there is one if there is the other. -/
theorem logical_not (op : LogicalOp) (x y v : Value) :
    (∃ z, logical op x y = .ok z ∧ z.logicalNot = .ok v) ↔
      ∃ x' y', x.logicalNot = .ok x' ∧ y.logicalNot = .ok y' ∧ logical op.dual x' y' = .ok v := by
  simp only [logical_eq_ok]
  refine mapLeaves_zipLeaves ?_ ?_ ?_ x y v
  · intro x y v
    simp only [notLeaf_eq_ok, logicalLeaves_eq_ok]
    constructor
    · rintro ⟨z, ⟨p, q, rfl, rfl, rfl⟩, r, hr, rfl⟩
      cases hr
      refine ⟨_, _, ⟨p, rfl, rfl⟩, ⟨q, rfl, rfl⟩, !p, !q, rfl, rfl, ?_⟩
      rw [op.apply_dual]
    · rintro ⟨x', y', ⟨p, rfl, rfl⟩, ⟨q, rfl, rfl⟩, p', q', hp, hq, rfl⟩
      cases hp
      cases hq
      refine ⟨_, ⟨p, q, rfl, rfl, rfl⟩, _, rfl, ?_⟩
      rw [op.apply_dual]
  · intro x y z h
    obtain ⟨p, q, -, -, rfl⟩ := logicalLeaves_eq_ok.mp h
    rfl
  · intro x w h
    obtain ⟨p, -, rfl⟩ := notLeaf_eq_ok.mp h
    rfl

/-! ## Deciding operands -/

/-- An operand decides an operation if it is the deciding truth value. -/
theorem decided?_eq_some {op : LogicalOp} {x v : Value} :
    decided? op x = some v ↔ x = .bool op.deciding ∧ v = x := by
  unfold decided?
  split
  · simp [LogicalOp.deciding, eq_comm]
  · simp [LogicalOp.deciding, eq_comm]
  · rename_i hand hor
    constructor
    · intro h
      cases h
    · rintro ⟨rfl, -⟩
      cases op with
      | and => exact absurd rfl (hand rfl)
      | or => exact absurd rfl (hor rfl)

/-- An operand does not decide an operation if it is anything else. -/
theorem decided?_eq_none {op : LogicalOp} {x : Value} :
    decided? op x = none ↔ x ≠ .bool op.deciding := by
  rw [Option.eq_none_iff_forall_ne_some]
  constructor
  · rintro h rfl
    exact h _ (decided?_eq_some.mpr ⟨rfl, rfl⟩)
  · intro h v hv
    exact h (decided?_eq_some.mp hv).1

/-- An operand is a literal if its negation is the other one. -/
theorem logicalNot_eq_bool {x : Value} {p : Bool} :
    x.logicalNot = .ok (.bool p) ↔ x = .bool !p := by
  unfold logicalNot
  by_cases hx : x.isArray = true
  · cases x with
    | array elements dims =>
      obtain ⟨xs⟩ := elements
      rw [mapLeaves_array_eq_ok]
      simp
    | _ => cases hx
  · rw [mapLeaves_leaf (by simpa using hx), notLeaf_eq_ok]
    constructor
    · rintro ⟨q, rfl, hq⟩
      cases hq
      rw [Bool.not_not]
    · rintro rfl
      exact ⟨_, rfl, by rw [Bool.not_not]⟩

end Value

/-! ## Evaluation -/

/-- How a negated logical operation gets a value from operands that are evaluated by `s`: the left one
decides and the right one is not evaluated, or it does not and both are combined. -/
inductive NegatedLogical (s : Steps) (req : Request) (op : LogicalOp) (a b : Expr) (ctx : Context) :
    Value → Context → Prop where
  | decided {ctx' : Context} (ha : (s.eval req a).outcome ctx = .ok (.bool op.deciding, ctx')) :
      NegatedLogical s req op a b ctx (.bool !op.deciding) ctx'
  | combined {x y z v : Value} {ctx₁ ctx₂ : Context}
      (ha : (s.eval req a).outcome ctx = .ok (x, ctx₁)) (hx : x ≠ .bool op.deciding)
      (hb : (s.eval req b).outcome ctx₁ = .ok (y, ctx₂)) (hz : Value.logical op x y = .ok z)
      (hv : z.logicalNot = .ok v) : NegatedLogical s req op a b ctx v ctx₂

section

variable {ev : Evaluator} (hcall : ev.CallsInsensitively) {n : Nat} {req : Request} {op : LogicalOp}
  {a b : Expr} {ctx ctx' : Context} {v : Value}

include hcall

/-- A logical operation has a value if its left operand decides, or if both operands have values that
can be combined. -/
theorem outcome_logical : ((ev.steps (n + 1)).eval req (.logical a op b)).outcome ctx = .ok (v, ctx') ↔
    ∃ x ctx₁, ((ev.steps n).eval req a).outcome ctx = .ok (x, ctx₁)
      ∧ ((x = .bool op.deciding ∧ x = v ∧ ctx₁ = ctx')
        ∨ x ≠ .bool op.deciding ∧ ∃ y, ((ev.steps n).eval req b).outcome ctx₁ = .ok (y, ctx')
          ∧ Value.logical op x y = .ok v) := by
  have hcombine : ∀ x, EvalM.LogInsensitive ((ev.steps n).eval req b >>= fun y =>
      EvalM.ofOutcome (Value.logical op x y)) :=
    fun x => (hcall.eval n req b).bind fun y => .ofOutcome _
  rw [hcall.outcome_eval_succ]
  show ((ev.steps n).logical req a op b).outcome ctx = .ok (v, ctx') ↔ _
  rw [Steps.logical_eq, EvalM.LogInsensitive.outcome_bind_eq_ok]
  · refine exists_congr fun x => exists_congr fun ctx₁ => and_congr_right fun _ => ?_
    by_cases hx : x = .bool op.deciding
    · have hdecided : Value.decided? op x = some x := Value.decided?_eq_some.mpr ⟨hx, rfl⟩
      rw [hdecided]
      simp only [hx, EvalM.outcome_pure_eq_ok, ne_eq, not_true_eq_false, false_and, or_false, true_and]
    · have hdecided : Value.decided? op x = none := Value.decided?_eq_none.mpr hx
      rw [hdecided]
      simp only [hx, false_and, false_or, ne_eq, not_false_eq_true, true_and]
      rw [EvalM.LogInsensitive.outcome_bind_eq_ok fun _ => .ofOutcome _]
      simp only [EvalM.outcome_ofOutcome_eq_ok]
      constructor
      · rintro ⟨y, ctx₂, hy, hv, rfl⟩
        exact ⟨y, hy, hv⟩
      · rintro ⟨y, hy, hv⟩
        exact ⟨y, _, hy, hv, rfl⟩
  · intro x
    cases Value.decided? op x with
    | some w => exact .pure w
    | none => exact hcombine x

/-- A negation has a value if its operand has one that can be negated, one level down. -/
theorem outcome_logicalNot : ((ev.steps (n + 1)).eval req (.logicalNot a)).outcome ctx = .ok (v, ctx') ↔
    ∃ x, ((ev.steps n).eval req a).outcome ctx = .ok (x, ctx') ∧ x.logicalNot = .ok v := by
  rw [hcall.outcome_eval_succ]
  show ((ev.steps n).eval req a >>= fun x => EvalM.ofOutcome x.logicalNot).outcome ctx = _ ↔ _
  rw [EvalM.LogInsensitive.outcome_bind_eq_ok fun _ => .ofOutcome _]
  simp only [EvalM.outcome_ofOutcome_eq_ok]
  constructor
  · rintro ⟨x, ctx₁, hx, hv, rfl⟩
    exact ⟨x, hx, hv⟩
  · rintro ⟨x, hx, hv⟩
    exact ⟨x, _, hx, hv, rfl⟩

/-- The negation of an operation has a value if the left operand decides, or if both have values that
can be combined. -/
theorem outcome_not_logical :
    ((ev.steps (n + 2)).eval req (.logicalNot (.logical a op b))).outcome ctx = .ok (v, ctx') ↔
      NegatedLogical (ev.steps n) req op a b ctx v ctx' := by
  rw [outcome_logicalNot hcall]
  simp only [outcome_logical hcall]
  constructor
  · rintro ⟨z, ⟨x, ctx₁, ha, ⟨rfl, rfl, rfl⟩ | ⟨hx, y, hb, hz⟩⟩, hv⟩
    · cases hv
      exact .decided ha
    · exact .combined ha hx hb hz hv
  · rintro (ha | ⟨ha, hx, hb, hz, hv⟩)
    · exact ⟨_, ⟨_, _, ha, .inl ⟨rfl, rfl, rfl⟩⟩, rfl⟩
    · exact ⟨_, ⟨_, _, ha, .inr ⟨hx, _, hb, hz⟩⟩, hv⟩

/-- The dual operation of negated operands has a value in the same cases. -/
theorem outcome_logical_not :
    ((ev.steps (n + 2)).eval req (.logical (.logicalNot a) op.dual (.logicalNot b))).outcome ctx
        = .ok (v, ctx') ↔
      NegatedLogical (ev.steps n) req op a b ctx v ctx' := by
  have hnegated : ∀ {x x' : Value}, x.logicalNot = .ok x' →
      (x' = .bool op.dual.deciding ↔ x = .bool op.deciding) := by
    intro x x' hx
    constructor
    · rintro rfl
      rw [Value.logicalNot_eq_bool, op.deciding_dual, Bool.not_not] at hx
      exact hx
    · rintro rfl
      rw [op.deciding_dual]
      exact (Except.ok.inj hx).symm
  rw [outcome_logical hcall]
  simp only [outcome_logicalNot hcall]
  constructor
  · rintro ⟨x', ctx₁, ⟨x, ha, hx⟩, ⟨hx', rfl, rfl⟩ | ⟨hx', y', ⟨y, hb, hy⟩, hv⟩⟩
    · obtain rfl := (hnegated hx).mp hx'
      cases hx
      exact .decided ha
    · obtain ⟨z, hz, hv⟩ := (Value.logical_not op x y v).mpr ⟨x', y', hx, hy, hv⟩
      exact .combined ha (fun h => hx' ((hnegated hx).mpr h)) hb hz hv
  · rintro (ha | ⟨ha, hx, hb, hz, hv⟩)
    · refine ⟨_, _, ⟨_, ha, rfl⟩, .inl ⟨?_, rfl, rfl⟩⟩
      rw [op.deciding_dual]
    · obtain ⟨x', y', hx', hy', hv⟩ := (Value.logical_not op _ _ _).mp ⟨_, hz, hv⟩
      exact ⟨x', _, ⟨_, ha, hx'⟩, .inr ⟨fun h => hx ((hnegated hx').mp h), y', ⟨_, hb, hy'⟩, hv⟩⟩

omit hcall in
/-- The right operand does not matter, to the log either, if the left one decides. -/
theorem logical_skips {s : Steps} (log : Log)
    (ha : (s.eval req a ctx log).1 = .ok (.bool op.deciding, ctx')) (b b' : Expr) :
    s.logical req a op b ctx log = s.logical req a op b' ctx log := by
  have hdecided : Value.decided? op (.bool op.deciding) = some (.bool op.deciding) :=
    Value.decided?_eq_some.mpr ⟨rfl, rfl⟩
  have hrun : ∀ b, s.logical req a op b ctx log
      = (.ok (.bool op.deciding, ctx'), (s.eval req a ctx log).2) := by
    intro b
    rw [Steps.logical_eq, EvalM.bind_of_ok ha, hdecided]
    rfl
  rw [hrun b, hrun b']

/-- A negated operation does not evaluate its second operand where the first one decides. -/
theorem eval_not_logical_skips (ha : ((ev.steps n).eval req a).outcome ctx = .ok (.bool op.deciding, ctx'))
    (b b' : Expr) (log : Log) :
    (ev.steps (n + 2)).eval req (.logicalNot (.logical a op b)) ctx log
      = (ev.steps (n + 2)).eval req (.logicalNot (.logical a op b')) ctx log := by
  have hskip := logical_skips log.visiting.visiting
    ((hcall.eval n req a).outcome_eq ctx _ ▸ ha) b b'
  show ((ev.steps n).logical req a op b >>= fun z => EvalM.ofOutcome z.logicalNot) ctx
      log.visiting.visiting
    = ((ev.steps n).logical req a op b' >>= fun z => EvalM.ofOutcome z.logicalNot) ctx
      log.visiting.visiting
  rw [EvalM.bind_apply, EvalM.bind_apply, hskip]

/-- An operation on negated operands does not evaluate the second where the first one decides. -/
theorem eval_logical_not_skips (ha : ((ev.steps n).eval req a).outcome ctx = .ok (.bool op.deciding, ctx'))
    (b b' : Expr) (log : Log) :
    (ev.steps (n + 2)).eval req (.logical (.logicalNot a) op.dual (.logicalNot b)) ctx log
      = (ev.steps (n + 2)).eval req (.logical (.logicalNot a) op.dual (.logicalNot b')) ctx log := by
  have hnot : ((ev.steps (n + 1)).eval req (.logicalNot a)).outcome ctx
      = .ok (.bool op.dual.deciding, ctx') := by
    rw [outcome_logicalNot hcall]
    refine ⟨_, ha, ?_⟩
    rw [op.deciding_dual]
    rfl
  exact logical_skips log.visiting
    ((hcall.eval (n + 1) req (.logicalNot a)).outcome_eq ctx _ ▸ hnot) (.logicalNot b) (.logicalNot b')

/-! ### From the start of an evaluation -/

/-- Evaluation from the start is evaluation with all levels left. -/
theorem evaluate_eq_ok (e : Expr) (log : Log) : (ev.evaluate req e ctx log).1 = .ok (v, ctx') ↔
    ((ev.steps (ev.config.recursionLimit + 1)).eval req e).outcome ctx = .ok (v, ctx') := by
  rw [← (hcall.eval _ req e).outcome_eq ctx log]
  exact EvalM.reporting_eq_ok

/-- The operands of the operation are two levels down. If the limit does not allow these there is no
value. -/
theorem evaluate_not_logical (log : Log) :
    (ev.evaluate req (.logicalNot (.logical a op b)) ctx log).1 = .ok (v, ctx') ↔
      0 < ev.config.recursionLimit
        ∧ NegatedLogical (ev.steps (ev.config.recursionLimit - 1)) req op a b ctx v ctx' := by
  rw [evaluate_eq_ok hcall]
  cases ev.config.recursionLimit with
  | zero =>
    rw [outcome_logicalNot hcall]
    constructor
    · rintro ⟨x, hx, -⟩
      cases hx
    · rintro ⟨hlimit, -⟩
      cases hlimit
  | succ n =>
    rw [outcome_not_logical hcall]
    exact (and_iff_right n.succ_pos).symm

/-- An operation on negated operands has a value as a negated operation gets one from operands two
levels down, unless the limit is zero. -/
theorem evaluate_logical_not (log : Log) :
    (ev.evaluate req (.logical (.logicalNot a) op.dual (.logicalNot b)) ctx log).1 = .ok (v, ctx') ↔
      0 < ev.config.recursionLimit
        ∧ NegatedLogical (ev.steps (ev.config.recursionLimit - 1)) req op a b ctx v ctx' := by
  rw [evaluate_eq_ok hcall]
  cases ev.config.recursionLimit with
  | zero =>
    rw [outcome_logical hcall]
    constructor
    · rintro ⟨x, ctx₁, hx, -⟩
      cases hx
    · rintro ⟨hlimit, -⟩
      cases hlimit
  | succ n =>
    rw [outcome_logical_not hcall]
    exact (and_iff_right n.succ_pos).symm

/-- If the left operand has the value that decides, neither form looks at the right one. -/
theorem evaluate_skips
    (ha : ((ev.steps (ev.config.recursionLimit - 1)).eval req a).outcome ctx
      = .ok (.bool op.deciding, ctx')) (b b' : Expr) (log log' : Log) :
    ev.evaluate req (.logicalNot (.logical a op b)) ctx log
        = ev.evaluate req (.logicalNot (.logical a op b')) ctx log
      ∧ ev.evaluate req (.logical (.logicalNot a) op.dual (.logicalNot b)) ctx log'
        = ev.evaluate req (.logical (.logicalNot a) op.dual (.logicalNot b')) ctx log' := by
  have hreporting : ∀ {e e' : Expr} {log : Log},
      ev.start.eval req e ctx log = ev.start.eval req e' ctx log →
        ev.evaluate req e ctx log = ev.evaluate req e' ctx log := by
    intro e e' log h
    unfold Evaluator.evaluate EvalM.reporting
    rw [h]
  cases hlimit : ev.config.recursionLimit with
  | zero =>
    rw [hlimit] at ha
    cases ha
  | succ n =>
    have hstart : ev.start = ev.steps (n + 2) := congrArg (fun limit => ev.steps (limit + 1)) hlimit
    rw [hlimit] at ha
    rw [hstart] at hreporting
    exact ⟨hreporting (eval_not_logical_skips hcall ha b b' log),
      hreporting (eval_logical_not_skips hcall ha b b' log')⟩

end

/-- The negation of a logical operation and the dual operation of its negated operands have the same
value and leave the same context, or neither has a value. They have one if the left operand decides, or
if both operands have values that can be combined; if the left one decides, neither form looks at the
right one. -/
theorem de_morgan (ev : Evaluator) (hcall : ev.CallsInsensitively) (req : Request) (op : LogicalOp)
    (a b : Expr) (ctx : Context) (log log' : Log) :
    let inner := ev.steps (ev.config.recursionLimit - 1)
    let negated := fun b => ev.evaluate req (.logicalNot (.logical a op b))
    let dual := fun b => ev.evaluate req (.logical (.logicalNot a) op.dual (.logicalNot b))
    (∀ v ctx', (negated b ctx log).1 = .ok (v, ctx') ↔ (dual b ctx log').1 = .ok (v, ctx'))
      ∧ (∀ v ctx', (negated b ctx log).1 = .ok (v, ctx') ↔
        0 < ev.config.recursionLimit ∧ NegatedLogical inner req op a b ctx v ctx')
      ∧ ∀ ctx', (inner.eval req a).outcome ctx = .ok (.bool op.deciding, ctx') →
        ∀ b', negated b' ctx log = negated b ctx log ∧ dual b' ctx log' = dual b ctx log' := by
  intro inner negated dual
  refine ⟨?_, ?_, ?_⟩
  · intro v ctx'
    exact (evaluate_not_logical hcall log).trans (evaluate_logical_not hcall log').symm
  · intro v ctx'
    exact evaluate_not_logical hcall log
  · intro ctx' ha b'
    exact evaluate_skips hcall ha b' b log log'

/-- Where `false` decides, both forms are `true` without a look at the right operand, which is not
Boolean. Where the left operand does not decide, both forms combine two operands to `true`, and an
array and a scalar are not combined in either. -/
theorem de_morgan_literals :
    let ev : Evaluator := .alone ⟨5, .none⟩
    let req : Request := ⟨.empty, .explicit, .silent⟩
    let log : Log := .start .unlimited
    let negated := fun a b => (ev.evaluate req (.logicalNot (.logical a .and b)) .empty log).1
    let dual := fun a b =>
      (ev.evaluate req (.logical (.logicalNot a) .or (.logicalNot b)) .empty log).1
    (negated (.bool false) (.integer 7) = .ok (.bool true, .empty)
        ∧ dual (.bool false) (.integer 7) = .ok (.bool true, .empty))
      ∧ (negated (.bool true) (.bool false) = .ok (.bool true, .empty)
        ∧ dual (.bool true) (.bool false) = .ok (.bool true, .empty))
      ∧ ∀ v ctx', dual (.array .unknown false [.bool true]) (.bool true) ≠ .ok (v, ctx') := by
  intro ev req log negated dual
  have hcall : ev.CallsInsensitively := (executesBodies_alone _).callsInsensitively
  have hsame : ∀ a b v ctx', negated a b = .ok (v, ctx') ↔ dual a b = .ok (v, ctx') := fun a b =>
    (de_morgan ev hcall req .and a b .empty log log).1
  refine ⟨⟨rfl, (hsame _ _ _ _).mp rfl⟩, ⟨rfl, (hsame _ _ _ _).mp rfl⟩, fun v ctx' h => ?_⟩
  have hnegated := (hsame _ _ v ctx').mpr h
  cases hnegated

end ModelicaFold
