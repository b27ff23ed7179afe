import ModelicaFold.Value.Compare
import Mathlib.Logic.ExistsUnique

/-!
# The order of discrete values

Integers, Booleans, strings and enumeration literals are compared by a key. A literal has the key of
the Integer at its position, so that the two are in one class. The relations of two values are those
of one linear order of keys, if the keys are in one class (`Value.ordered_of_sameClass`); otherwise
none of them is defined (`Value.relate?_eq_none`).
-/

namespace ModelicaFold

namespace RelationOp

/-- Less holds of the ordering `lt` alone. -/
theorem holds_less {o : Ordering} : less.holds o = true ↔ o = .lt := beq_iff_eq

/-- Less or equal holds of the orderings `lt` and `eq`. -/
theorem holds_lessEq {o : Ordering} : lessEq.holds o = true ↔ o.isLE := by
  cases o <;> decide

/-- Every order answers one of `<`, `==` and `>`. -/
theorem exactlyOne_holds (o : Ordering) :
    ∃! op, op ∈ [less, equal, greater] ∧ op.holds o = true := by
  cases o
  · exact ⟨.less, by decide, fun op => by cases op <;> decide⟩
  · exact ⟨.equal, by decide, fun op => by cases op <;> decide⟩
  · exact ⟨.greater, by decide, fun op => by cases op <;> decide⟩

end RelationOp

namespace Value

/-- What a discrete value is compared by. -/
inductive Key where
  | position (n : Int)
  | truth (b : Bool)
  | text (s : String)

/-- The classes of discrete values; only the values of one class are compared. -/
inductive OrderClass where
  | positions
  | truths
  | texts
deriving DecidableEq

namespace Key

def orderClass : Key → OrderClass
  | position _ => .positions
  | truth _ => .truths
  | text _ => .texts

/-- The order of two keys, if they are in one class. -/
def order? : Key → Key → Option Ordering
  | position a, position b => some (compare a b)
  | truth a, truth b => some (compare a b)
  | text a, text b => some (compare a b)
  | _, _ => none

variable {k l m : Key} {o o' : Ordering}

/-- Keys of one class are ordered. -/
theorem exists_order? (h : k.orderClass = l.orderClass) : ∃ o, k.order? l = some o := by
  cases k <;> cases l <;> first | exact ⟨_, rfl⟩ | cases h

/-- A key is equal to itself in its order. -/
theorem order?_self (k : Key) : k.order? k = some .eq := by
  cases k <;> exact congrArg some Std.ReflCmp.compare_self

/-- The order of two keys from the other side. -/
theorem order?_swap (k l : Key) : l.order? k = (k.order? l).map Ordering.swap := by
  cases k <;> cases l <;> first | rfl | exact congrArg some Std.OrientedCmp.eq_swap

/-- The order of keys is transitive, and strict where the second step is. -/
theorem order?_trans (h : k.order? l = some o) (h' : l.order? m = some o') :
    ∃ o'', k.order? m = some o'' ∧ (o.isLE → o'.isLE → o''.isLE)
      ∧ (o.isLE → o' = .lt → o'' = .lt) := by
  cases k <;> cases l <;> cases h <;> cases m <;> cases h'
  all_goals exact ⟨_, rfl, Std.TransCmp.isLE_trans, Std.TransCmp.lt_of_isLE_of_lt⟩

end Key

/-- What a value is compared by, if it is an Integer, a Boolean, a string or an enumeration literal.
-/
def key? : Value → Option Key
  | .integer n => some (.position n)
  | .enumeration _ i => some (.position i)
  | .bool b => some (.truth b)
  | .string s => some (.text s)
  | _ => none

/-- Integers, Booleans, strings and enumeration literals. -/
def Discrete (v : Value) : Prop := v.key?.isSome

instance : DecidablePred Discrete := fun v => inferInstanceAs (Decidable (v.key?.isSome = true))

/-- The class of a discrete value. -/
def orderClass? (v : Value) : Option OrderClass := v.key?.map Key.orderClass

/-- A relation is defined between two values, and holds. -/
def Holds (v : Value) (op : RelationOp) (w : Value) : Prop := relate? v op w = some true

instance (v : Value) (op : RelationOp) (w : Value) : Decidable (v.Holds op w) :=
  inferInstanceAs (Decidable (relate? v op w = some true))

/-- All relations between two values are defined. -/
def Comparable (v w : Value) : Prop := ∀ op, (relate? v op w).isSome

/-- The six relations between two values are all defined and fit together. -/
structure Ordered (v w : Value) : Prop where
  comparable : v.Comparable w
  exactlyOne : ∃! op, op ∈ [RelationOp.less, .equal, .greater] ∧ v.Holds op w
  lessEq : v.Holds .lessEq w ↔ v.Holds .less w ∨ v.Holds .equal w
  greaterEq : v.Holds .greaterEq w ↔ v.Holds .greater w ∨ v.Holds .equal w
  notEqual : v.Holds .notEqual w ↔ ¬v.Holds .equal w
  swapped : v.Holds .greater w ↔ w.Holds .less v

variable {u v w : Value} {k l : Key} {op : RelationOp} {o : Ordering} {b : Bool}

/-- A value in the class of a discrete value is discrete. -/
theorem Discrete.of_orderClass? (hv : v.Discrete) (h : v.orderClass? = w.orderClass?) :
    w.Discrete := by
  have hsome := congrArg Option.isSome h
  rw [orderClass?, orderClass?, Option.isSome_map, Option.isSome_map] at hsome
  exact hsome.symm.trans hv

/-- Values that are compared are in one class, unless they are both in none. -/
theorem orderClass?_of_order? (h : order? v w = some o) : v.orderClass? = w.orderClass? := by
  unfold order? at h
  split at h <;> first | rfl | cases h

/-- Values of which a relation is defined are in one class. -/
theorem orderClass?_of_relate? (h : relate? v op w = some b) :
    v.orderClass? = w.orderClass? := by
  cases op with
  | greater | greaterEq =>
    obtain ⟨o, ho, -⟩ := Option.map_eq_some_iff.mp h
    exact (orderClass?_of_order? ho).symm
  | _ =>
    obtain ⟨o, ho, -⟩ := Option.map_eq_some_iff.mp h
    exact orderClass?_of_order? ho

/-- No relation is defined of values in different classes. -/
theorem relate?_eq_none (h : v.orderClass? ≠ w.orderClass?) (op : RelationOp) :
    relate? v op w = none :=
  Option.eq_none_iff_forall_ne_some.mpr fun _ hb => h (orderClass?_of_relate? hb)

/-- Values are ordered as their keys are. -/
theorem order?_of_key? (hv : v.key? = some k) (hw : w.key? = some l) :
    order? v w = k.order? l := by
  cases v <;> cases hv <;> cases w <;> cases hw <;> rfl

/-- The relations of two discrete values are those of the order of their keys. -/
theorem relate?_of_key? (hv : v.key? = some k) (hw : w.key? = some l) (op : RelationOp) :
    relate? v op w = (k.order? l).map op.holds := by
  have hforth := order?_of_key? hv hw
  have hback := (order?_of_key? hw hv).trans (Key.order?_swap k l)
  cases op with
  | greater | greaterEq =>
    change (order? w v).map _ = _
    rw [hback, Option.map_map]
    congr 1
    funext o
    cases o <;> rfl
  | _ => exact congrArg (Option.map _) hforth

/-- Integers are related by the order of the integers. -/
theorem relate?_integer (a b : Int) (op : RelationOp) :
    relate? (.integer a) op (.integer b) = some (op.holds (compare a b)) :=
  relate?_of_key? (k := .position a) (l := .position b) rfl rfl op

/-! ## The laws of relations -/

/-- Two discrete values of one class have keys with an order. -/
theorem exists_key? (hv : v.Discrete) (h : v.orderClass? = w.orderClass?) :
    ∃ k l o, v.key? = some k ∧ w.key? = some l ∧ k.order? l = some o := by
  obtain ⟨k, hk⟩ := Option.isSome_iff_exists.mp hv
  obtain ⟨l, hl⟩ := Option.isSome_iff_exists.mp (hv.of_orderClass? h)
  rw [orderClass?, orderClass?, hk, hl] at h
  obtain ⟨o, ho⟩ := Key.exists_order? (Option.some.inj h)
  exact ⟨k, l, o, hk, hl, ho⟩

/-- A relation holds of two values as it holds of the ordering of their keys. -/
theorem holds_iff (hv : v.key? = some k) (hw : w.key? = some l) (ho : k.order? l = some o)
    (op : RelationOp) : v.Holds op w ↔ op.holds o = true := by
  rw [Holds, relate?_of_key? hv hw, ho, Option.map_some, Option.some.injEq]

/-- The relations between two values of one class, from either side. -/
theorem ordered_of_sameClass (hv : v.Discrete) (h : v.orderClass? = w.orderClass?) :
    v.Ordered w := by
  obtain ⟨k, l, o, hk, hl, ho⟩ := exists_key? hv h
  have hback : l.order? k = some o.swap := by
    rw [Key.order?_swap, ho]
    rfl
  refine ⟨fun op => ?_, ?_, ?_, ?_, ?_, ?_⟩
  · rw [relate?_of_key? hk hl, ho]
    rfl
  all_goals simp only [holds_iff hk hl ho, holds_iff hl hk hback]
  · exact RelationOp.exactlyOne_holds o
  all_goals cases o <;> decide

/-- The values that a discrete value can be compared with are those of its class. -/
theorem comparable_iff (hv : v.Discrete) : v.Comparable w ↔ v.orderClass? = w.orderClass? := by
  constructor
  · intro h
    obtain ⟨b, hb⟩ := Option.isSome_iff_exists.mp (h .equal)
    exact orderClass?_of_relate? hb
  · exact fun h => (ordered_of_sameClass hv h).comparable

/-- The orders between three values of one class. -/
theorem exists_orders (hu : u.Discrete) (h : u.orderClass? = v.orderClass?)
    (h' : v.orderClass? = w.orderClass?) :
    ∃ o o' o'', (∀ op : RelationOp, u.Holds op v ↔ op.holds o)
      ∧ (∀ op : RelationOp, v.Holds op w ↔ op.holds o')
      ∧ (∀ op : RelationOp, u.Holds op w ↔ op.holds o'')
      ∧ (o.isLE → o'.isLE → o''.isLE) ∧ (o.isLE → o' = .lt → o'' = .lt) := by
  obtain ⟨k, l, o, hk, hl, ho⟩ := exists_key? hu h
  obtain ⟨l', m, o', hl', hm, ho'⟩ := exists_key? (hu.of_orderClass? h) h'
  cases hl.symm.trans hl'
  obtain ⟨o'', ho'', hlessEq, hless⟩ := Key.order?_trans ho ho'
  exact ⟨o, o', o'', holds_iff hk hl ho, holds_iff hl hm ho', holds_iff hk hm ho'', hlessEq, hless⟩

namespace Holds

/-- Less or equal is transitive. -/
theorem lessEq_trans (hu : u.Discrete) (h : u.Holds .lessEq v) (h' : v.Holds .lessEq w) :
    u.Holds .lessEq w := by
  obtain ⟨o, o', o'', huv, hvw, huw, hlessEq, -⟩ :=
    exists_orders hu (orderClass?_of_relate? h) (orderClass?_of_relate? h')
  rw [huv, RelationOp.holds_lessEq] at h
  rw [hvw, RelationOp.holds_lessEq] at h'
  rw [huw, RelationOp.holds_lessEq]
  exact hlessEq h h'

/-- What is less or equal to a value is less than what that value is less than. -/
theorem less_of_lessEq_of_less (hu : u.Discrete) (h : u.Holds .lessEq v) (h' : v.Holds .less w) :
    u.Holds .less w := by
  obtain ⟨o, o', o'', huv, hvw, huw, -, hless⟩ :=
    exists_orders hu (orderClass?_of_relate? h) (orderClass?_of_relate? h')
  rw [huv, RelationOp.holds_lessEq] at h
  rw [hvw, RelationOp.holds_less] at h'
  rw [huw, RelationOp.holds_less]
  exact hless h h'

/-- Less is transitive. -/
theorem less_trans (hu : u.Discrete) (h : u.Holds .less v) (h' : v.Holds .less w) :
    u.Holds .less w :=
  less_of_lessEq_of_less hu
    ((ordered_of_sameClass hu (orderClass?_of_relate? h)).lessEq.mpr (.inl h)) h'

/-- Of two values in one class the first is less, or the second is less or equal. -/
theorem lessEq_of_not_less (hu : u.Discrete) (h : u.orderClass? = v.orderClass?)
    (hless : ¬u.Holds .less v) : v.Holds .lessEq u := by
  have hback := ordered_of_sameClass (hu.of_orderClass? h) h.symm
  obtain ⟨op, ⟨hop, hholds⟩, -⟩ := hback.exactlyOne
  simp only [List.mem_cons, List.not_mem_nil, or_false] at hop
  rcases hop with rfl | rfl | rfl
  · exact hback.lessEq.mpr (.inl hholds)
  · exact hback.lessEq.mpr (.inr hholds)
  · exact absurd (hback.swapped.mp hholds) hless

/-- If one value is less than another, a third one is between them or beside them. -/
theorem less_or_less (hu : u.Discrete) (h : u.Holds .less w) (hv : u.orderClass? = v.orderClass?) :
    u.Holds .less v ∨ v.Holds .less w := by
  by_cases hless : u.Holds .less v
  · exact .inl hless
  · exact .inr
      (less_of_lessEq_of_less (hu.of_orderClass? hv) (lessEq_of_not_less hu hv hless) h)

end Holds

/-- No discrete value is less than itself, as it is equal to itself. -/
theorem not_holds_less_self (hv : v.Discrete) : ¬v.Holds .less v := by
  obtain ⟨k, hk⟩ := Option.isSome_iff_exists.mp hv
  rw [holds_iff hk hk k.order?_self]
  decide

end Value

end ModelicaFold
