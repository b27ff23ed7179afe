import ModelicaFold.Eval.Step

/-!
# Direct accesses

The items of a table, the sizes of an array and the characters of a text may be read at offsets that
are not tested where they are read, because tests made before are to rule out any that is out of
bounds. An `Access` is a computation with such reads. It has no outcome at all once it leaves its
bounds; it is in bounds if it has the outcome of a computation that reads nothing directly
(`InBounds`). There is a lemma for each way to combine accesses.

Where an evaluation makes an access, a `Fault` says what happens when it leaves its bounds.
-/

namespace ModelicaFold

/-- A computation that may leave its bounds. -/
abbrev Access (α : Type) : Type := ExceptT Failure Option α

namespace Access

variable {α β : Type}

/-- A computation that reads nothing directly. -/
def of (o : Outcome α) : Access α := ExceptT.mk (some o)

/-- An access beyond the bounds. -/
def beyond : Access α := ExceptT.mk none

/-- The item at an offset. -/
def item (items : List α) (i : Nat) : Access α :=
  match items[i]? with
  | some a => pure a
  | none => beyond

/-- The items from an offset to another one. -/
def slice (items : List α) (start stop : Nat) : Access (List α) :=
  if start ≤ stop ∧ stop ≤ items.length then pure ((items.take stop).drop start) else beyond

/-- The items with another one at an offset. -/
def set (items : List α) (i : Nat) (a : α) : Access (List α) :=
  if i < items.length then pure (items.set i a) else beyond

/-- The quotient of two numbers of items. -/
def quotient [Div α] [OfNat α 0] [DecidableEq α] (n m : α) : Access α :=
  if m = 0 then beyond else pure (n / m)

/-- The remainder of two numbers of items. -/
def remainder (n m : Nat) : Access Nat := if m = 0 then beyond else pure (n % m)

/-- An item is read at an offset where the list has one. -/
theorem item_eq {items : List α} {i : Nat} {a : α} (h : items[i]? = some a) :
    item items i = pure a := by
  rw [item, h]

/-- A slice is cut out if its bounds are in order and within the list. -/
theorem slice_eq {items : List α} {start stop : Nat} (h : start ≤ stop) (h' : stop ≤ items.length) :
    slice items start stop = pure ((items.take stop).drop start) :=
  if_pos ⟨h, h'⟩

/-- The items from an offset on. -/
theorem slice_length {items : List α} {start : Nat} (h : start ≤ items.length) :
    slice items start items.length = pure (items.drop start) := by
  rw [slice_eq h (Nat.le_refl _), List.take_length]

/-- An item is replaced at an offset within the list. -/
theorem set_eq {items : List α} {i : Nat} (h : i < items.length) (a : α) :
    set items i a = pure (items.set i a) :=
  if_pos h

/-- A quotient is taken of a divisor other than zero. -/
theorem quotient_eq [Div α] [OfNat α 0] [DecidableEq α] {n m : α} (h : m ≠ 0) :
    quotient n m = pure (n / m) :=
  if_neg h

/-- A remainder is taken of a divisor other than zero. -/
theorem remainder_eq {n m : Nat} (h : m ≠ 0) : remainder n m = pure (n % m) := if_neg h

/-! ## Accesses in bounds -/

/-- An access stays in its bounds and has the outcome of a computation that reads nothing
directly. -/
def InBounds (x : Access α) (o : Outcome α) : Prop := x = of o

/-- A computation without direct reads is in bounds. -/
theorem inBounds_of (o : Outcome α) : InBounds (of o) o := rfl

/-- A value is in bounds. -/
theorem inBounds_pure (a : α) : InBounds (pure a) (pure a) := rfl

/-- Reading an item is in bounds where the list has one. -/
theorem inBounds_item {items : List α} {i : Nat} {a : α} (h : items[i]? = some a) :
    InBounds (item items i) (pure a) :=
  item_eq h

namespace InBounds

/-- What follows an access may rely on the outcome of it. -/
theorem bind {x : Access α} {o : Outcome α} (hx : InBounds x o) {k : α → Access β}
    {l : α → Outcome β} (hk : ∀ a, o = .ok a → InBounds (k a) (l a)) :
    InBounds (x >>= k) (o >>= l) := by
  rw [InBounds, hx]
  cases o with
  | error f => rfl
  | ok a => exact hk a rfl

/-- What is read does not show in the outcome that is expected. -/
theorem read {x : Access α} {a : α} (hx : InBounds x (pure a)) {k : α → Access β} {o : Outcome β}
    (hk : InBounds (k a) o) : InBounds (x >>= k) o := by
  rw [InBounds, hx]
  exact hk

/-- A choice is in bounds if each branch is in bounds where it is taken. -/
theorem ite {c : Prop} [Decidable c] {x y : Access α} {o p : Outcome α} (hx : c → InBounds x o)
    (hy : ¬c → InBounds y p) : InBounds (if c then x else y) (if c then o else p) := by
  by_cases h : c
  · rw [if_pos h, if_pos h]
    exact hx h
  · rw [if_neg h, if_neg h]
    exact hy h

/-- Mapping a list is in bounds if it is for each item. -/
theorem mapM {f : α → Access β} {g : α → Outcome β} {items : List α}
    (h : ∀ a ∈ items, InBounds (f a) (g a)) : InBounds (items.mapM f) (items.mapM g) := by
  induction items with
  | nil => rfl
  | cons a items ih =>
    obtain ⟨ha, hitems⟩ := List.forall_mem_cons.mp h
    rw [List.mapM_cons, List.mapM_cons]
    exact ha.bind fun b _ => (ih hitems).bind fun bs _ => inBounds_pure _

/-- Reading something for each item. -/
theorem mapM_pure {f : α → Access β} {g : α → β} {items : List α}
    (h : ∀ a ∈ items, InBounds (f a) (pure (g a))) :
    InBounds (items.mapM f) (pure (items.map g)) := by
  have hmap := mapM (g := fun a => pure (g a)) h
  rwa [List.mapM_pure] at hmap

/-- Reading the results that are expected, one for each offset. -/
theorem mapM_range {f : Nat → Access β} {results : List β}
    (h : ∀ i b, results[i]? = some b → InBounds (f i) (pure b)) :
    InBounds ((List.range results.length).mapM f) (pure results) := by
  induction results generalizing f with
  | nil => rfl
  | cons b results ih =>
    rw [List.length_cons, List.range_succ_eq_map, List.mapM_cons, List.mapM_map]
    refine .read (h 0 b rfl) (.read (ih fun i b hb => ?_) rfl)
    exact h (i + 1) b hb

/-- Running through a number of offsets is in bounds if each of them gives the result that stands
there. -/
theorem mapM_range_of_length {f : Nat → Access β} {results : List β} {n : Nat}
    (hn : results.length = n) (h : ∀ i b, results[i]? = some b → InBounds (f i) (pure b)) :
    InBounds ((List.range n).mapM f) (pure results) :=
  hn ▸ mapM_range h

end InBounds

end Access

/-! ## Accesses in an evaluation -/

/-- What happens when an access leaves its bounds. -/
abbrev Fault := (α : Type) → EvalM α

/-- An access as a step of an evaluation. -/
def EvalM.ofAccess {α : Type} (fault : Fault) (x : Access α) : EvalM α :=
  match x.run with
  | some o => EvalM.ofOutcome o
  | none => fault α

/-- In bounds there is no fault. -/
theorem Access.InBounds.ofAccess_eq {α : Type} {x : Access α} {o : Outcome α} (h : x.InBounds o)
    (fault : Fault) : EvalM.ofAccess fault x = EvalM.ofOutcome o := by
  rw [h]
  rfl

end ModelicaFold
