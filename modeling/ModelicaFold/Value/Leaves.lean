import ModelicaFold.Value.Basic
import ModelicaFold.Word

/-!
# Leaves of arrays

The leaves of a nested array, in row-major order, are its elements that are no arrays. `flatten`
lists them, `mapLeaves` and `zipLeaves` work on them and keep the shape, and `fromFlat` builds an
array of a given shape.
-/

namespace ModelicaFold.Value

mutual

/-- The leaves of a value in row-major order; a value that is no array is its own leaf. -/
def flatten : Value → List Value
  | .array ⟨elements⟩ _ => flattenAll elements
  | other => [other]

def flattenAll : List Value → List Value
  | [] => []
  | v :: vs => v.flatten ++ flattenAll vs

end

mutual

/-- Applies `f` to every leaf from the first on, keeping the sizes. The first failure ends it. -/
def mapLeaves {ε : Type} (f : Value → Except ε Value) : Value → Except ε Value
  | .array ⟨elements⟩ dims =>
    (mapAllLeaves f elements).map fun mapped => .array mapped.toArray dims
  | other => f other

def mapAllLeaves {ε : Type} (f : Value → Except ε Value) : List Value → Except ε (List Value)
  | [] => .ok []
  | v :: vs =>
    match v.mapLeaves f with
    | .error e => .error e
    | .ok w =>
      match mapAllLeaves f vs with
      | .error e => .error e
      | .ok ws => .ok (w :: ws)

end

mutual

/-- Combines the leaves of two values of one shape, keeping the sizes; nothing if the shapes
differ. The first failure ends it. -/
def zipLeaves {ε : Type} (f : Value → Value → Except ε Value) :
    Value → Value → Option (Except ε Value)
  | .array ⟨xs⟩ dims, .array ⟨ys⟩ dims' =>
    if dims = dims' ∧ xs.length = ys.length then
      (zipAllLeaves f xs ys).map fun r => r.map fun zipped => .array zipped.toArray dims
    else none
  | .array _ _, _ => none
  | x, y => if y.isArray then none else some (f x y)

def zipAllLeaves {ε : Type} (f : Value → Value → Except ε Value) :
    List Value → List Value → Option (Except ε (List Value))
  | x :: xs, y :: ys =>
    match x.zipLeaves f y with
    | none => none
    | some (.error e) => some (.error e)
    | some (.ok z) =>
      match zipAllLeaves f xs ys with
      | none => none
      | some (.error e) => some (.error e)
      | some (.ok zs) => some (.ok (z :: zs))
  | _, _ => some (.ok [])

end

/-- The first `count` pieces of length `size` of a sequence; what is missing at its end makes the
last pieces shorter. -/
def chunks {α : Type} (size : Nat) : Nat → List α → List (List α)
  | 0, _ => []
  | count + 1, items => items.take size :: chunks size count (items.drop size)

/-- Nests a sequence of leaves into an array of the given sizes. -/
def fromFlat (flat : List Value) : List Nat → Value
  | [] => vector flat
  | [n] => .array flat.toArray [n]
  | n :: m :: inner =>
    let pieces := chunks (sizeProduct (m :: inner)) n flat
    .array (pieces.map fun piece => fromFlat piece (m :: inner)).toArray (n :: m :: inner)

mutual

/-- Whether any leaf is an exact zero. -/
def hasZero : Value → Bool
  | .array ⟨elements⟩ _ => anyHasZero elements
  | other => other.isZero

def anyHasZero : List Value → Bool
  | [] => false
  | v :: vs => v.hasZero || anyHasZero vs

end

/-! ## Equations -/

/-- The leaves of a list of values are those of each value, one after the other. -/
theorem flattenAll_eq_flatMap (vs : List Value) : flattenAll vs = vs.flatMap flatten := by
  induction vs with
  | nil => rfl
  | cons v vs ih => simp [flattenAll, ih]

/-- A list of values has an empty dimension if one of the values has. -/
theorem anyHasZero_eq_any (vs : List Value) : anyHasZero vs = vs.any hasZero := by
  induction vs with
  | nil => rfl
  | cons v vs ih => simp [anyHasZero, ih]

/-- A list is cut into as many chunks as asked for. -/
theorem length_chunks {α : Type} (size count : Nat) (items : List α) :
    (chunks size count items).length = count := by
  induction count generalizing items with
  | zero => rfl
  | succ count ih => simp [chunks, ih]

end ModelicaFold.Value
