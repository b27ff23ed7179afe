import ModelicaFold.Proofs.Shape.Reductions
import Mathlib.Data.List.GetD
import Mathlib.Data.List.Nodup

/-!
# Positions in nested sequences

A position of a nested array or list has one index per level, the outermost first and counted from
zero. `positions` lists those of a given shape with the last index varying fastest, and a value that
is tabulated over a shape has a known entry at each of them. Nesting a flat sequence tabulates it,
and reversing the flat sequence mirrors every index.
-/

namespace ModelicaFold

open Value (leafCount)

/-- The positions of a shape, the last index varying fastest. -/
def positions : List Nat → List (List Nat)
  | [] => [[]]
  | n :: rest => (List.range n).flatMap fun k => (positions rest).map (k :: ·)

/-- The position of a shape that is as far from the last index of every level as the given one is
from the first. -/
def mirrored (shape ks : List Nat) : List Nat := List.zipWith (fun n k => n - 1 - k) shape ks

namespace Value

/-- The nested value with the given entry at each position of a shape; `make` builds each level. -/
def tabulate (make : List Value → Value) : List Nat → (List Nat → Value) → Value
  | [], entry => entry []
  | n :: rest, entry =>
    make ((List.range n).map fun k => tabulate make rest fun ks => entry (k :: ks))

/-- The entry of nested arrays and lists at a position. -/
def entryAt? : List Nat → Value → Option Value
  | [], v => some v
  | k :: ks, v => v.elementList[k]?.bind (entryAt? ks)

end Value

/-! ## Listing positions -/

/-- The positions of a shape are the lists of indices below its sizes. -/
theorem mem_positions {shape ks : List Nat} :
    ks ∈ positions shape ↔ List.Forall₂ (· < ·) ks shape := by
  induction shape generalizing ks with
  | nil => simp [positions]
  | cons n rest ih =>
    simp only [positions, List.mem_flatMap, List.mem_range, List.mem_map,
      List.forall₂_cons_right_iff, ih]
    constructor
    · rintro ⟨k, hk, ks', hks, rfl⟩
      exact ⟨k, ks', hk, hks, rfl⟩
    · rintro ⟨k, ks', hk, hks, rfl⟩
      exact ⟨k, hk, ks', hks, rfl⟩

/-- There are as many positions as leaves. -/
theorem length_positions (shape : List Nat) : (positions shape).length = leafCount shape := by
  induction shape with
  | nil => rfl
  | cons n rest ih =>
    rw [positions, List.length_flatMap, Value.leafCount_cons]
    simp [ih]

/-- The positions of a single level. -/
theorem positions_singleton (n : Nat) : positions [n] = (List.range n).map fun k => [k] := by
  rw [List.map_eq_flatMap]
  rfl

/-- No position is listed twice. -/
theorem nodup_positions (shape : List Nat) : (positions shape).Nodup := by
  induction shape with
  | nil => exact List.nodup_singleton []
  | cons n rest ih =>
    rw [positions, List.nodup_flatMap]
    constructor
    · intro k _
      exact ih.map (List.cons_injective)
    · refine List.nodup_range.imp fun {j k} hjk => ?_
      intro ks hj hk
      obtain ⟨_, _, rfl⟩ := List.mem_map.mp hj
      obtain ⟨_, _, h⟩ := List.mem_map.mp hk
      exact hjk (List.cons.inj h).1.symm

/-- The index of an innermost level added at the end varies faster than all others. -/
theorem positions_append_singleton (shape : List Nat) (n : Nat) :
    positions (shape ++ [n])
      = (positions shape).flatMap fun ks => (List.range n).map fun k => ks ++ [k] := by
  induction shape with
  | nil => simp [positions_singleton, positions]
  | cons m rest ih =>
    simp only [List.cons_append, positions, ih, List.map_flatMap, List.flatMap_assoc,
      List.flatMap_map, List.map_map]
    rfl

/-- From the last position to the first every index is mirrored. -/
theorem reverse_positions (shape : List Nat) :
    (positions shape).reverse = (positions shape).map (mirrored shape) := by
  induction shape with
  | nil => rfl
  | cons n rest ih =>
    have hrange : (List.range n).reverse = (List.range n).map fun k => n - 1 - k := by
      apply List.ext_getElem
      · simp
      · intro k h₁ h₂
        simp
    rw [positions, List.reverse_flatMap, hrange, List.flatMap_map, List.map_flatMap]
    congr 1
    funext k
    rw [Function.comp_apply, ← List.map_reverse, ih, List.map_map, List.map_map]
    rfl

/-- One value for every position is a function of the position. -/
theorem exists_map_positions {α : Type} {shape : List Nat} {values : List α}
    (h : values.length = (positions shape).length) (hsome : positions shape ≠ []) :
    ∃ f : List Nat → α, values = (positions shape).map f := by
  have : Nonempty α := by
    cases values with
    | nil => exact absurd (List.length_eq_zero_iff.mp h.symm) hsome
    | cons a _ => exact ⟨a⟩
  let a := Classical.choice this
  refine ⟨fun ks => values.getD ((positions shape).idxOf ks) a, ?_⟩
  apply List.ext_getElem
  · rw [List.length_map, h]
  · intro i h₁ h₂
    have hi : i < (positions shape).length := h ▸ h₁
    rw [List.getElem_map, (nodup_positions shape).idxOf_getElem i hi,
      List.getD_eq_getElem _ _ h₁]

/-! ## Tabulated values -/

namespace Value

variable {make : List Value → Value}

/-- A tabulated value has the tabulated entries. -/
theorem entryAt?_tabulate (hmake : ∀ vs, (make vs).elementList = vs) {shape ks : List Nat}
    (hks : ks ∈ positions shape) (entry : List Nat → Value) :
    (tabulate make shape entry).entryAt? ks = some (entry ks) := by
  induction shape generalizing ks entry with
  | nil =>
    obtain rfl := List.mem_singleton.mp hks
    rfl
  | cons n rest ih =>
    obtain ⟨k, ks', hk, hks', rfl⟩ := List.forall₂_cons_right_iff.mp (mem_positions.mp hks)
    rw [tabulate, entryAt?, hmake]
    simp only [List.getElem?_map, List.getElem?_range hk, Option.map_some, Option.bind_some]
    exact ih (mem_positions.mpr hks') fun ks => entry (k :: ks)

/-- The pieces of sequences of one length put after each other are these sequences. -/
theorem chunks_flatMap {α β : Type} {size : Nat} {f : α → List β} (hsize : ∀ a, (f a).length = size)
    (items : List α) : chunks size items.length (items.flatMap f) = items.map f := by
  induction items with
  | nil => rfl
  | cons a items ih =>
    rw [List.length_cons, chunks, List.flatMap_cons, List.take_left' (hsize a),
      List.drop_left' (hsize a), ih, List.map_cons]

/-- Nesting the values of all positions, in their order, tabulates them. -/
theorem nest_positions {shape : List Nat} (hshape : shape ≠ []) (hpos : 0 < leafCount shape)
    (hword : leafCount shape.tail < wordCount) (entry : List Nat → Value) :
    nest make ((positions shape).map entry) shape = tabulate make shape entry := by
  induction shape generalizing entry with
  | nil => exact absurd rfl hshape
  | cons n rest ih =>
    rw [leafCount_cons] at hpos
    have hn : 0 < n := Nat.pos_of_mul_pos_right hpos
    have hrest : 0 < leafCount rest := Nat.pos_of_mul_pos_left hpos
    cases rest with
    | nil =>
      rw [positions_singleton, List.map_map]
      rfl
    | cons m inner =>
      have hm : 0 < m := Nat.pos_of_mul_pos_right (leafCount_cons m inner ▸ hrest)
      have hinner : leafCount inner < wordCount :=
        Nat.lt_of_le_of_lt (Nat.le_mul_of_pos_left _ hm) hword
      have hsize : sizeProduct (m :: inner) = leafCount (m :: inner) := sizeProduct_of_lt hword
      have hpieces : chunks (leafCount (m :: inner)) n ((positions (n :: m :: inner)).map entry)
          = (List.range n).map fun k => (positions (m :: inner)).map fun ks => entry (k :: ks) := by
        rw [positions, List.map_flatMap]
        have hlength : ∀ k, ((positions (m :: inner)).map fun ks => entry (k :: ks)).length
            = leafCount (m :: inner) := fun k => by rw [List.length_map, length_positions]
        have hchunks := chunks_flatMap hlength (List.range n)
        rw [List.length_range] at hchunks
        simpa only [List.map_map, Function.comp_def] using hchunks
      simp only [nest, hsize]
      rw [if_neg (by omega), hpieces, List.map_map, tabulate]
      congr 2
      funext k
      exact ih (List.cons_ne_nil m inner) hrest hinner fun ks => entry (k :: ks)

end Value

end ModelicaFold
