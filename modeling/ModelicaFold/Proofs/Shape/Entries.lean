import ModelicaFold.Proofs.Reductions.Positions

/-!
# Entries of consistent arrays

A consistent array has a leaf at every position of its sizes. What an array is made of decides its
entries: the first index of a position picks an element, and the others an entry of the element. So
consistent values with the same sizes and the same entries are the same.
-/

namespace ModelicaFold.Value

/-- A position of some sizes has an index for the first of them and is a position of the others. -/
theorem mem_positions_cons {n : Nat} {dims ks : List Nat} :
    ks ∈ positions (n :: dims) ↔ ∃ k rest, k < n ∧ rest ∈ positions dims ∧ ks = k :: rest := by
  rw [mem_positions, List.forall₂_cons_right_iff]
  constructor
  · rintro ⟨k, rest, hk, hrest, rfl⟩
    exact ⟨k, rest, hk, mem_positions.mpr hrest, rfl⟩
  · rintro ⟨k, rest, hk, hrest, rfl⟩
    exact ⟨k, rest, hk, mem_positions.mp hrest, rfl⟩

/-- The indices of a position around one dimension. -/
theorem mem_positions_frame {before after ks : List Nat} {n : Nat} :
    ks ∈ positions (before ++ n :: after)
      ↔ ∃ q i rest,
        q ∈ positions before ∧ i < n ∧ rest ∈ positions after ∧ ks = q ++ i :: rest := by
  induction before generalizing ks with
  | nil => simp [positions, eq_comm]
  | cons b before ih =>
    simp only [List.cons_append, mem_positions_cons, ih]
    constructor
    · rintro ⟨k, _, hk, ⟨q, i, rest, hq, hi, hrest, rfl⟩, rfl⟩
      exact ⟨k :: q, i, rest, ⟨k, q, hk, hq, rfl⟩, hi, hrest, rfl⟩
    · rintro ⟨_, i, rest, ⟨k, q, hk, hq, rfl⟩, hi, hrest, rfl⟩
      exact ⟨k, _, hk, ⟨q, i, rest, hq, hi, hrest, rfl⟩, rfl⟩

/-- An entry of an array is the entry of the element that the first index picks. -/
theorem entryAt?_array_cons (elements : List Value) (dims : List Nat) (k : Nat) (ks : List Nat) :
    (Value.array elements.toArray dims).entryAt? (k :: ks) = elements[k]?.bind (entryAt? ks) := rfl

/-- An Integer is consistent. -/
@[simp]
theorem consistent_integer (n : Int) : (Value.integer n).Consistent :=
  consistent_of_parts_eq_nil rfl rfl

/-- What a consistent array with a first size is made of. -/
theorem Consistent.elements {v : Value} (h : v.Consistent) {n : Nat} {inner : List Nat}
    (hdims : v.dims = n :: inner) :
    ∃ elements : List Value, v = .array elements.toArray (n :: inner) ∧ elements.length = n
      ∧ ∀ w ∈ elements, w.Consistent ∧ w.dims = inner := by
  cases v with
  | array elements dims =>
    obtain ⟨_, hsplit, hall⟩ := consistent_array.mp h
    obtain ⟨hn, rfl⟩ := List.cons.inj (hdims.symm.trans hsplit)
    refine ⟨elements.toList, ?_, by rw [Array.length_toList, hn], hall⟩
    rw [Array.toArray_toList]
    exact congrArg _ hdims
  | _ => cases hdims

/-- A consistent value has a leaf at every position. -/
theorem Consistent.exists_leaf {v : Value} (h : v.Consistent) {ks : List Nat}
    (hks : ks ∈ positions v.dims) : ∃ leaf, v.entryAt? ks = some leaf ∧ leaf.isArray = false := by
  generalize hdims : v.dims = dims at hks
  induction dims generalizing v ks with
  | nil =>
    obtain rfl := List.mem_singleton.mp hks
    exact ⟨v, rfl, h.isArray_eq_false hdims⟩
  | cons n inner ih =>
    obtain ⟨k, rest, hk, hrest, rfl⟩ := mem_positions_cons.mp hks
    obtain ⟨elements, rfl, hlength, hall⟩ := h.elements hdims
    have hk' : k < elements.length := by omega
    obtain ⟨hconsistent, hinner⟩ := hall elements[k] (List.getElem_mem hk')
    obtain ⟨leaf, hleaf, harray⟩ := ih hconsistent hinner hrest
    refine ⟨leaf, ?_, harray⟩
    rw [entryAt?_array_cons, List.getElem?_eq_getElem hk', Option.bind_some, hleaf]

/-- Consistent values of the same sizes are equal if their entries are. -/
theorem Consistent.ext {v w : Value} (hv : v.Consistent) (hw : w.Consistent)
    (hdims : v.dims = w.dims) (h : ∀ ks ∈ positions v.dims, v.entryAt? ks = w.entryAt? ks) :
    v = w := by
  generalize hsizes : v.dims = sizes at hdims h
  induction sizes generalizing v w with
  | nil => exact Option.some.inj (h [] (List.mem_singleton.mpr rfl))
  | cons n inner ih =>
    obtain ⟨vs, rfl, hvs, hvall⟩ := hv.elements hsizes
    obtain ⟨ws, rfl, hws, hwall⟩ := hw.elements hdims.symm
    suffices vs = ws by rw [this]
    refine List.ext_getElem (hvs.trans hws.symm) fun i hi hi' => ?_
    obtain ⟨hvi, hvdims⟩ := hvall _ (List.getElem_mem hi)
    obtain ⟨hwi, hwdims⟩ := hwall _ (List.getElem_mem hi')
    refine ih hvi hwi hvdims hwdims.symm fun ks hks => ?_
    have hentry := h (i :: ks) (mem_positions_cons.mpr ⟨i, ks, by omega, hks, rfl⟩)
    rwa [entryAt?_array_cons, entryAt?_array_cons, List.getElem?_eq_getElem hi,
      List.getElem?_eq_getElem hi'] at hentry

end ModelicaFold.Value
