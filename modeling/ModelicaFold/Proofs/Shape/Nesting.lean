import Mathlib.Data.List.Flatten
import ModelicaFold.Proofs.Shape.Leaves

/-!
# Nesting by sizes

An array is nested as some sizes tell if every array in it, down to the leaves, carries the sizes
that are left there and has as many elements as the first of them tells (`Value.HasDims`).
Consistent values are, and nothing is asked of what the leaves hold.

Such a value is determined by its sizes and its leaves (`Value.HasDims.ext`). So nesting a sequence
of leaves and listing the leaves of an array are inverse to each other, as long as the number of
leaves is a word.
-/

namespace ModelicaFold.Value

/-- A value is nested as sizes tell: without sizes it is no array, and with sizes an array that
carries them, has as many elements as the first one tells, and has elements that are nested as the
others tell. -/
def HasDims : List Nat → Value → Prop
  | [], v => v.isArray = false
  | n :: inner, v =>
    ∃ elements : List Value, v = .array elements.toArray (n :: inner) ∧ elements.length = n
      ∧ ∀ w ∈ elements, HasDims inner w

/-- A leaf that is listed is no array. -/
theorem isArray_of_mem_flatten {v leaf : Value} (h : leaf ∈ v.flatten) : leaf.isArray = false := by
  induction v using arrayInduction with
  | leaf v hv =>
    rw [flatten_leaf hv] at h
    rwa [List.mem_singleton.mp h]
  | array elements dims ih =>
    rw [flatten, flattenAll_eq_flatMap, List.mem_flatMap] at h
    obtain ⟨w, hw, hleaf⟩ := h
    exact ih w hw hleaf

/-- The leaves of an array are those of its elements, one after the other. -/
theorem flatten_array (elements : List Value) (dims : List Nat) :
    (Value.array elements.toArray dims).flatten = elements.flatMap flatten := by
  rw [flatten, flattenAll_eq_flatMap]

namespace HasDims

variable {dims : List Nat} {v w : Value}

/-- A value that is nested as sizes tell carries these sizes. -/
theorem dims_eq (h : v.HasDims dims) : v.dims = dims := by
  cases dims with
  | nil => exact dims_of_not_isArray h
  | cons n inner =>
    obtain ⟨elements, rfl, -, -⟩ := h
    rfl

/-- There are as many leaves as the sizes tell. -/
theorem length_flatten (h : v.HasDims dims) : v.flatten.length = leafCount dims := by
  induction dims generalizing v with
  | nil =>
    rw [flatten_leaf h]
    rfl
  | cons n inner ih =>
    obtain ⟨elements, rfl, rfl, hall⟩ := h
    have hlength : ∀ w ∈ elements, w.flatten.length = (fun _ => leafCount inner) w :=
      fun w hw => ih (hall w hw)
    rw [flatten_array, List.length_flatMap, List.map_congr_left hlength, leafCount_cons]
    simp

/-- The sizes and the leaves determine the value. -/
theorem ext (hv : v.HasDims dims) (hw : w.HasDims dims) (h : v.flatten = w.flatten) : v = w := by
  induction dims generalizing v w with
  | nil =>
    rw [flatten_leaf hv, flatten_leaf hw] at h
    exact (List.cons.inj h).1
  | cons n inner ih =>
    obtain ⟨vs, rfl, hvs, hvall⟩ := hv
    obtain ⟨ws, rfl, hws, hwall⟩ := hw
    rw [flatten_array, flatten_array, List.flatMap_def, List.flatMap_def] at h
    -- the leaves of one element end where those of the next begin, as all have as many
    have hlengths : (vs.map flatten).map List.length = (ws.map flatten).map List.length := by
      have hlength : ∀ us : List Value, us.length = n → (∀ u ∈ us, u.HasDims inner) →
          (us.map flatten).map List.length = List.replicate n (leafCount inner) := by
        intro us hus hall
        rw [List.map_map, ← hus, ← List.map_const']
        exact List.map_congr_left fun u hu => (hall u hu).length_flatten
      rw [hlength vs hvs hvall, hlength ws hws hwall]
    have hleaves : vs.map flatten = ws.map flatten := List.eq_iff_flatten_eq.mpr ⟨h, hlengths⟩
    suffices vs = ws by rw [this]
    refine List.ext_getElem (hvs.trans hws.symm) fun i hi hi' => ?_
    apply ih (hvall _ (List.getElem_mem hi)) (hwall _ (List.getElem_mem hi'))
    simpa [hi, hi'] using congrArg (·[i]?) hleaves

end HasDims

/-- Leaves that are nested by sizes are nested as these tell, in their order. -/
theorem hasDims_fromFlat {dims : List Nat} (hdims : dims ≠ []) {flat : List Value}
    (hflat : ∀ x ∈ flat, x.isArray = false) (hcount : flat.length = leafCount dims)
    (hword : flat.length < wordCount) :
    (fromFlat flat dims).HasDims dims ∧ (fromFlat flat dims).flatten = flat := by
  induction dims generalizing flat with
  | nil => exact absurd rfl hdims
  | cons n rest ih =>
    rw [leafCount_cons] at hcount
    cases rest with
    | nil =>
      refine ⟨⟨flat, rfl, ?_, hflat⟩, flatten_array_of_leaves hflat _⟩
      rw [hcount]
      exact Nat.mul_one n
    | cons m inner =>
      by_cases hn : n = 0
      · -- no piece is cut, whatever its length would be
        subst hn
        rw [Nat.zero_mul, List.length_eq_zero_iff] at hcount
        exact ⟨⟨[], rfl, rfl, List.forall_mem_nil _⟩, hcount.symm⟩
      · have hproduct : sizeProduct (m :: inner) = leafCount (m :: inner) :=
          sizeProduct_of_leafCount_lt hn (by rwa [leafCount_cons, ← hcount])
        have hle : leafCount (m :: inner) ≤ flat.length :=
          hcount ▸ Nat.le_mul_of_pos_left _ (Nat.pos_of_ne_zero hn)
        have hpieces : ∀ piece ∈ chunks (leafCount (m :: inner)) n flat,
            (fromFlat piece (m :: inner)).HasDims (m :: inner)
              ∧ (fromFlat piece (m :: inner)).flatten = piece := by
          intro piece hpiece
          have hlength : piece.length = leafCount (m :: inner) := length_of_mem_chunks hcount hpiece
          exact ih (List.cons_ne_nil m inner)
            (fun x hx => hflat x (mem_of_mem_chunks hpiece x hx)) hlength (by omega)
        simp only [fromFlat, hproduct]
        refine ⟨⟨_, rfl, by rw [List.length_map, length_chunks], fun w hw => ?_⟩, ?_⟩
        · obtain ⟨piece, hpiece, rfl⟩ := List.mem_map.mp hw
          exact (hpieces piece hpiece).1
        · rw [flatten_array, List.flatMap_map,
            List.flatMap_congr fun piece hpiece => (hpieces piece hpiece).2, List.flatMap_id',
            flatten_chunks hcount]

/-- An array is nested again from its leaves. -/
theorem HasDims.fromFlat_flatten {dims : List Nat} (hdims : dims ≠ []) {v : Value}
    (h : v.HasDims dims) (hword : v.flatten.length < wordCount) :
    fromFlat v.flatten dims = v := by
  obtain ⟨hshape, hleaves⟩ := hasDims_fromFlat hdims (fun _ hx => isArray_of_mem_flatten hx)
    h.length_flatten hword
  exact hshape.ext h hleaves

end ModelicaFold.Value
