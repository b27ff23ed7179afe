import Mathlib.Algebra.GroupWithZero.Nat
import ModelicaFold.Eval.Construct
import ModelicaFold.Proofs.Runs.Success
import ModelicaFold.Proofs.Shape.Leaves

/-!
# Transposed and concatenated arrays

Both rearrange the elements of arrays below the outermost level. The sizes of a concatenation depend
on the sizes of its parts alone (`joinDims`); so the slices that are concatenated one level further
down all get the same sizes.
-/

namespace ModelicaFold

namespace Value

/-! ## Transposition -/

/-- Every column has one item of each row. -/
theorem columns?_eq_some {rows columns : List (List Value)} {count : Nat}
    (h : columns? rows count = some columns) :
    columns.length = count
      ∧ ∀ column ∈ columns, column.length = rows.length
        ∧ ∀ v ∈ column, ∃ row ∈ rows, v ∈ row := by
  induction count generalizing rows columns with
  | zero =>
    cases h
    exact ⟨rfl, fun column hcolumn => absurd hcolumn List.not_mem_nil⟩
  | succ count ih =>
    simp only [columns?, Option.bind_eq_bind, Option.bind_eq_some_iff, Option.pure_def,
      Option.some.injEq] at h
    obtain ⟨first, hfirst, others, hothers, rfl⟩ := h
    have hheads := mapM_eq_some.mp hfirst
    obtain ⟨hlength, hcolumns⟩ := ih hothers
    refine ⟨congrArg (· + 1) hlength, fun column hcolumn => ?_⟩
    rcases List.mem_cons.mp hcolumn with rfl | hcolumn
    · refine ⟨hheads.length_eq.symm, fun v hv => ?_⟩
      obtain ⟨row, hrow, hhead⟩ := exists_mem_of_forall₂ hheads v hv
      exact ⟨row, hrow, List.mem_of_head? hhead⟩
    · obtain ⟨hlength, hmem⟩ := hcolumns column hcolumn
      refine ⟨by rw [hlength, List.length_map], fun v hv => ?_⟩
      obtain ⟨_, htail, hv⟩ := hmem v hv
      obtain ⟨row, hrow, rfl⟩ := List.mem_map.mp htail
      exact ⟨row, hrow, List.mem_of_mem_tail hv⟩

/-- The rows of an array of arrays, one for each element. -/
theorem rows?_eq_some {elements : Array Value} {dims : List Nat} {rows : List (List Value)}
    (h : rows? (.array elements dims) = some rows) :
    rows.length = elements.size
      ∧ ∀ row ∈ rows, ∃ inner, Value.array row.toArray inner ∈ elements.toList := by
  have hrows := mapM_eq_some.mp h
  refine ⟨by rw [← hrows.length_eq, Array.length_toList], fun row hrow => ?_⟩
  obtain ⟨v, hv, hvrow⟩ := exists_mem_of_forall₂ hrows row hrow
  cases v with
  | array elements' inner =>
    cases hvrow
    exact ⟨inner, hv⟩
  | _ => cases hvrow

/-- A transposed array is consistent. -/
theorem Consistent.transpose? {v w : Value} (hv : v.Consistent) (h : v.transpose? = some w) :
    w.Consistent := by
  simp only [Value.transpose?] at h
  split at h
  · rename_i rows n m inner hrows hdims
    obtain ⟨columns, hcolumns, rfl⟩ := Option.map_eq_some_iff.mp h
    cases v with
    | array elements dims =>
      obtain ⟨_, hsplit, hall⟩ := consistent_array.mp hv
      obtain ⟨rfl, rfl⟩ := List.cons.inj (hdims.symm.trans hsplit)
      obtain ⟨hrowsLength, hrowsMem⟩ := rows?_eq_some hrows
      obtain ⟨hcount, hcolumn⟩ := columns?_eq_some hcolumns
      refine consistent_array_of (by rw [List.length_map, hcount]) fun x hx => ?_
      obtain ⟨column, hmem, rfl⟩ := List.mem_map.mp hx
      obtain ⟨hlength, hentries⟩ := hcolumn column hmem
      refine ⟨consistent_array_of (hlength.trans hrowsLength) fun y hy => ?_, rfl⟩
      obtain ⟨row, hrow, hyrow⟩ := hentries y hy
      -- the row is an element of the array, so its sizes are those that remain
      obtain ⟨rowDims, hrowMem⟩ := hrowsMem row hrow
      obtain ⟨hrowConsistent, hrowDims⟩ := hall _ hrowMem
      obtain ⟨_, hrowSplit, hrowAll⟩ := consistent_array.mp hrowConsistent
      obtain ⟨-, rfl⟩ := List.cons.inj (hrowDims.symm.trans hrowSplit)
      exact hrowAll y hyrow
    | _ => cases hdims
  · cases h

/-! ## Concatenation -/

/-- The sizes of a concatenation of arrays of the given sizes. -/
def joinDims : Nat → List (List Nat) → List Nat
  | 0, _ => []
  | 1, parts => (parts.map fun dims => dims.headD 0).sum :: (parts.headD []).tail
  | k + 2, parts =>
    let first := parts.headD []
    if first.headD 0 = 0 then
      first.set (k + 1) (sizeSum (parts.map fun dims => dims.getD (k + 1) 0))
    else first.headD 0 :: joinDims (k + 1) (parts.map List.tail)

/-- Arrays that can be concatenated have at least one dimension, and the same but for the one they
are concatenated along. -/
theorem joinable_eq_ok {k : Nat} {parts : List Value} {first : Value}
    (h : joinable k parts = .ok first) :
    parts.head? = some first ∧ k ≠ 0 ∧ k ≤ first.rank
      ∧ ∀ part ∈ parts, agreeExcept k part.dims first.dims = true := by
  cases parts with
  | nil => simp [joinable] at h
  | cons v vs =>
    simp only [joinable] at h
    split at h
    · simp at h
    · rename_i hk
      split at h
      · simp at h
      · rename_i hfind
        cases h
        refine ⟨rfl, fun h0 => hk (.inl h0), by omega, fun part hpart => ?_⟩
        simpa using List.find?_eq_none.mp hfind part hpart

/-- Sizes that agree but for the first one have the same rest. -/
theorem agreeExcept_one {ds : List Nat} {e : Nat} {es : List Nat}
    (h : agreeExcept 1 ds (e :: es) = true) : ∃ d, ds = d :: es := by
  cases ds with
  | nil => simp [agreeExcept] at h
  | cons d ds =>
    simp only [agreeExcept, beq_iff_eq] at h
    exact ⟨d, by rw [h]⟩

/-- Sizes that agree but for a later one have the same first one. -/
theorem agreeExcept_succ {k : Nat} {ds : List Nat} {e : Nat} {es : List Nat}
    (h : agreeExcept (k + 2) ds (e :: es) = true) :
    ∃ ds', ds = e :: ds' ∧ agreeExcept (k + 1) ds' es = true := by
  cases ds with
  | nil => simp [agreeExcept] at h
  | cons d ds =>
    simp only [agreeExcept, Bool.and_eq_true, beq_iff_eq] at h
    exact ⟨ds, by rw [h.1], h.2⟩

/-- Every slice that is joined has one element of each part. -/
theorem joinSlices_eq_ok {join : List Value → Outcome Value} {n : Nat} {parts : List (List Value)}
    {joined : List Value} (h : joinSlices join n parts = .ok joined) :
    joined.length = n
      ∧ ∀ w ∈ joined, ∃ slice, join slice = .ok w
        ∧ List.Forall₂ (fun part v => v ∈ part) parts slice := by
  induction n generalizing parts joined with
  | zero =>
    cases h
    exact ⟨rfl, fun w hw => absurd hw List.not_mem_nil⟩
  | succ n ih =>
    rw [joinSlices] at h
    obtain ⟨slice, hslice, h⟩ := Outcome.bind_eq_ok.mp h
    obtain ⟨w, hw, h⟩ := Outcome.bind_eq_ok.mp h
    obtain ⟨others, hothers, h⟩ := Outcome.bind_eq_ok.mp h
    cases h
    obtain ⟨hlength, hall⟩ := ih hothers
    refine ⟨congrArg (· + 1) hlength, fun x hx => ?_⟩
    rcases List.mem_cons.mp hx with rfl | hx
    · refine ⟨slice, hw, (Outcome.mapM_eq_ok.mp hslice).imp fun part v hv => ?_⟩
      cases part with
      | nil => simp [firstSlice] at hv
      | cons v' part =>
        cases hv
        exact List.mem_cons_self
    · obtain ⟨slice', hjoin, hmem⟩ := hall x hx
      refine ⟨slice', hjoin, (List.forall₂_map_left_iff.mp hmem).imp fun part v hv => ?_⟩
      exact List.mem_of_mem_tail hv

/-- A part with at least one dimension has elements, as many as its first size tells and all of the
sizes that remain. -/
theorem Consistent.elementList {v : Value} {d : Nat} {ds : List Nat} (h : v.Consistent)
    (hdims : v.dims = d :: ds) :
    v.elementList.length = d ∧ ∀ w ∈ v.elementList, w.Consistent ∧ w.dims = ds := by
  cases v with
  | array elements dims =>
    obtain ⟨inner, rfl, hall⟩ := consistent_array.mp h
    obtain ⟨rfl, rfl⟩ := List.cons.inj hdims
    exact ⟨rfl, hall⟩
  | _ => cases hdims

/-- A slice of consistent parts is consistent, and has the sizes that remain in each part. -/
theorem slice_consistent {parts slice : List Value}
    (h : List.Forall₂ (fun part v => v ∈ part.elementList) parts slice)
    (hparts : ∀ part ∈ parts, ∀ v ∈ part.elementList, v.Consistent ∧ v.dims = part.dims.tail) :
    (∀ v ∈ slice, v.Consistent) ∧ slice.map dims = (parts.map dims).map List.tail := by
  induction h with
  | nil => exact ⟨fun v hv => absurd hv List.not_mem_nil, rfl⟩
  | @cons part v parts slice hv _ ih =>
    obtain ⟨hconsistent, hdims⟩ := hparts part List.mem_cons_self v hv
    obtain ⟨hslice, hmap⟩ := ih fun p hp => hparts p (List.mem_cons_of_mem part hp)
    refine ⟨List.forall_mem_cons.mpr ⟨hconsistent, hslice⟩, ?_⟩
    rw [List.map_cons, List.map_cons, List.map_cons, hdims, hmap]

/-- The sizes of the first part are the first of the sizes. -/
theorem headD_map_dims {parts : List Value} {first : Value} (h : parts.head? = some first) :
    (parts.map dims).headD [] = first.dims := by
  simp [List.headD_eq_head?_getD, h]

/-- Along the first dimension the elements of the parts come one after the other. -/
theorem concat_one_consistent {parts : List Value} {w : Value}
    (hparts : ∀ part ∈ parts, part.Consistent) (h : concat 1 parts = .ok w) :
    w.Consistent ∧ w.dims = joinDims 1 (parts.map dims) := by
  rw [concat] at h
  obtain ⟨first, hfirst, h⟩ := Outcome.bind_eq_ok.mp h
  cases h
  obtain ⟨hhead, _, hrank, hagree⟩ := joinable_eq_ok hfirst
  obtain ⟨d, ds, hdims⟩ : ∃ d ds, first.dims = d :: ds :=
    List.exists_cons_of_length_pos hrank
  have hpart : ∀ part ∈ parts, ∃ n, part.dims = n :: ds := fun part hmem =>
    agreeExcept_one (hdims ▸ hagree part hmem)
  have hlength : (parts.flatMap elementList).length
      = ((parts.map dims).map fun dims => dims.headD 0).sum := by
    rw [List.length_flatMap, List.map_map]
    refine congrArg List.sum (List.map_congr_left fun part hmem => ?_)
    obtain ⟨n, hn⟩ := hpart part hmem
    rw [((hparts part hmem).elementList hn).1]
    simp [hn]
  refine ⟨consistent_array_of rfl fun v hv => ?_, ?_⟩
  · obtain ⟨part, hmem, hv⟩ := List.mem_flatMap.mp hv
    obtain ⟨n, hn⟩ := hpart part hmem
    rw [hdims]
    exact ((hparts part hmem).elementList hn).2 v hv
  · rw [joinDims, headD_map_dims hhead, ← hlength]
    rfl

/-- Along another dimension the slices of the parts are concatenated along the one before. -/
theorem concat_succ_consistent {k : Nat} {parts : List Value} {w : Value}
    (ih : ∀ {slice : List Value} {w : Value}, (∀ v ∈ slice, v.Consistent) →
      concat (k + 1) slice = .ok w → w.Consistent ∧ w.dims = joinDims (k + 1) (slice.map dims))
    (hparts : ∀ part ∈ parts, part.Consistent) (h : concat (k + 2) parts = .ok w) :
    w.Consistent ∧ w.dims = joinDims (k + 2) (parts.map dims) := by
  rw [concat] at h
  obtain ⟨first, hfirst, h⟩ := Outcome.bind_eq_ok.mp h
  obtain ⟨joined, hjoined, h⟩ := Outcome.bind_eq_ok.mp h
  obtain ⟨hhead, _, hrank, hagree⟩ := joinable_eq_ok hfirst
  obtain ⟨d, ds, hdims⟩ : ∃ d ds, first.dims = d :: ds :=
    List.exists_cons_of_length_pos (by unfold rank at hrank; omega)
  have hpart : ∀ part ∈ parts, part.dims = d :: part.dims.tail := fun part hmem => by
    obtain ⟨ds', hds', _⟩ := agreeExcept_succ (hdims ▸ hagree part hmem)
    rw [hds', List.tail_cons]
  obtain ⟨hlength, hslices⟩ := joinSlices_eq_ok hjoined
  -- all slices have the sizes that remain, so what they are joined to has the same sizes too
  have hall : ∀ w ∈ joined, w.Consistent
      ∧ w.dims = joinDims (k + 1) ((parts.map dims).map List.tail) := by
    intro w hw
    obtain ⟨slice, hslice, hmem⟩ := hslices w hw
    obtain ⟨hconsistent, hmap⟩ := slice_consistent (List.forall₂_map_left_iff.mp hmem)
      fun part hmem => ((hparts part hmem).elementList (hpart part hmem)).2
    rw [← hmap]
    exact ih hconsistent hslice
  have hd : first.dims.headD 0 = d := by rw [hdims, List.headD_cons]
  have hjoin : joinDims (k + 2) (parts.map dims)
      = if d = 0 then
          first.dims.set (k + 1) (sizeSum ((parts.map dims).map fun dims => dims.getD (k + 1) 0))
        else d :: joinDims (k + 1) ((parts.map dims).map List.tail) := by
    rw [joinDims, headD_map_dims hhead, hd]
  rw [hd] at hlength
  rw [hjoin]
  by_cases hempty : joined.isEmpty
  · have hzero : d = 0 := by rw [← hlength, List.isEmpty_iff.mp hempty, List.length_nil]
    simp only [if_pos hempty] at h
    cases h
    rw [if_pos hzero, List.map_map, hdims, hzero]
    exact ⟨consistent_empty _, rfl⟩
  · simp only [if_neg hempty] at h
    cases h
    refine ⟨consistent_arrayOf hall, ?_⟩
    cases joined with
    | nil => exact absurd rfl hempty
    | cons w ws =>
      have hpos : d ≠ 0 := by rw [← hlength]; exact Nat.succ_ne_zero _
      rw [if_neg hpos, dims_arrayOf, hlength]
      exact congrArg (List.cons d) (hall w List.mem_cons_self).2

/-- A concatenation of consistent arrays is consistent, and has the sizes that those of its parts
tell. -/
theorem consistent_concat (k : Nat) {parts : List Value} {w : Value}
    (hparts : ∀ part ∈ parts, part.Consistent) (h : concat (k + 1) parts = .ok w) :
    w.Consistent ∧ w.dims = joinDims (k + 1) (parts.map dims) := by
  induction k generalizing parts w with
  | zero => exact concat_one_consistent hparts h
  | succ k ih => exact concat_succ_consistent ih hparts h

/-- A value as a block of a matrix constructor. -/
theorem Consistent.block {v : Value} (hv : v.Consistent) : v.block.Consistent := by
  unfold Value.block
  split
  · exact consistent_arrayOf_singleton (consistent_arrayOf_singleton hv)
  · have hcolumn : ∀ w ∈ v.flatten.map fun leaf => arrayOf [leaf],
        w.Consistent ∧ w.dims = [1] := by
      intro w hw
      obtain ⟨leaf, hleaf, rfl⟩ := List.mem_map.mp hw
      obtain ⟨hconsistent, hdims⟩ := hv.leaves leaf hleaf
      exact ⟨consistent_arrayOf_singleton hconsistent, by simp [dims_arrayOf, hdims]⟩
    exact consistent_arrayOf hcolumn
  · exact hv

end Value

namespace Steps

open Value

/-- The block of a row of consistent values is consistent. -/
theorem rowBlock_consistent {values : List Value} {w : Value} (h : ∀ v ∈ values, v.Consistent)
    (hw : rowBlock values = .ok w) : w.Consistent := by
  unfold rowBlock at hw
  split at hw
  · rename_i hleaves
    cases hw
    have hscalars : ∀ v ∈ values, v.Consistent ∧ v.dims = [] := fun v hv =>
      ⟨h v hv, dims_of_not_isArray (by simpa using List.all_eq_true.mp hleaves v hv)⟩
    exact consistent_arrayOf_singleton (consistent_arrayOf hscalars)
  · refine (consistent_concat 1 (fun part hpart => ?_) hw).1
    obtain ⟨v, hv, rfl⟩ := List.mem_map.mp hpart
    exact (h v hv).block

/-- A matrix constructor whose elements evaluate to consistent values. -/
theorem matrix_consistent {s : Steps} {req : Request} {rows : List (List Expr)} {v : Value}
    {ctx ctx' : Context} {log log' : Log} (h : (s.matrix req rows).Gives ctx log v ctx' log')
    (helements : ∀ valuess, (rows.mapM (s.evalAll req)).Gives ctx log valuess ctx' log' →
      ∀ values ∈ valuess, ∀ w ∈ values, w.Consistent) : v.Consistent := by
  obtain ⟨blocks, ctx₁, log₁, hblocks, h⟩ := EvalM.gives_bind.mp h
  obtain ⟨valuess, hvalues, hrows⟩ := EvalM.gives_mapM_ofOutcome hblocks
  split at h
  · obtain ⟨rfl, _, _⟩ := EvalM.gives_pure.mp h
    exact consistent_empty [0]
  · obtain ⟨hv, rfl, rfl⟩ := EvalM.gives_ofOutcome.mp h
    refine (consistent_concat 0 (fun block hblock => ?_) hv).1
    obtain ⟨values, hmem, hrow⟩ := exists_mem_of_forall₂ hrows block hblock
    exact rowBlock_consistent (helements valuess hvalues values hmem) hrow

end Steps

end ModelicaFold
