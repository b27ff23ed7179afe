import ModelicaFold.Eval.Construct
import ModelicaFold.Proofs.Deferral.Operands
import ModelicaFold.Proofs.Shape.Concat

/-!
# Shapes of arrays that are filled in

Operations that look at the sizes of their operands do the same where no array is filled in:
flattening and nesting, filling, transposing, joining and promoting arrays, and products of
matrices. The elements themselves are moved and not looked at, so that there may be placeholders in
the result.
-/

namespace ModelicaFold

open Outcome

section

variable {α β γ δ : Type} {R : α → β → Prop} {S : γ → δ → Prop}

/-- Functions that give related lists for related items give related lists together. -/
theorem forall₂_flatMap {f : α → List γ} {g : β → List δ} {as : List α} {bs : List β}
    (h : List.Forall₂ (fun a b => List.Forall₂ S (f a) (g b)) as bs) :
    List.Forall₂ S (as.flatMap f) (bs.flatMap g) :=
  List.rel_flatMap h fun _ _ hab => hab

/-- Functions that relate the results may be mapped over related lists. -/
theorem forall₂_map {f : α → γ} {g : β → δ} {as : List α} {bs : List β}
    (h : List.Forall₂ (fun a b => S (f a) (g b)) as bs) : List.Forall₂ S (as.map f) (bs.map g) :=
  List.forall₂_map_left_iff.mpr (List.forall₂_map_right_iff.mpr h)

/-- Functions that agree on related items give one list. -/
theorem map_eq_of_forall₂ {f : α → γ} {g : β → γ} {as : List α} {bs : List β}
    (h : List.Forall₂ (fun a b => f a = g b) as bs) : as.map f = bs.map g := by
  rw [← List.forall₂_eq_eq_eq]
  exact forall₂_map h

/-- Repeating related items gives related lists. -/
theorem forall₂_replicate {a : α} {b : β} (h : R a b) (n : Nat) :
    List.Forall₂ R (List.replicate n a) (List.replicate n b) := by
  induction n with
  | zero => exact .nil
  | succ n ih => exact .cons h ih

/-- Related lists have related tails. -/
theorem forall₂_tail {as : List α} {bs : List β} (h : List.Forall₂ R as bs) :
    List.Forall₂ R as.tail bs.tail := by
  cases h with
  | nil => exact .nil
  | cons _ h => exact h

/-- Related lists are cut into related chunks. -/
theorem forall₂_chunks (size : Nat) {count : Nat} {as : List α} {bs : List β}
    (h : List.Forall₂ R as bs) :
    List.Forall₂ (List.Forall₂ R) (Value.chunks size count as) (Value.chunks size count bs) := by
  induction count generalizing as bs with
  | zero => exact .nil
  | succ count ih => exact .cons (List.forall₂_take size h) (ih (List.forall₂_drop size h))

/-- A partial function that is defined on related items alike. -/
theorem mapM_of_forall₂ {f : α → Option γ} {g : β → Option δ} {as : List α} {bs : List β}
    (hfg : ∀ a b c, R a b → f a = some c → ∃ d, g b = some d ∧ S c d) (h : List.Forall₂ R as bs)
    {cs : List γ} (hcs : as.mapM f = some cs) :
    ∃ ds, bs.mapM g = some ds ∧ List.Forall₂ S cs ds := by
  induction h generalizing cs with
  | nil =>
    cases hcs
    exact ⟨[], rfl, .nil⟩
  | cons hab _ ih =>
    obtain ⟨c, cs', hc, hcs', rfl⟩ := List.forall₂_cons_left_iff.mp (mapM_eq_some.mp hcs)
    obtain ⟨d, hd, hcd⟩ := hfg _ _ c hab hc
    obtain ⟨ds, hds, hrel⟩ := ih (mapM_eq_some.mpr hcs')
    exact ⟨d :: ds, mapM_eq_some.mpr (.cons hd (mapM_eq_some.mp hds)), .cons hcd hrel⟩

end

namespace Value

variable {arrays : Bool}

namespace Filled

variable {v w : Value}

/-! ## Leaves, rows and columns -/

/-- The leaves of a value are filled in as it is. -/
theorem flatten (h : v.Filled false w) : AllFilled false v.flatten w.flatten := by
  induction v using arrayInduction generalizing w with
  | leaf v hv =>
    rw [flatten_leaf hv, flatten_leaf (h.isArray_eq.trans hv)]
    exact .cons h .nil
  | array elements dims ih =>
    cases h with
    | @array _ ys _ _ hall =>
      obtain ⟨ys⟩ := ys
      rw [Value.flatten, Value.flatten, flattenAll_eq_flatMap, flattenAll_eq_flatMap]
      exact forall₂_flatMap (parts_imp (fun v hv w hvw => ih v hv hvw) hall)

/-- The elements of an array are filled in as it is. -/
theorem elementList (h : v.Filled arrays w) (hv : v.isArray = true) :
    AllFilled arrays v.elementList w.elementList := by
  cases h with
  | array hall => exact hall
  | _ => cases hv

/-- The row that a value is, is filled in as the value is. -/
theorem row? (h : v.Filled arrays w) {row : List Value} (hv : v.row? = some row) :
    ∃ row', w.row? = some row' ∧ AllFilled arrays row row' := by
  cases h with
  | array hall =>
    cases hv
    exact ⟨_, rfl, hall⟩
  | _ => cases hv

/-- The rows of a matrix are filled in as it is. -/
theorem rows? (h : v.Filled arrays w) {rows : List (List Value)} (hv : v.rows? = some rows) :
    ∃ rows', w.rows? = some rows' ∧ List.Forall₂ (AllFilled arrays) rows rows' := by
  obtain ⟨xs, hxs, hrows⟩ := Option.bind_eq_some_iff.mp hv
  obtain ⟨ys, hys, hall⟩ := h.elements? hxs
  obtain ⟨rows', hrows', hrel⟩ := mapM_of_forall₂ (fun _ _ _ hvw => hvw.row?) hall hrows
  exact ⟨rows', by rw [Value.rows?, hys, Option.bind_some, hrows'], hrel⟩

/-- The columns of a matrix are filled in as its rows are. -/
theorem columns? {rows rows' columns : List (List Value)} {count : Nat}
    (h : List.Forall₂ (AllFilled arrays) rows rows')
    (hcolumns : Value.columns? rows count = some columns) :
    ∃ columns', Value.columns? rows' count = some columns'
      ∧ List.Forall₂ (AllFilled arrays) columns columns' := by
  induction count generalizing rows rows' columns with
  | zero =>
    cases hcolumns
    exact ⟨[], rfl, .nil⟩
  | succ count ih =>
    simp only [Value.columns?, Option.bind_eq_bind, Option.bind_eq_some_iff, Option.pure_def,
      Option.some.injEq] at hcolumns ⊢
    obtain ⟨first, hfirst, others, hothers, rfl⟩ := hcolumns
    have hhead : ∀ (row row' : List Value) (v : Value), AllFilled arrays row row' →
        row.head? = some v → ∃ w, row'.head? = some w ∧ v.Filled arrays w := by
      intro row row' v hrow hv
      cases hrow with
      | nil => cases hv
      | @cons _ w _ _ hvw _ =>
        cases hv
        exact ⟨w, rfl, hvw⟩
    obtain ⟨first', hfirst', hfirstrel⟩ := mapM_of_forall₂ hhead h hfirst
    have htails : List.Forall₂ (AllFilled arrays) (rows.map List.tail) (rows'.map List.tail) :=
      forall₂_map (h.imp fun _ _ => forall₂_tail)
    obtain ⟨others', hothers', hothersrel⟩ := ih htails hothers
    exact ⟨first' :: others', ⟨first', hfirst', others', hothers', rfl⟩, .cons hfirstrel hothersrel⟩

/-- A transpose is filled in as the matrix is. -/
theorem transpose? (h : v.Filled false w) {t : Value} (ht : v.transpose? = some t) :
    ∃ t', w.transpose? = some t' ∧ t.Filled false t' := by
  unfold Value.transpose? at ht ⊢
  rw [h.dims_eq]
  split at ht
  · rename_i rows n m inner hrows hdims
    obtain ⟨columns, hcolumns, rfl⟩ := Option.map_eq_some_iff.mp ht
    obtain ⟨rows', hrows', hrel⟩ := h.rows? hrows
    obtain ⟨columns', hcolumns', hcolumnsrel⟩ := columns? hrel hcolumns
    simp only [hrows', hdims, hcolumns', Option.map_some]
    exact ⟨_, rfl, .array (forall₂_map (hcolumnsrel.imp fun _ _ hcolumn =>
      .array hcolumn (.inl rfl))) (.inl rfl)⟩
  · cases ht

/-! ## Building arrays -/

/-- An array filled with a value is filled in as the value is. -/
theorem fill (h : v.Filled false w) (sizes : List Nat) :
    (v.fill sizes).Filled false (w.fill sizes) := by
  induction sizes with
  | nil => exact h
  | cons n rest ih =>
    cases n with
    | zero =>
      rw [Value.fill, Value.fill, h.dims_eq]
      exact refl _
    | succ n =>
      refine .array ?_ (.inl (congrArg (List.cons (n + 1)) ih.dims_eq))
      rw [Array.toList_replicate, Array.toList_replicate]
      exact forall₂_replicate ih (n + 1)

/-- An array built of a flat list is filled in as the list is. -/
theorem fromFlat {flat flat' : List Value} (h : AllFilled arrays flat flat') (sizes : List Nat) :
    (Value.fromFlat flat sizes).Filled arrays (Value.fromFlat flat' sizes) := by
  induction sizes generalizing flat flat' with
  | nil => exact vector h
  | cons n rest ih =>
    cases rest with
    | nil => exact .array h (.inl rfl)
    | cons m inner =>
      refine .array (forall₂_map ?_) (.inl rfl)
      exact (forall₂_chunks _ h).imp fun _ _ hpiece => ih hpiece

/-- Values nested by a construction are filled in as the values are. -/
theorem nest {make : List Value → Value}
    (hmake : ∀ {vs ws}, AllFilled arrays vs ws → (make vs).Filled arrays (make ws))
    {flat flat' : List Value} (h : AllFilled arrays flat flat') (shape : List Nat) :
    (Value.nest make flat shape).Filled arrays (Value.nest make flat' shape) := by
  induction shape generalizing flat flat' with
  | nil => exact hmake h
  | cons n rest ih =>
    cases rest with
    | nil => exact hmake h
    | cons m inner =>
      simp only [Value.nest]
      split
      · exact refl _
      · exact hmake (forall₂_map ((forall₂_chunks _ h).imp fun _ _ hpiece => ih hpiece))

/-- A value in a number of arrays of one element is filled in as the value is. -/
theorem repeat_arrayOf (h : v.Filled arrays w) (k : Nat) :
    (Nat.repeat (fun v => Value.arrayOf [v]) k v).Filled arrays
      (Nat.repeat (fun v => Value.arrayOf [v]) k w) := by
  induction k with
  | zero => exact h
  | succ k ih => exact arrayOf (.cons ih .nil)

/-- A value with dimensions appended is filled in as the value is. -/
theorem appendUnitDims (h : v.Filled false w) (k : Nat) :
    (v.appendUnitDims k).Filled false (w.appendUnitDims k) := by
  induction v using arrayInduction generalizing w with
  | leaf v hv =>
    rw [appendUnitDims_leaf hv, appendUnitDims_leaf (h.isArray_eq.trans hv)]
    exact h.repeat_arrayOf k
  | array elements dims ih =>
    have hdims := h.dims_eq
    cases h with
    | @array _ ys _ _ hall =>
      obtain ⟨ys⟩ := ys
      rw [Value.appendUnitDims, Value.appendUnitDims, appendAllUnitDims_eq_map,
        appendAllUnitDims_eq_map]
      refine .array (forall₂_map (parts_imp (fun v hv w hvw => ih v hv hvw) hall)) (.inl ?_)
      exact congrArg (· ++ _) hdims

end Filled

/-! ## Joining arrays -/

/-- Parts that fit together fit together filled in. -/
theorem yields_joinable (k : Nat) {parts parts' : List Value} (h : AllFilled false parts parts') :
    Yields (Filled false) (joinable k parts) (joinable k parts') := by
  cases h with
  | nil => exact yields_fail _ _
  | @cons v w vs ws hvw hall =>
    have hfind : (v :: vs).find? (fun part => !agreeExcept k part.dims v.dims) = none →
        (w :: ws).find? (fun part => !agreeExcept k part.dims w.dims) = none := by
      rw [List.find?_eq_none, List.find?_eq_none]
      intro hagree part hpart
      obtain ⟨part', hpart', hrel⟩ := exists_mem_of_forall₂ (List.Forall₂.cons hvw hall) part hpart
      rw [hrel.dims_eq, hvw.dims_eq]
      exact hagree part' hpart'
    simp only [joinable, rank, hvw.dims_eq]
    refine .ite (yields_fail _ _) ?_
    split
    · exact yields_fail _ _
    · rename_i hnone
      rw [hvw.dims_eq] at hfind
      rw [hfind hnone]
      exact yields_ok hvw

/-- Arrays that can be joined are arrays. -/
theorem isArray_of_joinable {k : Nat} {parts : List Value} {first : Value}
    (h : joinable k parts = .ok first) : ∀ part ∈ parts, part.isArray = true := by
  obtain ⟨-, hk, hrank, hagree⟩ := joinable_eq_ok h
  intro part hpart
  cases hpartarray : part.isArray with
  | true => rfl
  | false =>
    have hdims := hagree part hpart
    obtain ⟨d, ds, hfirst⟩ : ∃ d ds, first.dims = d :: ds :=
      List.exists_cons_of_length_pos (Nat.lt_of_lt_of_le (Nat.pos_of_ne_zero hk) hrank)
    rw [dims_of_not_isArray hpartarray, hfirst] at hdims
    simp [agreeExcept] at hdims

/-- Slices joined one by one are filled in as the parts are. -/
theorem yields_joinSlices {join : List Value → Outcome Value}
    (hjoin : ∀ vs ws, AllFilled arrays vs ws → Yields (Filled arrays) (join vs) (join ws)) (n : Nat)
    {parts parts' : List (List Value)} (h : List.Forall₂ (AllFilled arrays) parts parts') :
    Yields (AllFilled arrays) (joinSlices join n parts) (joinSlices join n parts') := by
  induction n generalizing parts parts' with
  | zero => exact yields_ok .nil
  | succ n ih =>
    rw [joinSlices, joinSlices]
    have hfirst : Yields (AllFilled arrays) (parts.mapM firstSlice) (parts'.mapM firstSlice) := by
      refine .mapM h fun part part' hpart => ?_
      cases hpart with
      | nil => exact yields_fail _ _
      | cons hvw _ => exact yields_ok hvw
    refine hfirst.bind fun slice slice' hslice => ?_
    refine (hjoin slice slice' hslice).bind fun v w hvw => ?_
    refine (ih (forall₂_map (h.imp fun _ _ => forall₂_tail))).bind fun vs ws hall => ?_
    exact yields_ok (.cons hvw hall)

/-- The elements of arrays in a list are filled in as the arrays are. -/
theorem forall₂_elementList {parts parts' : List Value} (h : AllFilled arrays parts parts')
    (harray : ∀ part ∈ parts, part.isArray = true) :
    List.Forall₂ (fun v w => AllFilled arrays v.elementList w.elementList) parts parts' :=
  Filled.parts_imp (fun v hv _ hvw => hvw.elementList (harray v hv)) h

/-- Concatenation yields the concatenation of what is filled in. -/
theorem yields_concat (k : Nat) {parts parts' : List Value} (h : AllFilled false parts parts') :
    Yields (Filled false) (concat k parts) (concat k parts') := by
  induction k using Nat.strongRecOn generalizing parts parts' with
  | ind k ih =>
    match k with
    | 0 => exact yields_joinable 0 h
    | 1 =>
      rw [concat, concat]
      refine (yields_joinable 1 h).bind_of_ok fun first first' hok hfirst => ?_
      have hall := forall₂_flatMap (forall₂_elementList h (isArray_of_joinable hok))
      exact yields_ok (.array hall (.inl (by rw [hall.length_eq, hfirst.dims_eq])))
    | k + 2 =>
      rw [concat, concat]
      refine (yields_joinable (k + 2) h).bind_of_ok fun first first' hok hfirst => ?_
      have hparts := forall₂_map (forall₂_elementList h (isArray_of_joinable hok))
      have hsizes : parts.map (fun part => part.dims.getD (k + 1) 0)
          = parts'.map fun part => part.dims.getD (k + 1) 0 :=
        map_eq_of_forall₂ (h.imp fun v w hvw => by rw [hvw.dims_eq])
      rw [hfirst.dims_eq, hsizes]
      refine (yields_joinSlices (fun vs ws => ih (k + 1) (Nat.lt_succ_self _)) _ hparts).bind
        fun joined joined' hjoined => ?_
      cases hjoined with
      | nil => exact yields_ok (.refl _)
      | cons hvw hall => exact yields_ok (.arrayOf (.cons hvw hall))

/-! ## Blocks of a matrix constructor -/

/-- The block that a value is in a matrix constructor is filled in as the value is. -/
theorem Filled.block {v w : Value} (h : v.Filled false w) : v.block.Filled false w.block := by
  unfold Value.block
  rw [h.dims_eq]
  split
  · exact .arrayOf (.cons (.arrayOf (.cons h .nil)) .nil)
  · exact .arrayOf (forall₂_map (h.flatten.imp fun _ _ hleaf => .arrayOf (.cons hleaf .nil)))
  · exact h

end Value

/-- The block of a row is filled in as the values of the row are. -/
theorem Steps.yields_rowBlock {values values' : List Value}
    (h : Value.AllFilled false values values') :
    Yields (Value.Filled false) (rowBlock values) (rowBlock values') := by
  have hall : values'.all (fun v => !v.isArray) = values.all fun v => !v.isArray := by
    induction h with
    | nil => rfl
    | cons hvw _ ih => rw [List.all_cons, List.all_cons, hvw.isArray_eq, ih]
  unfold rowBlock
  rw [hall]
  refine .ite (yields_ok (.arrayOf (.cons (.arrayOf h) .nil))) ?_
  exact Value.yields_concat 2 (forall₂_map (h.imp fun _ _ hvw => hvw.block))

namespace Value

/-! ## Products of vectors and matrices -/

/-- Every item of a fold that succeeds has been folded. -/
theorem exists_of_foldlM_eq_ok {α β : Type} {f : β → α → Outcome β} {items : List α} {b c : β}
    (h : items.foldlM f b = .ok c) : ∀ a ∈ items, ∃ b c, f b a = .ok c := by
  induction items generalizing b with
  | nil => exact fun a ha => absurd ha List.not_mem_nil
  | cons a items ih =>
    rw [List.foldlM_cons] at h
    obtain ⟨b', hb', h⟩ := bind_eq_ok.mp h
    exact List.forall_mem_cons.mpr ⟨⟨b, b', hb'⟩, ih h⟩

/-- All elements take part in a scalar product. -/
theorem complete_of_dotProduct {a b : List Value} {v : Value} (h : dotProduct a b = .ok v) :
    (∀ x ∈ a, x.Complete) ∧ ∀ y ∈ b, y.Complete := by
  unfold dotProduct at h
  split at h
  · cases h
  · rename_i hlength
    have hpairs : List.Forall₂ (fun x y => x.Complete ∧ y.Complete) a b := by
      refine List.forall₂_iff_zip.mpr ⟨not_not.mp hlength, fun {x y} hxy => ?_⟩
      obtain ⟨sum, sum', hstep⟩ := exists_of_foldlM_eq_ok h (x, y) hxy
      obtain ⟨product, hproduct, -⟩ := bind_eq_ok.mp hstep
      exact strict₂_scalarArith .mul x y product hproduct
    refine ⟨fun x hx => ?_, fun y hy => ?_⟩
    · obtain ⟨y, -, hxy⟩ := exists_mem_of_forall₂ hpairs.flip x hx
      exact hxy.1
    · obtain ⟨x, -, hxy⟩ := exists_mem_of_forall₂ hpairs y hy
      exact hxy.2

/-- A dot product is the same filled in. -/
theorem yields_dotProduct {a a' b b' : List Value} (ha : AllFilled arrays a a')
    (hb : AllFilled arrays b b') : Yields Eq (dotProduct a b) (dotProduct a' b') := by
  intro v hv
  obtain ⟨hac, hbc⟩ := complete_of_dotProduct hv
  rw [Filled.all_eq_of_complete hac ha, Filled.all_eq_of_complete hbc hb]
  exact ⟨v, hv, rfl⟩

/-- The elements of a vector are filled in as it is. -/
theorem yields_vectorElements {v w : Value} (h : v.Filled arrays w) :
    Yields (AllFilled arrays) v.vectorElements w.vectorElements := by
  intro elements hv
  unfold vectorElements at hv ⊢
  split at hv
  · rename_i xs hxs
    cases hv
    obtain ⟨ys, hys, hall⟩ := h.elements? hxs
    rw [hys]
    exact ⟨ys.toList, rfl, hall⟩
  · cases hv

/-- A product of vectors is the same filled in. -/
theorem yields_scalarProduct {v v' w w' : Value} (hv : v.Filled arrays v')
    (hw : w.Filled arrays w') : Yields Eq (scalarProduct v w) (scalarProduct v' w') :=
  (yields_vectorElements hv).bind fun _ _ ha =>
    (yields_vectorElements hw).bind fun _ _ hb => yields_dotProduct ha hb

/-- The rows of a factor are filled in as it is. -/
theorem yields_matrixRows {v w : Value} (h : v.Filled arrays w) :
    Yields (List.Forall₂ (AllFilled arrays)) v.matrixRows w.matrixRows := by
  intro rows hv
  unfold matrixRows at hv ⊢
  split at hv
  · rename_i rows hrows
    cases hv
    obtain ⟨rows', hrows', hrel⟩ := h.rows? hrows
    rw [hrows']
    exact ⟨rows', rfl, hrel⟩
  · cases hv

/-- A transposed matrix is an array of arrays. -/
theorem isArray_of_transpose? {v t : Value} (h : v.transpose? = some t) :
    t.isArray = true ∧ ∀ u ∈ t.elementList, u.isArray = true := by
  unfold transpose? at h
  split at h
  · obtain ⟨columns, -, rfl⟩ := Option.map_eq_some_iff.mp h
    refine ⟨rfl, fun u hu => ?_⟩
    obtain ⟨column, -, rfl⟩ := List.mem_map.mp hu
    rfl
  · cases h

/-- The columns of a factor are filled in as it is. -/
theorem yields_matrixColumns {v w : Value} (h : v.Filled false w) :
    Yields (List.Forall₂ (AllFilled false)) v.matrixColumns w.matrixColumns := by
  intro columns hv
  unfold matrixColumns at hv ⊢
  split at hv
  · rename_i t ht
    cases hv
    obtain ⟨t', ht', hrel⟩ := h.transpose? ht
    obtain ⟨htarray, hcolumns⟩ := isArray_of_transpose? ht
    rw [ht']
    exact ⟨_, rfl, forall₂_map (forall₂_elementList (hrel.elementList htarray) hcolumns)⟩
  · cases hv

/-- A value that is filled in is a matrix if it was one before. -/
theorem Filled.isMatrix_eq {v w : Value} (h : v.Filled false w) : w.isMatrix = v.isMatrix := by
  cases h with
  | @array xs ys dims dims' hall =>
    obtain ⟨xs⟩ := xs
    obtain ⟨ys⟩ := ys
    cases hall with
    | nil => rfl
    | cons hxy _ => exact hxy.isArray_eq
  | @empty scope name ty w hw =>
    have hw : w.isArray = false := (Filled.empty scope name hw).isArray_eq
    cases w with
    | array elements dims => cases hw
    | _ => rfl
  | _ => rfl

/-- Equal results of a function on every item of related lists. -/
theorem yields_mapM_eq {α β γ : Type} {R : α → β → Prop} {f : α → Outcome γ} {g : β → Outcome γ}
    {as : List α} {bs : List β} (h : List.Forall₂ R as bs)
    (hfg : ∀ a b, R a b → Yields Eq (f a) (g b)) : Yields Eq (as.mapM f) (bs.mapM g) :=
  (Yields.mapM h hfg).mono fun _ _ hcs => List.forall₂_eq_eq_eq ▸ hcs

/-- A product of matrices is the same filled in. -/
theorem yields_matrixProduct {v v' w w' : Value} (hv : v.Filled false v')
    (hw : w.Filled false w') : Yields Eq (matrixProduct v w) (matrixProduct v' w') := by
  unfold matrixProduct
  rw [hv.isMatrix_eq, hw.isMatrix_eq]
  split
  · refine (yields_matrixRows hv).bind fun rows rows' hrows => ?_
    refine (yields_vectorElements hw).bind fun ys ys' hys => ?_
    exact (yields_mapM_eq hrows fun _ _ hrow => yields_dotProduct hrow hys).bind_eq fun _ =>
      yields_ok rfl
  · refine (yields_vectorElements hv).bind fun xs xs' hxs => ?_
    refine (yields_matrixColumns hw).bind fun columns columns' hcolumns => ?_
    exact (yields_mapM_eq hcolumns fun _ _ hcolumn => yields_dotProduct hxs hcolumn).bind_eq
      fun _ => yields_ok rfl
  · refine (yields_matrixRows hv).bind fun rows rows' hrows => ?_
    refine (yields_matrixColumns hw).bind fun columns columns' hcolumns => ?_
    rw [hcolumns.length_eq]
    exact (yields_mapM_eq hrows fun _ _ hrow => yields_mapM_eq hcolumns fun _ _ hcolumn =>
      yields_dotProduct hrow hcolumn).bind_eq fun _ => yields_ok rfl
  · exact yields_scalarProduct hv hw

/-! ## Binary operators -/

/-- An operation on elements is the same filled in. -/
theorem yields_elementwise (op : Arith) (operands : Operands) {v v' w w' : Value}
    (hv : v.Filled arrays v') (hw : w.Filled arrays w') :
    Yields Eq (elementwise op operands v w) (elementwise op operands v' w') := by
  cases operands with
  | scalars =>
    refine Strict₂.yields (fun v w z h => ?_) hv hw
    simp only [elementwise] at h
    split at h
    · cases h
    · exact strict₂_scalarArith op v w z h
  | arrays =>
    have hstrict : Strict₂ (elementwise op .arrays) := fun v w _ h =>
      (strict₂_scalarArith op).orShape v w _ h
    exact hstrict.yields hv hw
  | arrayScalar =>
    have hstrict : Strict fun v => scalarArith op v w := fun v z h =>
      (strict₂_scalarArith op v w z h).1
    intro z hz
    rw [hv.eq_of_complete (hstrict.mapLeaves v z hz)]
    exact yields_mapLeaves (fun v => (strict₂_scalarArith op).yields (.refl v) hw) v z hz
  | scalarArray =>
    have hstrict : Strict fun w => scalarArith op v w := fun w z h =>
      (strict₂_scalarArith op v w z h).2
    intro z hz
    rw [hw.eq_of_complete (hstrict.mapLeaves w z hz)]
    exact yields_mapLeaves (fun w => (strict₂_scalarArith op).yields hv (.refl w)) w z hz

/-- A divisor without placeholders, unless an array is divided by it. -/
theorem complete_of_division {operands : Operands} {v w z : Value}
    (h : elementwise .div operands v w = .ok z) (hoperands : operands ≠ .arrayScalar) :
    w.Complete := by
  cases operands with
  | scalars =>
    simp only [elementwise] at h
    split at h
    · cases h
    · exact (strict₂_scalarArith .div v w z h).2
  | arrays => exact ((strict₂_scalarArith .div).orShape v w _ h).2
  | arrayScalar => exact absurd rfl hoperands
  | scalarArray =>
    have hstrict : Strict fun w => scalarArith .div v w := fun w z h =>
      (strict₂_scalarArith .div v w z h).2
    exact hstrict.mapLeaves w z h

/-- What an operator asks of operands with placeholders: matrices that are multiplied have known
shapes, and the powers of a matrix are those of a matrix without placeholders. -/
theorem yields_binary (op : BinaryOp) {v v' w w' : Value} (hv : v.Filled true v')
    (hw : w.Filled true w') (hproduct : op = .matrixProduct → v.Shaped ∧ w.Shaped)
    (hpower : op = .matrixPower → v.Complete) : Yields Eq (binary op v w) (binary op v' w') := by
  cases op with
  | arith op operands => exact yields_elementwise op operands hv hw
  | concat => exact strict₂_concatStrings.yields hv hw
  | scalarProduct => exact yields_scalarProduct hv hw
  | matrixProduct =>
    obtain ⟨hvs, hws⟩ := hproduct rfl
    exact yields_matrixProduct (hv.of_shaped (.inr (.inr hvs))) (hw.of_shaped (.inr (.inr hws)))
  | matrixPower =>
    rw [hv.eq_of_complete (hpower rfl)]
    have hstrict : Strict (matrixPower v) := by
      intro w z h
      cases w with
      | integer n => exact complete_atom rfl rfl
      | _ => cases h
    exact hstrict.yields hw

end Value

end ModelicaFold
