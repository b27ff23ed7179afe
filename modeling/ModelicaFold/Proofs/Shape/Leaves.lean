import ModelicaFold.Proofs.Shape.Consistent
import ModelicaFold.Value.Shape

/-!
# The leaves of consistent values

Operations that work on the leaves of an array, or build an array from leaves: what they give is
consistent, and has the sizes one expects.
-/

namespace ModelicaFold.Value

/-- A property of all values, by induction on the nesting of arrays alone. -/
theorem arrayInduction {P : Value → Prop} (leaf : ∀ v, v.isArray = false → P v)
    (array : ∀ elements dims, (∀ v ∈ elements, P v) → P (.array ⟨elements⟩ dims)) (v : Value) :
    P v := by
  refine flatten.induct P (fun vs => ∀ v ∈ vs, P v) array ?_ ?_ ?_ v
  · intro v hv
    refine leaf v ?_
    cases v with
    | array elements dims => exact absurd rfl (hv elements.toList dims)
    | _ => rfl
  · exact fun v hv => absurd hv List.not_mem_nil
  · intro v vs ihv ihvs w hw
    rcases List.mem_cons.mp hw with rfl | hw
    · exact ihv
    · exact ihvs w hw

/-! ## Listing leaves -/

/-- A leaf is its only leaf. -/
theorem flatten_leaf {v : Value} (h : v.isArray = false) : v.flatten = [v] := by
  cases v <;> first | rfl | cases h

/-- The leaves of an array of scalars are its elements. -/
theorem flatten_array_of_leaves {elements : List Value} (h : ∀ v ∈ elements, v.isArray = false)
    (dims : List Nat) : (Value.array elements.toArray dims).flatten = elements := by
  rw [flatten, flattenAll_eq_flatMap, List.flatMap_congr fun v hv => flatten_leaf (h v hv),
    List.flatMap_singleton']

/-- The leaves of a consistent value are consistent, and none is an array. -/
theorem Consistent.leaves {v : Value} (h : v.Consistent) :
    ∀ w ∈ v.flatten, w.Consistent ∧ w.dims = [] := by
  induction v using arrayInduction with
  | leaf v hv =>
    intro w hw
    rw [flatten_leaf hv, List.mem_singleton] at hw
    rw [hw]
    exact ⟨h, dims_of_not_isArray hv⟩
  | array elements dims ih =>
    intro w hw
    obtain ⟨inner, _, hall⟩ := consistent_array.mp h
    rw [flatten, flattenAll_eq_flatMap, List.mem_flatMap] at hw
    obtain ⟨v, hv, hw⟩ := hw
    exact ih v hv (hall v hv).1 w hw

/-- The number of leaves of an array of some sizes. -/
def leafCount (dims : List Nat) : Nat := dims.foldr (· * ·) 1

/-- An array has as many leaves as its elements have together. -/
theorem leafCount_cons (d : Nat) (ds : List Nat) : leafCount (d :: ds) = d * leafCount ds := rfl

/-- The number of leaves of an element is counted right if that of an array with such elements is a
word. -/
theorem sizeProduct_of_leafCount_lt {n : Nat} {dims : List Nat} (hn : n ≠ 0)
    (h : leafCount (n :: dims) < wordCount) : sizeProduct dims = leafCount dims := by
  have hle : leafCount dims ≤ leafCount (n :: dims) :=
    Nat.le_mul_of_pos_left _ (Nat.pos_of_ne_zero hn)
  exact sizeProduct_of_lt (Nat.lt_of_le_of_lt hle h)

/-- Sizes of one do not add leaves. -/
theorem leafCount_ones {dims : List Nat} (h : ∀ d ∈ dims, d = 1) : leafCount dims = 1 := by
  induction dims with
  | nil => rfl
  | cons d ds ih =>
    rw [leafCount_cons, h d List.mem_cons_self, ih fun e he => h e (List.mem_cons_of_mem d he)]

/-- A consistent value has as many leaves as its sizes tell. -/
theorem Consistent.length_flatten {v : Value} (h : v.Consistent) :
    v.flatten.length = leafCount v.dims := by
  induction v using arrayInduction with
  | leaf v hv => rw [flatten_leaf hv, dims_of_not_isArray hv]; rfl
  | array elements dims ih =>
    obtain ⟨inner, rfl, hall⟩ := consistent_array.mp h
    have hlength : ∀ v ∈ elements, v.flatten.length = (fun _ => leafCount inner) v :=
      fun v hv => by rw [ih v hv (hall v hv).1, (hall v hv).2]
    rw [flatten, flattenAll_eq_flatMap, List.length_flatMap, List.map_congr_left hlength]
    simp [leafCount, Value.dims]

/-! ## Working on leaves -/

/-- A function is applied to a leaf. -/
theorem mapLeaves_leaf {ε : Type} {f : Value → Except ε Value} {v : Value}
    (h : v.isArray = false) : v.mapLeaves f = f v := by
  cases v <;> first | rfl | cases h

/-- Mapping all leaves of a list maps the leaves of each value. -/
theorem mapAllLeaves_eq_mapM {ε : Type} (f : Value → Except ε Value) (vs : List Value) :
    mapAllLeaves f vs = vs.mapM (mapLeaves f) := by
  induction vs with
  | nil => rfl
  | cons v vs ih =>
    rw [mapAllLeaves, List.mapM_cons, ih]
    cases v.mapLeaves f with
    | error e => rfl
    | ok w => cases vs.mapM (mapLeaves f) <;> rfl

/-- Applying a function to the leaves keeps the sizes, if it gives atoms. -/
theorem Consistent.mapLeaves {f : Value → Outcome Value} (hf : ∀ v w, f v = .ok w → w.IsAtom)
    {v w : Value} (hv : v.Consistent) (h : v.mapLeaves f = .ok w) :
    w.Consistent ∧ w.dims = v.dims := by
  induction v using arrayInduction generalizing w with
  | leaf v hleaf =>
    rw [mapLeaves_leaf hleaf] at h
    rw [dims_of_not_isArray hleaf]
    exact (hf v w h).consistent
  | array elements dims ih =>
    obtain ⟨inner, rfl, hall⟩ := consistent_array.mp hv
    rw [Value.mapLeaves, mapAllLeaves_eq_mapM] at h
    obtain ⟨mapped, hmapped, rfl⟩ := Outcome.map_eq_ok.mp h
    refine ⟨consistent_array_of (Outcome.length_of_mapM_eq_ok hmapped) fun x hx => ?_, rfl⟩
    obtain ⟨y, hy, hyx⟩ := Outcome.mem_of_mapM_eq_ok hmapped hx
    obtain ⟨hconsistent, hdims⟩ := ih y hy (hall y hy).1 hyx
    exact ⟨hconsistent, hdims.trans (hall y hy).2⟩

/-- Combining a leaf with a leaf applies the function to them. -/
theorem zipLeaves_leaf {ε : Type} {f : Value → Value → Except ε Value} {x y : Value}
    {o : Except ε Value} (hx : x.isArray = false) (h : x.zipLeaves f y = some o) : f x y = o := by
  cases x with
  | array elements dims => cases hx
  | _ =>
    simp only [zipLeaves] at h
    split at h
    · cases h
    · exact Option.some.inj h

/-- Values of different sizes are not combined. -/
theorem zipLeaves_of_dims_ne {ε : Type} {f : Value → Value → Except ε Value} {v w : Value}
    (h : v.dims ≠ w.dims) : v.zipLeaves f w = none := by
  cases v with
  | array xs dims =>
    cases w with
    | array ys dims' =>
      obtain ⟨xs⟩ := xs
      obtain ⟨ys⟩ := ys
      rw [zipLeaves, if_neg fun hfit => h hfit.1]
    | _ => rfl
  | _ =>
    cases w with
    | array ys dims' => rfl
    | _ => exact absurd rfl h

/-- Every result of combining lists of leaves comes from a pair of them. -/
theorem zipAllLeaves_eq_ok {ε : Type} {f : Value → Value → Except ε Value}
    {xs ys zs : List Value} (hlength : xs.length = ys.length) (h : zipAllLeaves f xs ys = some (.ok zs)) :
    zs.length = xs.length
      ∧ ∀ z ∈ zs, ∃ x ∈ xs, ∃ y ∈ ys, x.zipLeaves f y = some (.ok z) := by
  induction xs generalizing ys zs with
  | nil =>
    rw [zipAllLeaves] at h
    · cases h
      exact ⟨rfl, fun z hz => absurd hz List.not_mem_nil⟩
    · nofun
  | cons x xs ih =>
    cases ys with
    | nil => cases hlength
    | cons y ys =>
      rw [zipAllLeaves] at h
      split at h
      · cases h
      · cases h
      · rename_i z hz
        split at h
        · cases h
        · cases h
        · rename_i zs' hzs
          cases h
          obtain ⟨hzslength, hall⟩ := ih (Nat.succ.inj hlength) hzs
          refine ⟨congrArg (· + 1) hzslength, fun w hw => ?_⟩
          rcases List.mem_cons.mp hw with rfl | hw
          · exact ⟨x, List.mem_cons_self, y, List.mem_cons_self, hz⟩
          · obtain ⟨x', hx', y', hy', hxy⟩ := hall w hw
            exact ⟨x', List.mem_cons_of_mem x hx', y', List.mem_cons_of_mem y hy', hxy⟩

/-- The failure of combining lists of leaves is the failure of a pair of them. -/
theorem zipAllLeaves_eq_error {f : Value → Value → Outcome Value} {xs ys : List Value}
    {failure : Failure} (h : zipAllLeaves f xs ys = some (.error failure)) :
    ∃ x ∈ xs, ∃ y ∈ ys, x.zipLeaves f y = some (.error failure) := by
  induction xs generalizing ys with
  | nil => cases ys <;> cases h
  | cons x xs ih =>
    cases ys with
    | nil => cases h
    | cons y ys =>
      rw [zipAllLeaves] at h
      split at h
      · cases h
      · rename_i hfirst
        cases h
        exact ⟨x, List.mem_cons_self, y, List.mem_cons_self, hfirst⟩
      · split at h
        · cases h
        · rename_i hothers
          cases h
          obtain ⟨x', hx', y', hy', hxy⟩ := ih hothers
          exact ⟨x', List.mem_cons_of_mem x hx', y', List.mem_cons_of_mem y hy', hxy⟩
        · cases h

/-- Combining leaves keeps the sizes, if it gives atoms. -/
theorem Consistent.zipLeaves {f : Value → Value → Outcome Value}
    (hf : ∀ x y z, f x y = .ok z → z.IsAtom) {x y z : Value} (hx : x.Consistent)
    (h : x.zipLeaves f y = some (.ok z)) : z.Consistent ∧ z.dims = x.dims := by
  induction x using arrayInduction generalizing y z with
  | leaf x hleaf =>
    rw [dims_of_not_isArray hleaf]
    exact (hf x y z (zipLeaves_leaf hleaf h)).consistent
  | array elements dims ih =>
    obtain ⟨inner, rfl, hall⟩ := consistent_array.mp hx
    cases y with
    | array others dims' =>
      obtain ⟨others⟩ := others
      rw [Value.zipLeaves] at h
      split at h
      · rename_i hfit
        obtain ⟨r, hr, hz⟩ := Option.map_eq_some_iff.mp h
        obtain ⟨zs, rfl, rfl⟩ := Outcome.map_eq_ok.mp hz
        obtain ⟨hlength, hzs⟩ := zipAllLeaves_eq_ok hfit.2 hr
        refine ⟨consistent_array_of hlength fun w hw => ?_, rfl⟩
        obtain ⟨x', hx', y', _, hxy⟩ := hzs w hw
        obtain ⟨hconsistent, hdims⟩ := ih x' hx' (hall x' hx').1 hxy
        exact ⟨hconsistent, hdims.trans (hall x' hx').2⟩
      · cases h
    | _ => cases h

/-! ## Arrays from leaves -/

/-- The items of a chunk are items of the list. -/
theorem mem_of_mem_chunks {α : Type} {size count : Nat} {items piece : List α}
    (h : piece ∈ chunks size count items) : ∀ a ∈ piece, a ∈ items := by
  induction count generalizing items with
  | zero => cases h
  | succ count ih =>
    rcases List.mem_cons.mp h with rfl | h
    · exact fun a ha => List.mem_of_mem_take ha
    · exact fun a ha => List.mem_of_mem_drop (ih h a ha)

/-- Pieces of one length use up a sequence whose length is a multiple of it. -/
theorem length_of_mem_chunks {α : Type} {size count : Nat} {items piece : List α}
    (hlength : items.length = count * size) (h : piece ∈ chunks size count items) :
    piece.length = size := by
  induction count generalizing items with
  | zero => cases h
  | succ count ih =>
    rw [Nat.succ_mul] at hlength
    rcases List.mem_cons.mp h with rfl | h
    · rw [List.length_take]
      omega
    · have hrest : (items.drop size).length = count * size := by
        rw [List.length_drop]
        omega
      exact ih hrest h

/-- Cutting a sequence into pieces of one length loses nothing if the lengths fit. -/
theorem flatten_chunks {α : Type} {size count : Nat} {items : List α}
    (h : items.length = count * size) : (chunks size count items).flatten = items := by
  induction count generalizing items with
  | zero =>
    rw [Nat.zero_mul] at h
    rw [List.length_eq_zero_iff.mp h]
    rfl
  | succ count ih =>
    have hrest : (items.drop size).length = count * size := by
      rw [List.length_drop, h, Nat.succ_mul, Nat.add_sub_cancel]
    rw [chunks, List.flatten_cons, ih hrest, List.take_append_drop]

/-- Leaves nested into a matrix with rows of a length that is a word. -/
theorem consistent_fromFlat {flat : List Value} {n m : Nat} (hm : m < wordCount)
    (hlength : flat.length = n * m) (hflat : ∀ v ∈ flat, v.Consistent ∧ v.dims = []) :
    (fromFlat flat [n, m]).Consistent := by
  have hsize : sizeProduct [m] = m := (sizeProduct_of_lt (by simpa using hm)).trans (by simp)
  simp only [fromFlat, hsize]
  refine consistent_array_of (by simp [length_chunks]) fun v hv => ?_
  obtain ⟨piece, hpiece, rfl⟩ := List.mem_map.mp hv
  have hrow : piece.length = m := length_of_mem_chunks hlength hpiece
  exact ⟨consistent_array_of hrow fun w hw => hflat w (mem_of_mem_chunks hpiece w hw), rfl⟩

/-- Filling puts the given sizes before those of the value. -/
theorem Consistent.fill {v : Value} (hv : v.Consistent) (sizes : List Nat) :
    (v.fill sizes).Consistent ∧ (v.fill sizes).dims = sizes ++ v.dims := by
  induction sizes with
  | nil => exact ⟨hv, rfl⟩
  | cons n rest ih =>
    cases n with
    | zero => exact ⟨consistent_empty _, rfl⟩
    | succ n =>
      refine ⟨consistent_array.mpr ⟨(v.fill rest).dims, by simp, fun w hw => ?_⟩, ?_⟩
      · rw [Array.toList_replicate] at hw
        rw [List.eq_of_mem_replicate hw]
        exact ⟨ih.1, rfl⟩
      · exact congrArg (List.cons (n + 1)) ih.2

/-- A consistent value in a number of arrays of one element is consistent, with as many sizes of one
before its own. -/
theorem Consistent.repeat_arrayOf {v : Value} (hv : v.Consistent) (k : Nat) :
    (Nat.repeat (fun v => arrayOf [v]) k v).Consistent
      ∧ (Nat.repeat (fun v => arrayOf [v]) k v).dims = List.replicate k 1 ++ v.dims := by
  induction k with
  | zero => exact ⟨hv, rfl⟩
  | succ k ih =>
    exact ⟨consistent_arrayOf_singleton ih.1, congrArg (List.cons 1) ih.2⟩

/-- Dimensions are appended to each value of a list. -/
theorem appendAllUnitDims_eq_map (k : Nat) (vs : List Value) :
    appendAllUnitDims k vs = vs.map (appendUnitDims k) := by
  induction vs with
  | nil => rfl
  | cons v vs ih => rw [appendAllUnitDims, ih, List.map_cons]

/-- Appending dimensions to a leaf puts it into as many arrays. -/
theorem appendUnitDims_leaf {v : Value} (h : v.isArray = false) (k : Nat) :
    v.appendUnitDims k = Nat.repeat (fun v => arrayOf [v]) k v := by
  cases v <;> first | rfl | cases h

/-- Promotion appends dimensions of size one. -/
theorem Consistent.appendUnitDims {v : Value} (hv : v.Consistent) (k : Nat) :
    (v.appendUnitDims k).Consistent
      ∧ (v.appendUnitDims k).dims = v.dims ++ List.replicate k 1 := by
  induction v using arrayInduction with
  | leaf v hleaf =>
    have hrepeat := hv.repeat_arrayOf k
    rw [dims_of_not_isArray hleaf, List.append_nil] at hrepeat
    rw [appendUnitDims_leaf hleaf, dims_of_not_isArray hleaf, List.nil_append]
    exact hrepeat
  | array elements dims ih =>
    obtain ⟨inner, rfl, hall⟩ := consistent_array.mp hv
    rw [Value.appendUnitDims, appendAllUnitDims_eq_map]
    refine ⟨consistent_array_of (by simp) fun w hw => ?_, rfl⟩
    obtain ⟨x, hx, rfl⟩ := List.mem_map.mp hw
    obtain ⟨hconsistent, hdims⟩ := ih x hx (hall x hx).1
    exact ⟨hconsistent, by rw [hdims, (hall x hx).2]; rfl⟩

end ModelicaFold.Value
