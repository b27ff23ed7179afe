import ModelicaFold.Proofs.Shape.Entries

/-!
# What a concatenation holds

Arrays that are concatenated agree in the sizes before and after one dimension (`Framed`). Each of
them takes a block of that dimension, as long as its own size there; an index of the concatenation
falls into one of the blocks, at an offset in it (`blockAt?`). The concatenation of such arrays
exists, and its entry at a position is the entry of the part whose block contains the index, at the
offset (`exists_concat`). Anything else is refused before an element is read (`concat_refuses`).

The size along the dimension is the number of elements found, where there are any. Below a dimension
of size zero it is a sum of words instead, which may wrap around (`joinedSize_eq_sum_iff`).
-/

namespace ModelicaFold.Value

/-! ## Sizes around a dimension -/

/-- The sizes of a value agree with `before` and `after` around one dimension. -/
def Framed (before after : List Nat) (v : Value) : Prop := ∃ n, v.dims = before ++ n :: after

/-- Some values agree around dimension `k`, counted from one. -/
def Aligned (k : Nat) (parts : List Value) : Prop :=
  ∃ before after, before.length + 1 = k ∧ ∀ part ∈ parts, part.Framed before after

/-- The size of a value in the dimension with `k` others before it. -/
def sizeAt (k : Nat) (v : Value) : Nat := v.dims.getD k 0

/-- The sizes of a framed value are those before its own, its own and those after. -/
theorem Framed.dims_eq {before after : List Nat} {v : Value} (h : v.Framed before after) :
    v.dims = before ++ v.sizeAt before.length :: after := by
  obtain ⟨n, hn⟩ := h
  simp [sizeAt, hn]

/-- A value has one frame of a length only. -/
theorem Framed.unique {before after before' after' : List Nat} {v : Value}
    (hlength : before.length = before'.length) (h : v.Framed before after)
    (h' : v.Framed before' after') : before = before' ∧ after = after' := by
  obtain ⟨n, hn⟩ := h
  obtain ⟨n', hn'⟩ := h'
  obtain ⟨hbefore, htail⟩ := List.append_inj (hn.symm.trans hn') hlength
  exact ⟨hbefore, (List.cons.inj htail).2⟩

/-- Sizes agree but for one dimension if they have the same frame around it. -/
theorem agreeExcept_iff {before after ds : List Nat} {m : Nat} :
    agreeExcept (before.length + 1) ds (before ++ m :: after) = true
      ↔ ∃ n, ds = before ++ n :: after := by
  induction before generalizing ds with
  | nil =>
    cases ds with
    | nil => simp [agreeExcept]
    | cons d ds => simp [agreeExcept]
  | cons b before ih =>
    cases ds with
    | nil => simp [agreeExcept]
    | cons d ds =>
      rw [List.cons_append, List.length_cons, agreeExcept, Nat.add_sub_cancel, Bool.and_eq_true,
        beq_iff_eq, ih]
      · simp
      · simp

/-- Sizes with at least `k` dimensions are split around the last of these. -/
theorem exists_frame {k : Nat} {dims : List Nat} (hk : k < dims.length) :
    ∃ before n after, before.length = k ∧ dims = before ++ n :: after :=
  ⟨dims.take k, dims[k], dims.drop (k + 1), List.length_take_of_le (Nat.le_of_lt hk), by simp⟩

/-- Arrays can be concatenated if they agree around the dimension. -/
theorem joinable_of_framed {before after : List Nat} {first : Value} {more : List Value}
    (h : ∀ part ∈ first :: more, part.Framed before after) :
    joinable (before.length + 1) (first :: more) = .ok first := by
  have hfirst := (h first List.mem_cons_self).dims_eq
  have hagree : ∀ part ∈ first :: more,
      agreeExcept (before.length + 1) part.dims first.dims = true := by
    intro part hpart
    rw [hfirst]
    exact agreeExcept_iff.mpr (h part hpart)
  have hfind : (first :: more).find?
      (fun part => !agreeExcept (before.length + 1) part.dims first.dims) = none :=
    List.find?_eq_none.mpr fun part hpart => by simp [hagree part hpart]
  have hrank : before.length < first.rank := by
    rw [rank, hfirst]
    simp
  rw [joinable, if_neg (by omega), hfind]

/-- Arrays that can be concatenated agree around the dimension; others are refused. -/
theorem joinable_cases (k : Nat) (parts : List Value) :
    Aligned k parts ∨ ∃ message, joinable k parts = (Cause.invalidShape message).fail := by
  cases hjoinable : joinable k parts with
  | ok first =>
    obtain ⟨-, hk, hrank, hagree⟩ := joinable_eq_ok hjoinable
    have hindex : k - 1 < first.dims.length := by
      unfold rank at hrank
      omega
    obtain ⟨before, n, after, hlength, hdims⟩ := exists_frame hindex
    have hlength : before.length + 1 = k := by omega
    refine .inl ⟨before, after, hlength, fun part hpart => ?_⟩
    have hpart := hagree part hpart
    rw [← hlength, hdims] at hpart
    exact agreeExcept_iff.mp hpart
  | error failure =>
    refine .inr ?_
    unfold joinable at hjoinable
    split at hjoinable
    · exact ⟨_, hjoinable.symm⟩
    · split at hjoinable
      · exact ⟨_, hjoinable.symm⟩
      · split at hjoinable
        · exact ⟨_, hjoinable.symm⟩
        · cases hjoinable

/-- Arrays that do not agree around the dimension are refused. -/
theorem concat_refuses {k : Nat} {parts : List Value} (h : ¬ Aligned k parts) :
    ∃ message, concat k parts = (Cause.invalidShape message).fail := by
  obtain ⟨message, hmessage⟩ := (joinable_cases k parts).resolve_left h
  refine ⟨message, ?_⟩
  match k with
  | 0 => exact hmessage
  | 1 => rw [concat, hmessage]; rfl
  | k + 2 => rw [concat, hmessage]; rfl

/-! ## Blocks -/

/-- The part whose block of a dimension contains an index, and the offset of the index in it. -/
def blockAt? (k : Nat) : List Value → Nat → Option (Value × Nat)
  | [], _ => none
  | part :: more, i =>
    if i < part.sizeAt k then some (part, i) else blockAt? k more (i - part.sizeAt k)

/-- The sum of the sizes of some parts. -/
def totalAt (k : Nat) (parts : List Value) : Nat := (parts.map (sizeAt k)).sum

/-- The total size of two lists of parts is the sum of their totals. -/
theorem totalAt_append (k : Nat) (xs ys : List Value) :
    totalAt k (xs ++ ys) = totalAt k xs + totalAt k ys := by
  simp [totalAt]

/-- A block belongs to one of the parts. -/
theorem mem_of_blockAt?_eq_some {k i : Nat} {parts : List Value} {block : Value × Nat}
    (h : blockAt? k parts i = some block) : block.1 ∈ parts := by
  induction parts generalizing i with
  | nil => cases h
  | cons first more ih =>
    rw [blockAt?] at h
    split at h
    · cases h
      exact List.mem_cons_self
    · exact List.mem_cons_of_mem _ (ih h)

/-- The blocks of some parts, followed by those of others. -/
theorem blockAt?_append (k : Nat) (xs ys : List Value) (i : Nat) :
    blockAt? k (xs ++ ys) i
      = if i < totalAt k xs then blockAt? k xs i else blockAt? k ys (i - totalAt k xs) := by
  induction xs generalizing i with
  | nil => simp [totalAt]
  | cons first more ih =>
    have hcons : totalAt k (first :: more) = first.sizeAt k + totalAt k more := by simp [totalAt]
    simp only [List.cons_append, blockAt?, ih, hcons]
    split
    · rw [if_pos (by omega)]
    · by_cases hmore : i - first.sizeAt k < totalAt k more
      · rw [if_pos hmore, if_pos (by omega)]
      · rw [if_neg hmore, if_neg (by omega), Nat.sub_add_eq]

/-! ## Slices -/

/-- The element of a part at an index of its first dimension. -/
def slice (i : Nat) (v : Value) : Value := v.elementList.getD i .fail

section

variable {v : Value} {b : Nat} {dims : List Nat}

/-- The elements of a consistent value are its slices. -/
theorem elementList_of_dims (hv : v.Consistent) (hdims : v.dims = b :: dims) {i : Nat}
    (hi : i < b) : v.elementList[i]? = some (v.slice i) := by
  have hlength : i < v.elementList.length := by rwa [(hv.elementList hdims).1]
  rw [slice, List.getD_eq_getElem _ _ hlength, List.getElem?_eq_getElem hlength]

/-- A slice of a consistent value is consistent and has the inner sizes. -/
theorem Consistent.slice (hv : v.Consistent) (hdims : v.dims = b :: dims) {i : Nat} (hi : i < b) :
    (v.slice i).Consistent ∧ (v.slice i).dims = dims :=
  (hv.elementList hdims).2 _ (List.mem_of_getElem? (elementList_of_dims hv hdims hi))

/-- The entry of a slice is the entry below its index. -/
theorem entryAt?_slice (hv : v.Consistent) (hdims : v.dims = b :: dims) {i : Nat} (hi : i < b)
    (ks : List Nat) : v.entryAt? (i :: ks) = (v.slice i).entryAt? ks := by
  rw [entryAt?, elementList_of_dims hv hdims hi, Option.bind_some]

end

/-- Slices of parts that have enough elements are read by their index. -/
theorem joinSlices_eq {join : List Value → Outcome Value} {n : Nat} {parts : List (List Value)}
    (h : ∀ part ∈ parts, n ≤ part.length) :
    joinSlices join n parts
      = (List.range n).mapM fun i => join (parts.map fun part => part.getD i .fail) := by
  induction n generalizing parts with
  | zero => rfl
  | succ n ih =>
    have hfirst : parts.mapM firstSlice = .ok (parts.map fun part => part.getD 0 .fail) := by
      rw [Outcome.mapM_eq_ok, List.forall₂_map_right_iff]
      refine List.forall₂_same.mpr fun part hpart => ?_
      cases part with
      | nil => exact absurd (h [] hpart) (by simp)
      | cons v vs => rfl
    have htails : ∀ part ∈ parts.map List.tail, n ≤ part.length := by
      intro part hpart
      obtain ⟨whole, hwhole, rfl⟩ := List.mem_map.mp hpart
      have hlength := h whole hwhole
      rw [List.length_tail]
      omega
    have hnext : ∀ i, (parts.map List.tail).map (fun part => part.getD i .fail)
        = parts.map fun part => part.getD (i + 1) .fail := by
      intro i
      rw [List.map_map]
      refine List.map_congr_left fun part _ => ?_
      cases part <;> rfl
    rw [joinSlices, hfirst, ih htails, List.range_succ_eq_map, List.mapM_cons, List.mapM_map]
    simp only [hnext]
    rfl

section

variable {b : Nat} {before after : List Nat} {parts : List Value}

/-- The slices of parts that agree around a dimension agree around it, and have the same sizes
there. -/
theorem framed_slices {i : Nat} (hi : i < b)
    (h : ∀ part ∈ parts, part.Consistent ∧ part.Framed (b :: before) after) :
    (∀ part ∈ parts.map (slice i), part.Consistent ∧ part.Framed before after)
      ∧ ∀ part ∈ parts, (part.slice i).sizeAt before.length = part.sizeAt (before.length + 1) := by
  constructor
  · intro part hpart
    obtain ⟨whole, hwhole, rfl⟩ := List.mem_map.mp hpart
    obtain ⟨hconsistent, n, hn⟩ := h whole hwhole
    obtain ⟨hslice, hdims⟩ := hconsistent.slice hn hi
    exact ⟨hslice, n, hdims⟩
  · intro part hpart
    obtain ⟨hconsistent, n, hn⟩ := h part hpart
    rw [sizeAt, sizeAt, (hconsistent.slice hn hi).2, hn]
    simp

/-- A block of slices is the slice of a block. -/
theorem blockAt?_slices {k i j : Nat}
    (h : ∀ part ∈ parts, (part.slice i).sizeAt k = part.sizeAt (k + 1)) :
    blockAt? k (parts.map (slice i)) j
      = (blockAt? (k + 1) parts j).map fun block => (block.1.slice i, block.2) := by
  induction parts generalizing j with
  | nil => rfl
  | cons first more ih =>
    obtain ⟨hfirst, hmore⟩ := List.forall_mem_cons.mp h
    rw [List.map_cons, blockAt?, blockAt?, hfirst, ih hmore]
    split <;> rfl

/-- Parts with a common first size are concatenated slice by slice. -/
theorem concat_cons (hsome : parts ≠ [])
    (h : ∀ part ∈ parts, part.Consistent ∧ part.Framed (b :: before) after) :
    concat (before.length + 2) parts
      = ((List.range b).mapM fun i => concat (before.length + 1) (parts.map (slice i))) >>=
        fun joined => .ok (if b = 0
          then .array #[]
            ((0 :: before) ++ sizeSum (parts.map (sizeAt (before.length + 1))) :: after)
          else arrayOf joined) := by
  obtain ⟨first, more, rfl⟩ := List.exists_cons_of_ne_nil hsome
  obtain ⟨n, hfirst⟩ := (h first List.mem_cons_self).2
  have hrows : ∀ part ∈ (first :: more).map elementList, b ≤ part.length := by
    intro part hpart
    obtain ⟨whole, hwhole, rfl⟩ := List.mem_map.mp hpart
    obtain ⟨hconsistent, m, hm⟩ := h whole hwhole
    exact Nat.le_of_eq (hconsistent.elementList hm).1.symm
  have hslices : ∀ i, ((first :: more).map elementList).map (fun part => part.getD i .fail)
      = (first :: more).map (slice i) := fun i => List.map_map
  have hjoinable : joinable (before.length + 2) (first :: more) = .ok first :=
    joinable_of_framed fun part hpart => (h part hpart).2
  have hhead : first.dims.headD 0 = b := by rw [hfirst]; rfl
  have hset : ∀ size, first.dims.set (before.length + 1) size = (b :: before) ++ size :: after := by
    intro size
    rw [hfirst]
    simp
  rw [concat, hjoinable, Outcome.ok_bind, hhead, joinSlices_eq hrows]
  simp only [hslices, hset]
  cases hjoined : (List.range b).mapM fun i =>
      concat (before.length + 1) ((first :: more).map (slice i)) with
  | error failure => rfl
  | ok joined =>
    have hlength : joined.length = b := by
      rw [Outcome.length_of_mapM_eq_ok hjoined, List.length_range]
    by_cases hb : b = 0
    · have hempty : joined.isEmpty = true := by simp [← List.length_eq_zero_iff, hlength, hb]
      rw [Outcome.ok_bind, Outcome.ok_bind, if_pos hempty, if_pos hb]
      rw [hb]
      rfl
    · have hempty : ¬ joined.isEmpty = true := by
        simp [← List.length_eq_zero_iff, hlength, hb]
      rw [Outcome.ok_bind, Outcome.ok_bind, if_neg hempty, if_neg hb]
      rfl

end

/-! ## Entries -/

/-- The index of an element of the parts one after the other falls into the block of its part. -/
theorem getElem?_flatMap_elementList {parts : List Value}
    (h : ∀ part ∈ parts, part.elementList.length = part.sizeAt 0) (i : Nat) :
    (parts.flatMap elementList)[i]?
      = (blockAt? 0 parts i).bind fun block => block.1.elementList[block.2]? := by
  induction parts generalizing i with
  | nil => rfl
  | cons first more ih =>
    obtain ⟨hfirst, hmore⟩ := List.forall_mem_cons.mp h
    rw [List.flatMap_cons, blockAt?]
    split
    · rw [List.getElem?_append_left (by omega), Option.bind_some]
    · rw [List.getElem?_append_right (by omega), hfirst, ih hmore]

/-- Parts that agree around a dimension can be concatenated, and an entry of the concatenation is
one of the part whose block contains its index. By induction on the dimensions before: each slice is
a concatenation of the slices of the parts. -/
theorem exists_concat {before after : List Nat} {parts : List Value} (hsome : parts ≠ [])
    (h : ∀ part ∈ parts, part.Consistent ∧ part.Framed before after) :
    ∃ w, concat (before.length + 1) parts = .ok w
      ∧ ∀ q ∈ positions before, ∀ i rest, w.entryAt? (q ++ i :: rest)
          = (blockAt? before.length parts i).bind fun block =>
              block.1.entryAt? (q ++ block.2 :: rest) := by
  induction before generalizing parts with
  | nil =>
    obtain ⟨first, more, rfl⟩ := List.exists_cons_of_ne_nil hsome
    have hjoinable : joinable 1 (first :: more) = .ok first :=
      joinable_of_framed fun part hpart => (h part hpart).2
    have hsizes : ∀ part ∈ first :: more, part.elementList.length = part.sizeAt 0 :=
      fun part hpart => ((h part hpart).1.elementList (h part hpart).2.dims_eq).1
    refine ⟨_, by rw [List.length_nil, concat, hjoinable]; rfl, fun q hq i rest => ?_⟩
    obtain rfl := List.mem_singleton.mp hq
    rw [List.nil_append, entryAt?_array_cons, getElem?_flatMap_elementList hsizes,
      Option.bind_assoc]
    rfl
  | cons b before ih =>
    have hslices : ∀ i, i < b → ∃ w, concat (before.length + 1) (parts.map (slice i)) = .ok w
        ∧ ∀ q ∈ positions before, ∀ j rest, w.entryAt? (q ++ j :: rest)
          = (blockAt? before.length (parts.map (slice i)) j).bind fun block =>
              block.1.entryAt? (q ++ block.2 :: rest) := fun i hi =>
      ih (by simpa using hsome) (framed_slices hi h).1
    have : Nonempty Value := ⟨.fail⟩
    choose! joined hjoined hentries using hslices
    have hmap : ((List.range b).mapM fun i => concat (before.length + 1) (parts.map (slice i)))
        = .ok ((List.range b).map joined) := by
      rw [Outcome.mapM_eq_ok, List.forall₂_map_right_iff]
      exact List.forall₂_same.mpr fun i hi => hjoined i (List.mem_range.mp hi)
    refine ⟨_, by rw [List.length_cons, concat_cons hsome h, hmap]; rfl, fun q hq j rest => ?_⟩
    obtain ⟨i, q, hi, hrest, rfl⟩ := mem_positions_cons.mp hq
    rw [if_neg (by omega), arrayOf, List.cons_append, entryAt?_array_cons, List.getElem?_map,
      List.getElem?_range hi, Option.map_some, Option.bind_some, hentries i hi q hrest,
      blockAt?_slices (framed_slices hi h).2, Option.bind_map]
    -- the block belongs to one of the parts, whose slice is read
    cases hblock : blockAt? (before.length + 1) parts j with
    | none => rfl
    | some block =>
      obtain ⟨hconsistent, n, hn⟩ := h block.1 (mem_of_blockAt?_eq_some hblock)
      exact (entryAt?_slice hconsistent hn hi _).symm

/-! ## Sizes -/

/-- The size of a concatenation along a dimension. Without elements in the dimensions before there
is nothing to count, and the sizes of the parts are added up as words. -/
def joinedSize (before sizes : List Nat) : Nat :=
  if 0 ∈ before then sizeSum sizes else sizes.sum

/-- The size of a concatenation is the sum of the sizes, unless a size before it is zero and the sum
is no word. -/
theorem joinedSize_eq_sum_iff {before sizes : List Nat} :
    joinedSize before sizes = sizes.sum ↔ (0 ∈ before → sizes.sum < wordCount) := by
  unfold joinedSize sizeSum
  rw [← List.sum_eq_foldr]
  split
  · next hzero =>
    rw [Nat.mod_eq_iff_lt (by decide)]
    simp [hzero]
  · next hzero => simp [hzero]

/-- The sizes of a concatenation of two lists, from the sizes of the two concatenations. -/
theorem joinedSize_append (before xs ys : List Nat) :
    joinedSize before [joinedSize before xs, joinedSize before ys]
      = joinedSize before (xs ++ ys) := by
  unfold joinedSize sizeSum
  simp only [← List.sum_eq_foldr]
  split
  · simp [Nat.add_mod]
  · simp

/-- The sizes of a concatenation of parts that agree around a dimension. -/
theorem joinDims_map {before after sizes : List Nat} (hsome : sizes ≠ []) :
    joinDims (before.length + 1) (sizes.map fun n => before ++ n :: after)
      = before ++ joinedSize before sizes :: after := by
  obtain ⟨m, more, rfl⟩ := List.exists_cons_of_ne_nil hsome
  induction before with
  | nil => simp [joinDims, joinedSize, Function.comp_def]
  | cons b before ih =>
    rw [List.length_cons, joinDims]
    by_cases hb : b = 0
    · simp [hb, joinedSize, Function.comp_def]
    · have htails : ((m :: more).map fun n => b :: before ++ n :: after).map List.tail
          = (m :: more).map fun n => before ++ n :: after := by
        simp [Function.comp_def]
      have hsize : joinedSize (b :: before) (m :: more) = joinedSize before (m :: more) := by
        simp [joinedSize, Ne.symm hb]
      rw [htails, ih, hsize]
      simp [hb]

/-- The sizes of framed parts are one frame around their own sizes. -/
theorem map_dims_of_framed {before after : List Nat} {parts : List Value}
    (h : ∀ part ∈ parts, part.Framed before after) :
    parts.map dims = (parts.map (sizeAt before.length)).map fun n => before ++ n :: after := by
  rw [List.map_map]
  exact List.map_congr_left fun part hpart => (h part hpart).dims_eq

/-! ## Entries of a concatenation -/

/-- What a value is if it is the concatenation of parts that agree around a dimension. -/
structure Joins (before after : List Nat) (parts : List Value) (w : Value) : Prop where
  consistent : w.Consistent
  dims_eq : w.dims = before ++ joinedSize before (parts.map (sizeAt before.length)) :: after
  entryAt?_eq : ∀ q ∈ positions before, ∀ i rest, w.entryAt? (q ++ i :: rest)
    = (blockAt? before.length parts i).bind fun block => block.1.entryAt? (q ++ block.2 :: rest)

section

variable {before after : List Nat} {parts : List Value} {w : Value}

/-- Consistent parts of one frame have a concatenation that joins them. -/
theorem exists_joins (hsome : parts ≠ [])
    (h : ∀ part ∈ parts, part.Consistent ∧ part.Framed before after) :
    ∃ w, concat (before.length + 1) parts = .ok w ∧ Joins before after parts w := by
  obtain ⟨w, hw, hentries⟩ := exists_concat hsome h
  obtain ⟨hconsistent, hdims⟩ := consistent_concat _ (fun part hpart => (h part hpart).1) hw
  refine ⟨w, hw, hconsistent, ?_, hentries⟩
  rw [hdims, map_dims_of_framed fun part hpart => (h part hpart).2,
    joinDims_map (by simpa using hsome)]

/-- What joins parts of a frame has the frame. -/
theorem Joins.framed (h : Joins before after parts w) : w.Framed before after := ⟨_, h.dims_eq⟩

/-- What joins parts has the size that is computed from theirs. -/
theorem Joins.sizeAt_eq (h : Joins before after parts w) :
    w.sizeAt before.length = joinedSize before (parts.map (sizeAt before.length)) := by
  rw [sizeAt, h.dims_eq]
  simp

/-- The entries of a part are found in its block, after those of the parts before it. -/
theorem Joins.entry {xs ys : List Value} {part : Value}
    (h : Joins before after (xs ++ part :: ys) w) (hpart : part.Consistent)
    (hframed : part.Framed before after) {j : Nat} (hj : j < part.sizeAt before.length)
    {q : List Nat} (hq : q ∈ positions before) {rest : List Nat} (hrest : rest ∈ positions after) :
    ∃ leaf, leaf.isArray = false ∧ part.entryAt? (q ++ j :: rest) = some leaf
      ∧ w.entryAt? (q ++ (totalAt before.length xs + j) :: rest) = some leaf := by
  have hposition : q ++ j :: rest ∈ positions part.dims := by
    rw [hframed.dims_eq]
    exact mem_positions_frame.mpr ⟨q, j, rest, hq, hj, hrest, rfl⟩
  obtain ⟨leaf, hleaf, harray⟩ := hpart.exists_leaf hposition
  refine ⟨leaf, harray, hleaf, ?_⟩
  rw [h.entryAt?_eq q hq, blockAt?_append, if_neg (by omega), Nat.add_sub_cancel_left, blockAt?,
    if_pos hj, Option.bind_some, hleaf]

/-- The concatenation of two concatenations is the concatenation of all their parts. -/
theorem Joins.append {xs ys : List Value} {x y z : Value} (hx : Joins before after xs x)
    (hy : Joins before after ys y) (hz : Joins before after [x, y] z)
    (hw : Joins before after (xs ++ ys) w) : z = w := by
  have hdims : z.dims = w.dims := by
    rw [hz.dims_eq, hw.dims_eq, List.map_append, ← joinedSize_append, ← hx.sizeAt_eq,
      ← hy.sizeAt_eq]
    rfl
  refine hz.consistent.ext hw.consistent hdims fun ks hks => ?_
  rw [hdims, hw.dims_eq] at hks
  obtain ⟨q, i, rest, hq, hi, hrest, rfl⟩ := mem_positions_frame.mp hks
  -- there is a position, so no dimension before is empty and the sizes are sums
  have hzero : 0 ∉ before := by
    intro hzero
    obtain ⟨_, _, hlt⟩ := exists_mem_of_forall₂ (mem_positions.mp hq) 0 hzero
    exact Nat.not_lt_zero _ hlt
  have hsum : ∀ sizes, joinedSize before sizes = sizes.sum := fun sizes =>
    joinedSize_eq_sum_iff.mpr fun h => absurd h hzero
  have htotal : x.sizeAt before.length = totalAt before.length xs := by rw [hx.sizeAt_eq, hsum]; rfl
  have hysize : y.sizeAt before.length = totalAt before.length ys := by rw [hy.sizeAt_eq, hsum]; rfl
  rw [hsum, ← totalAt, totalAt_append] at hi
  rw [hz.entryAt?_eq q hq, hw.entryAt?_eq q hq, blockAt?_append, blockAt?, htotal]
  split
  · rw [Option.bind_some, hx.entryAt?_eq q hq]
  · rw [blockAt?, hysize, if_pos (by omega), Option.bind_some, hy.entryAt?_eq q hq]

end

/-! ## Concatenation -/

/-- Consistent arrays can be concatenated, or they are refused. -/
theorem concat_cases {k : Nat} {parts : List Value} (hsome : parts ≠ [])
    (hparts : ∀ part ∈ parts, part.Consistent) :
    (∃ w, concat k parts = .ok w)
      ∨ ∃ message, concat k parts = (Cause.invalidShape message).fail := by
  by_cases halign : Aligned k parts
  · obtain ⟨before, after, rfl, hframed⟩ := halign
    obtain ⟨w, hw, -⟩ := exists_joins hsome fun part hpart =>
      ⟨hparts part hpart, hframed part hpart⟩
    exact .inl ⟨w, hw⟩
  · exact .inr (concat_refuses halign)

/-- Where parts are not aligned, neither can they be concatenated in two steps. -/
theorem concat_concat_refuses {k : Nat} {xs ys : List Value} (hxs : xs ≠ []) (hys : ys ≠ [])
    (hconsistent : ∀ part ∈ xs ++ ys, part.Consistent) (h : ¬ Aligned k (xs ++ ys)) :
    ∃ message, (do concat k [← concat k xs, ← concat k ys])
      = (Cause.invalidShape message).fail := by
  obtain ⟨hxsConsistent, hysConsistent⟩ := List.forall_mem_append.mp hconsistent
  by_cases hx : Aligned k xs
  · obtain ⟨before, after, rfl, hx⟩ := hx
    obtain ⟨x, hxjoin, hjoins⟩ := exists_joins hxs fun part hpart =>
      ⟨hxsConsistent part hpart, hx part hpart⟩
    by_cases hy : Aligned (before.length + 1) ys
    · obtain ⟨before', after', hlength, hy⟩ := hy
      obtain ⟨y, hyjoin, hjoins'⟩ := exists_joins hys fun part hpart =>
        ⟨hysConsistent part hpart, hy part hpart⟩
      rw [hlength] at hyjoin
      rw [hxjoin, hyjoin]
      refine concat_refuses fun ⟨before'', after'', hlength', hframed⟩ => h ?_
      obtain ⟨hxframed, hyframed⟩ := List.forall_mem_cons.mp hframed
      obtain ⟨rfl, rfl⟩ := hjoins.framed.unique (by omega) hxframed
      obtain ⟨rfl, rfl⟩ := hjoins'.framed.unique (by omega) (hyframed y List.mem_cons_self)
      exact ⟨_, _, rfl, List.forall_mem_append.mpr ⟨hx, hy⟩⟩
    · obtain ⟨message, hmessage⟩ := concat_refuses hy
      exact ⟨message, by rw [hxjoin, hmessage]; rfl⟩
  · obtain ⟨message, hmessage⟩ := concat_refuses hx
    exact ⟨message, by rw [hmessage]; rfl⟩

/-- Concatenation of consistent arrays along dimension `k`. If they agree around it, there is a
concatenation; it has their sizes, but for the one along the dimension, which is the sum of theirs
(unless there are no elements and the sum is not a word), the entries of each part after those of
the parts before it, and it is the same in two steps. Otherwise the arrays are refused. -/
theorem concat_joins {k : Nat} {parts : List Value} (hsome : parts ≠ [])
    (hparts : ∀ part ∈ parts, part.Consistent) :
    (∀ before after, before.length + 1 = k → (∀ part ∈ parts, part.Framed before after) →
      ∃ w, concat k parts = .ok w ∧ w.Consistent
        ∧ w.dims = before ++ joinedSize before (parts.map (sizeAt before.length)) :: after
        ∧ (w.dims = before ++ totalAt before.length parts :: after
            ↔ (0 ∈ before → totalAt before.length parts < wordCount))
        ∧ (∀ xs part ys, parts = xs ++ part :: ys → ∀ j < part.sizeAt before.length,
            ∀ q ∈ positions before, ∀ rest ∈ positions after, ∃ leaf, leaf.isArray = false
              ∧ part.entryAt? (q ++ j :: rest) = some leaf
              ∧ w.entryAt? (q ++ (totalAt before.length xs + j) :: rest) = some leaf)
        ∧ ∀ xs ys, parts = xs ++ ys → xs ≠ [] → ys ≠ [] →
            (do concat k [← concat k xs, ← concat k ys]) = .ok w)
      ∧ (¬ Aligned k parts →
          (∃ message, concat k parts = (Cause.invalidShape message).fail)
            ∧ ∀ xs ys, parts = xs ++ ys → xs ≠ [] → ys ≠ [] →
                ∃ message, (do concat k [← concat k xs, ← concat k ys])
                  = (Cause.invalidShape message).fail) := by
  constructor
  · rintro before after rfl hframed
    have hall : ∀ part ∈ parts, part.Consistent ∧ part.Framed before after := fun part hpart =>
      ⟨hparts part hpart, hframed part hpart⟩
    obtain ⟨w, hw, hjoins⟩ := exists_joins hsome hall
    refine ⟨w, hw, hjoins.consistent, hjoins.dims_eq, ?_, ?_, ?_⟩
    · rw [hjoins.dims_eq, List.append_cancel_left_eq, List.cons.injEq, and_iff_left rfl]
      exact joinedSize_eq_sum_iff
    · rintro xs part ys rfl j hj q hq rest hrest
      obtain ⟨hpart, hpartFramed⟩ := hall part (by simp)
      exact hjoins.entry hpart hpartFramed hj hq hrest
    · rintro xs ys rfl hxs hys
      obtain ⟨hxsAll, hysAll⟩ := List.forall_mem_append.mp hall
      obtain ⟨x, hx, hxjoins⟩ := exists_joins hxs hxsAll
      obtain ⟨y, hy, hyjoins⟩ := exists_joins hys hysAll
      have hpair : ∀ part ∈ [x, y], part.Consistent ∧ part.Framed before after := by
        simp [hxjoins.consistent, hxjoins.framed, hyjoins.consistent, hyjoins.framed]
      obtain ⟨z, hz, hzjoins⟩ := exists_joins (List.cons_ne_nil _ _) hpair
      rw [hx, hy, ← hxjoins.append hyjoins hzjoins hjoins]
      exact hz
  · intro halign
    refine ⟨concat_refuses halign, ?_⟩
    rintro xs ys rfl hxs hys
    exact concat_concat_refuses hxs hys hparts halign

/-- A column and a matrix side by side. -/
theorem concat_joins_columns :
    let column := Value.matrix [[.integer 1], [.integer 2]] 1
    let block := Value.matrix [[.integer 3, .integer 4], [.integer 5, .integer 6]] 2
    (∀ part ∈ [column, block], part.Consistent ∧ part.Framed [2] [])
      ∧ ∃ w, concat 2 [column, block] = .ok w ∧ w.dims = [2, 3]
        ∧ w.entryAt? [1, 2] = some (.integer 6) := by
  intro column block
  have hcolumn : column.Consistent := consistent_matrix (by simp [dims])
  have hblock : block.Consistent := consistent_matrix (by simp [dims])
  have hparts : ∀ part ∈ [column, block], part.Consistent ∧ part.Framed [2] [] := by
    simp only [List.forall_mem_cons]
    exact ⟨⟨hcolumn, 1, rfl⟩, ⟨hblock, 2, rfl⟩, fun _ h => absurd h List.not_mem_nil⟩
  refine ⟨hparts, ?_⟩
  obtain ⟨w, hw, -, hdims, -, hentries, -⟩ := (concat_joins (List.cons_ne_nil _ _) fun part hpart =>
    (hparts part hpart).1).1 [2] [] rfl fun part hpart => (hparts part hpart).2
  obtain ⟨leaf, -, hleaf, hentry⟩ :=
    hentries [column] block [] rfl 1 (by decide) [1] (by decide) [] (by decide)
  obtain rfl : Value.integer 6 = leaf := Option.some.inj hleaf
  exact ⟨w, hw, hdims, hentry⟩

/-- Three arrays without rows whose numbers of columns do not add up to a word. -/
theorem concat_wraps_sizes :
    let wide := Value.array #[] [0, 9223372036854775807]
    (∀ part ∈ [wide, wide, wide], part.Consistent ∧ part.Framed [0] [])
      ∧ totalAt 1 [wide, wide, wide] = 27670116110564327421
      ∧ concat 2 [wide, wide, wide] = .ok (.array #[] [0, 9223372036854775805]) := by
  intro wide
  have hwide : wide.Consistent ∧ wide.Framed [0] [] := ⟨consistent_empty _, _, rfl⟩
  have hall : ∀ part ∈ [wide, wide, wide], part.Consistent ∧ part.Framed [0] [] := by
    simpa using hwide
  have hsize : sizeSum ([wide, wide, wide].map (sizeAt 1)) = 9223372036854775805 := by
    simp [sizeSum, sizeAt, wide, dims, wordCount]
  refine ⟨hall, by simp [totalAt, sizeAt, wide, dims], ?_⟩
  rw [show 2 = ([] : List Nat).length + 2 from rfl, concat_cons (List.cons_ne_nil _ _) hall,
    List.length_nil, hsize]
  rfl

end ModelicaFold.Value
