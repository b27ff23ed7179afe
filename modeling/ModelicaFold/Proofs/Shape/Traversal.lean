import ModelicaFold.Proofs.Shape.Nesting
import ModelicaFold.Value.Convert

/-!
# Leaves in row-major order

`mapLeaves` and `zipLeaves` go through the leaves of arrays from the first on and keep the nesting.
The order in which they do it shows in the failure they come to. To say it apart from failures, the
same traversals are written for leaf functions with effects of any kind (`traverseLeaves`,
`traversePairs`): those are the ones of a sequence, the listed leaves, taken one after the other.

Nesting, listing and the traversals together are `leaves_in_order`.
-/

namespace ModelicaFold.Value

/-! ## Leaf functions with effects -/

section

variable {m : Type → Type} [Monad m]

mutual

/-- Replaces every leaf, from the first on, by what `f` makes of it, and keeps the sizes. -/
def traverseLeaves (f : Value → m Value) : Value → m Value
  | .array ⟨elements⟩ dims => do
    let results ← traverseAllLeaves f elements
    return .array results.toArray dims
  | other => f other

def traverseAllLeaves (f : Value → m Value) : List Value → m (List Value)
  | [] => return []
  | v :: vs => do
    let w ← traverseLeaves f v
    let ws ← traverseAllLeaves f vs
    return w :: ws

end

mutual

/-- Combines the leaves of two values, from the first pair on, keeping the sizes; fails where the
shapes differ. -/
def traversePairs (f : Value → Value → m Value) : Value → Value → OptionT m Value
  | .array ⟨xs⟩ dims, .array ⟨ys⟩ dims' =>
    if dims = dims' ∧ xs.length = ys.length then do
      let results ← traverseAllPairs f xs ys
      return .array results.toArray dims
    else failure
  | .array _ _, _ => failure
  | x, y => if y.isArray then failure else OptionT.lift (f x y)

def traverseAllPairs (f : Value → Value → m Value) :
    List Value → List Value → OptionT m (List Value)
  | x :: xs, y :: ys => do
    let z ← traversePairs f x y
    let zs ← traverseAllPairs f xs ys
    return z :: zs
  | _, _ => return []

end

/-- The only step at a leaf is the one of the leaf. -/
theorem traverseLeaves_leaf {f : Value → m Value} {v : Value} (h : v.isArray = false) :
    v.traverseLeaves f = f v := by
  cases v <;> first | rfl | cases h

/-- The only step at two leaves is the one of the pair. -/
theorem traversePairs_leaves {f : Value → Value → m Value} {v w : Value} (hv : v.isArray = false)
    (hw : w.isArray = false) : v.traversePairs f w = OptionT.lift (f v w) := by
  cases v with
  | array elements dims => cases hv
  | _ => simp [traversePairs, hw]

/-- A step that gives no array: what it gives is its own only leaf. -/
def GivesLeaf (x : m Value) : Prop := flatten <$> x = (fun v => [v]) <$> x

variable [LawfulMonad m]

/-- The leaf function is applied to one leaf after the other, as they are listed. -/
theorem flatten_traverseLeaves {f : Value → m Value}
    (hf : ∀ x, x.isArray = false → GivesLeaf (f x)) (v : Value) :
    flatten <$> v.traverseLeaves f = v.flatten.mapM f := by
  induction v using arrayInduction with
  | leaf v hv =>
    rw [traverseLeaves_leaf hv, flatten_leaf hv, hf v hv]
    simp
  | array elements dims ih =>
    have hall : List.flatMap flatten <$> traverseAllLeaves f elements
        = (elements.flatMap flatten).mapM f := by
      induction elements with
      | nil => simp [traverseAllLeaves]
      | cons v vs ihvs =>
        obtain ⟨hv, hvs⟩ := List.forall_mem_cons.mp ih
        rw [List.flatMap_cons, List.mapM_append, ← hv, ← ihvs hvs]
        simp [traverseAllLeaves]
    rw [flatten, flattenAll_eq_flatMap, ← hall, traverseLeaves]
    simp [flatten_array]

/-- A function is applied to the result before or after lifting. -/
theorem lift_map {α β : Type} (g : α → β) (x : m α) :
    OptionT.lift (g <$> x) = g <$> OptionT.lift x := by
  rw [map_eq_pure_bind, OptionT.lift_bind]
  simp

/-- The leaf function is applied to one pair of leaves after the other. -/
theorem flatten_traversePairs {f : Value → Value → m Value}
    (hf : ∀ x y, x.isArray = false → y.isArray = false → GivesLeaf (f x y)) {dims : List Nat}
    {v w : Value} (hv : v.HasDims dims) (hw : w.HasDims dims) :
    flatten <$> v.traversePairs f w
      = OptionT.lift ((v.flatten.zip w.flatten).mapM fun p => f p.1 p.2) := by
  induction dims generalizing v w with
  | nil =>
    rw [traversePairs_leaves hv hw, flatten_leaf hv, flatten_leaf hw, ← lift_map, hf v w hv hw]
    simp
  | cons n inner ih =>
    obtain ⟨xs, rfl, rfl, hxs⟩ := hv
    obtain ⟨ys, rfl, hlength, hys⟩ := hw
    have hall : List.flatMap flatten <$> traverseAllPairs f xs ys
        = OptionT.lift (((xs.flatMap flatten).zip (ys.flatMap flatten)).mapM
          fun p => f p.1 p.2) := by
      induction xs generalizing ys with
      | nil => simp [traverseAllPairs]
      | cons x xs ihxs =>
        obtain ⟨y, ys, rfl⟩ := List.exists_cons_of_length_eq_add_one hlength
        obtain ⟨hx, hxs⟩ := List.forall_mem_cons.mp hxs
        obtain ⟨hy, hys⟩ := List.forall_mem_cons.mp hys
        have hleaves : x.flatten.length = y.flatten.length := by
          rw [hx.length_flatten, hy.length_flatten]
        rw [List.flatMap_cons, List.flatMap_cons, List.zip_append hleaves, List.mapM_append,
          OptionT.lift_bind, ← ih hx hy]
        simp only [OptionT.lift_bind, ← ihxs hxs ys (Nat.succ.inj hlength) hys]
        simp [traverseAllPairs]
    rw [flatten_array, flatten_array, ← hall, traversePairs, if_pos ⟨rfl, hlength.symm⟩]
    simp [flatten_array]

end

/-! ## Leaf functions that may fail -/

section

variable {ε : Type} {dims : List Nat}

/-- A computation gives leaves if every value that it gives is one. -/
theorem givesLeaf_iff {r : Except ε Value} :
    GivesLeaf r ↔ ∀ v, r = .ok v → v.isArray = false := by
  cases r with
  | error e => exact ⟨fun _ => nofun, fun _ => rfl⟩
  | ok v =>
    have hleaf : GivesLeaf (.ok v : Except ε Value) ↔ v.flatten = [v] :=
      ⟨fun h => Except.ok.inj h, fun h => congrArg Except.ok h⟩
    rw [hleaf]
    constructor
    · rintro h _ ⟨⟩
      exact isArray_of_mem_flatten (h ▸ List.mem_singleton_self v)
    · exact fun h => flatten_leaf (h v rfl)

/-- Without any other effect the traversal is `mapLeaves`. -/
theorem mapLeaves_eq_traverseLeaves (f : Value → Except ε Value) (v : Value) :
    v.mapLeaves f = v.traverseLeaves f := by
  induction v using arrayInduction with
  | leaf v hv => rw [mapLeaves_leaf hv, traverseLeaves_leaf hv]
  | array elements dims ih =>
    have hall : mapAllLeaves f elements = traverseAllLeaves f elements := by
      induction elements with
      | nil => rfl
      | cons v vs ihvs =>
        obtain ⟨hv, hvs⟩ := List.forall_mem_cons.mp ih
        rw [mapAllLeaves, traverseAllLeaves, hv, ihvs hvs]
        cases v.traverseLeaves f with
        | error e => rfl
        | ok w => cases traverseAllLeaves f vs <;> rfl
    rw [mapLeaves, traverseLeaves, hall]
    cases traverseAllLeaves f elements <;> rfl

/-- A combination of leaves as a step: it fails apart from its leaf function if the shapes differ.
-/
def zipStep {α : Type} : Option (Except ε α) → OptionT (Except ε) α
  | none => failure
  | some r => OptionT.lift r

/-- Without any other effect the traversal of two values is `zipLeaves`. -/
theorem zipStep_zipLeaves (f : Value → Value → Except ε Value) (v w : Value) :
    zipStep (v.zipLeaves f w) = v.traversePairs f w := by
  induction v using arrayInduction generalizing w with
  | leaf v hv =>
    cases v with
    | array elements dims => cases hv
    | _ =>
      simp only [zipLeaves, traversePairs]
      split <;> rfl
  | array xs dims ih =>
    cases w with
    | array ys dims' =>
      obtain ⟨ys⟩ := ys
      have hall : zipStep (zipAllLeaves f xs ys) = traverseAllPairs f xs ys := by
        induction xs generalizing ys with
        | nil => rfl
        | cons x xs ihxs =>
          obtain ⟨hx, hxs⟩ := List.forall_mem_cons.mp ih
          cases ys with
          | nil => rfl
          | cons y ys =>
            rw [zipAllLeaves, traverseAllPairs, ← hx, ← ihxs hxs]
            rcases x.zipLeaves f y with _ | _ | z
            · rfl
            · rfl
            · rcases zipAllLeaves f xs ys with _ | _ | zs <;> rfl
      rw [zipLeaves, traversePairs, ← hall]
      split
      · rcases zipAllLeaves f xs ys with _ | _ | zs <;> rfl
      · rfl
    | _ => rfl

/-- What leaves are made into keeps the nesting. -/
theorem HasDims.mapLeaves {f : Value → Except ε Value}
    (hf : ∀ x y, x.isArray = false → f x = .ok y → y.isArray = false) {v w : Value}
    (hv : v.HasDims dims) (h : v.mapLeaves f = .ok w) : w.HasDims dims := by
  induction dims generalizing v w with
  | nil =>
    rw [mapLeaves_leaf hv] at h
    exact hf v w hv h
  | cons n inner ih =>
    obtain ⟨elements, rfl, rfl, hall⟩ := hv
    rw [Value.mapLeaves, mapAllLeaves_eq_mapM] at h
    obtain ⟨mapped, hmapped, rfl⟩ := Outcome.map_eq_ok.mp h
    refine ⟨mapped, rfl, Outcome.length_of_mapM_eq_ok hmapped, fun x hx => ?_⟩
    obtain ⟨y, hy, hyx⟩ := Outcome.mem_of_mapM_eq_ok hmapped hx
    exact ih (hall y hy) hyx

/-- What pairs of leaves are made into keeps the nesting. -/
theorem HasDims.zipLeaves {f : Value → Value → Except ε Value}
    (hf : ∀ x y z, x.isArray = false → y.isArray = false → f x y = .ok z → z.isArray = false)
    {v w z : Value} (hv : v.HasDims dims) (hw : w.HasDims dims)
    (h : v.zipLeaves f w = some (.ok z)) : z.HasDims dims := by
  induction dims generalizing v w z with
  | nil => exact hf v w z hv hw (zipLeaves_leaf hv h)
  | cons n inner ih =>
    obtain ⟨xs, rfl, rfl, hxs⟩ := hv
    obtain ⟨ys, rfl, hlength, hys⟩ := hw
    rw [Value.zipLeaves, if_pos ⟨rfl, hlength.symm⟩] at h
    obtain ⟨r, hr, hz⟩ := Option.map_eq_some_iff.mp h
    obtain ⟨zs, rfl, rfl⟩ := Outcome.map_eq_ok.mp hz
    obtain ⟨hzslength, hzs⟩ := zipAllLeaves_eq_ok hlength.symm hr
    refine ⟨zs, rfl, hzslength, fun z hz => ?_⟩
    obtain ⟨x, hx, y, hy, hxy⟩ := hzs z hz
    exact ih (hxs x hx) (hys y hy) hxy

/-- What comes of applying `f` to items from the first on and nesting the results by sizes: a value
whose leaves are the results, or the failure of the first item that has none. -/
structure NestsResults {α : Type} (dims : List Nat) (items : List α) (f : α → Except ε Value)
    (r : Except ε Value) : Prop where
  ok : ∀ w, r = .ok w ↔
    w.HasDims dims ∧ List.Forall₂ (fun a leaf => f a = .ok leaf) items w.flatten
  error : ∀ e, r = .error e ↔
    ∃ before a after, items = before ++ a :: after ∧ (∀ b ∈ before, ∃ leaf, f b = .ok leaf)
      ∧ f a = .error e

/-- A traversal that keeps sizes and lists the results in order nests them. -/
theorem NestsResults.of_flatten {α : Type} {items : List α} {f : α → Except ε Value}
    {r : Except ε Value} (hdims : ∀ w, r = .ok w → w.HasDims dims)
    (h : r.map flatten = items.mapM f) : NestsResults dims items f r where
  ok w := by
    constructor
    · rintro rfl
      exact ⟨hdims w rfl, Outcome.mapM_eq_ok.mp h.symm⟩
    · rintro ⟨hw, hall⟩
      rw [Outcome.mapM_eq_ok.mpr hall] at h
      obtain ⟨w', hr, hleaves⟩ := Outcome.map_eq_ok.mp h
      rw [hr, (hdims w' hr).ext hw hleaves]
  error e := by
    rw [← Outcome.mapM_eq_error, ← h]
    cases r <;> simp [Except.map]

/-- Mapping leaves nests the results for the leaves in order. -/
theorem HasDims.nestsResults_mapLeaves {f : Value → Except ε Value}
    (hf : ∀ x y, x.isArray = false → f x = .ok y → y.isArray = false) {v : Value}
    (hv : v.HasDims dims) : NestsResults dims v.flatten f (v.mapLeaves f) := by
  refine .of_flatten (fun w hw => hv.mapLeaves hf hw) ?_
  rw [mapLeaves_eq_traverseLeaves]
  exact flatten_traverseLeaves (fun x hx => givesLeaf_iff.mpr fun y => hf x y hx) v

/-- Combining leaves nests the results for the pairs of leaves in order. -/
theorem HasDims.nestsResults_zipLeaves {f : Value → Value → Except ε Value}
    (hf : ∀ x y z, x.isArray = false → y.isArray = false → f x y = .ok z → z.isArray = false)
    {v w : Value} (hv : v.HasDims dims) (hw : w.HasDims dims) :
    ∃ r, v.zipLeaves f w = some r
      ∧ NestsResults dims (v.flatten.zip w.flatten) (fun p => f p.1 p.2) r := by
  have hpairs := flatten_traversePairs
    (fun x y hx hy => givesLeaf_iff.mpr fun z => hf x y z hx hy) hv hw
  rw [← zipStep_zipLeaves] at hpairs
  generalize hleaves : (v.flatten.zip w.flatten).mapM (fun p => f p.1 p.2) = leaves at hpairs
  cases hr : v.zipLeaves f w with
  | none =>
    -- what a sequence stops for is a failure of `f`
    rw [hr] at hpairs
    cases leaves <;> cases hpairs
  | some r =>
    refine ⟨r, rfl, .of_flatten (fun z hz => hv.zipLeaves hf hw (hz ▸ hr)) ?_⟩
    rw [hr] at hpairs
    rw [hleaves]
    cases r <;> cases leaves <;> cases hpairs <;> rfl

end

/-! ## The guarantee -/

/-- For a value that is nested as sizes tell: an array is nested again from its leaves, and nesting
leaves loses none of them, as long as their number is a word. A leaf function that gives no arrays
is applied to the leaves in their order, up to the first that it fails on; the result is nested as
the operand is. Two values are combined pair by pair in the same way if their sizes are the same,
and not at all if they differ. Whatever effects a leaf function has, they are those of applying it
to the listed leaves one after the other. -/
theorem leaves_in_order {dims : List Nat} {v : Value} (hv : v.HasDims dims) :
    (dims ≠ [] → v.flatten.length < wordCount → fromFlat v.flatten dims = v)
      ∧ (∀ (sizes : List Nat) (flat : List Value), sizes ≠ [] → flat.length = leafCount sizes →
        flat.length < wordCount → (∀ x ∈ flat, x.isArray = false) →
        (fromFlat flat sizes).HasDims sizes ∧ (fromFlat flat sizes).flatten = flat)
      ∧ (∀ {ε : Type} (f : Value → Except ε Value),
        (∀ x y, x.isArray = false → f x = .ok y → y.isArray = false) →
        NestsResults dims v.flatten f (v.mapLeaves f))
      ∧ (∀ {ε : Type} (f : Value → Value → Except ε Value),
        (∀ x y z, x.isArray = false → y.isArray = false → f x y = .ok z → z.isArray = false) →
        ∀ {dims' : List Nat} {w : Value}, w.HasDims dims' →
        (v.zipLeaves f w = none ↔ dims ≠ dims')
          ∧ (dims = dims' → ∃ r, v.zipLeaves f w = some r
            ∧ NestsResults dims (v.flatten.zip w.flatten) (fun p => f p.1 p.2) r))
      ∧ (∀ {ε : Type} (f : Value → Except ε Value), v.mapLeaves f = v.traverseLeaves f)
      ∧ (∀ {m : Type → Type} [Monad m] [LawfulMonad m] (f : Value → m Value),
        (∀ x, x.isArray = false → GivesLeaf (f x)) →
        flatten <$> v.traverseLeaves f = v.flatten.mapM f)
      ∧ (∀ {ε : Type} (f : Value → Value → Except ε Value) (w : Value),
        zipStep (v.zipLeaves f w) = v.traversePairs f w)
      ∧ (∀ {m : Type → Type} [Monad m] [LawfulMonad m] (f : Value → Value → m Value),
        (∀ x y, x.isArray = false → y.isArray = false → GivesLeaf (f x y)) →
        ∀ {w : Value}, w.HasDims dims →
        flatten <$> v.traversePairs f w
          = OptionT.lift ((v.flatten.zip w.flatten).mapM fun p => f p.1 p.2)) := by
  refine ⟨fun hdims hword => hv.fromFlat_flatten hdims hword,
    fun sizes flat hsizes hcount hword hflat => hasDims_fromFlat hsizes hflat hcount hword,
    fun f hf => hv.nestsResults_mapLeaves hf, ?_, fun f => mapLeaves_eq_traverseLeaves f v,
    fun f hf => flatten_traverseLeaves hf v, fun f w => zipStep_zipLeaves f v w,
    fun f hf w hw => flatten_traversePairs hf hv hw⟩
  intro ε f hf dims' w hw
  constructor
  · constructor
    · rintro hnone rfl
      obtain ⟨r, hr, -⟩ := hv.nestsResults_zipLeaves hf hw
      rw [hnone] at hr
      cases hr
    · intro hne
      apply zipLeaves_of_dims_ne
      rwa [hv.dims_eq, hw.dims_eq]
  · rintro rfl
    exact hv.nestsResults_zipLeaves hf hw

/-- A matrix that a cast to Real fails on at its third leaf, with its second row still to come. -/
theorem leaves_in_order_mixed :
    let grid := matrix [[.integer 1, .integer 2], [.string "a", .bool true]] 2
    grid.HasDims [2, 2] ∧ fromFlat grid.flatten [2, 2] = grid
      ∧ grid.mapLeaves castRealLeaf = .error (Failure.of .notConstant) := by
  intro grid
  have hgrid : grid.HasDims [2, 2] := by
    refine ⟨_, rfl, rfl, ?_⟩
    simp only [List.forall_mem_map, List.forall_mem_cons]
    exact ⟨⟨_, rfl, rfl, by simp [HasDims, isArray]⟩, ⟨_, rfl, rfl, by simp [HasDims, isArray]⟩,
      List.forall_mem_nil _⟩
  have hreal : ∀ x y, x.isArray = false → castRealLeaf x = .ok y → y.isArray = false := by
    intro x y hx h
    unfold castRealLeaf at h
    split at h <;> cases h <;> rfl
  obtain ⟨hback, -, hmap, -⟩ := leaves_in_order hgrid
  refine ⟨hgrid, hback (by decide) (by decide), ?_⟩
  rw [(hmap castRealLeaf hreal).error]
  exact ⟨[.integer 1, .integer 2], .string "a", [.bool true], rfl, by simp [castRealLeaf], rfl⟩

end ModelicaFold.Value
