import ModelicaFold.Proofs.Deferral.Filled
import ModelicaFold.Proofs.Shape.Operators

/-!
# Values in which every array has a dimension

An array value carries a list of sizes, which nothing in its type keeps from being empty. A value is
ranked if every array in it, however deep, has at least one size; the sizes need not be in step with
the nesting. All that builds or changes arrays gives ranked values of ranked ones.
-/

namespace ModelicaFold

/-! ## Outcomes -/

namespace Outcome

variable {α β : Type} {P Q : α → Prop} {R : β → Prop}

/-- If there is a value, it has a property. -/
def Ensures (P : α → Prop) (o : Outcome α) : Prop := ∀ a, o = .ok a → P a

/-- A value with the property ensures it. -/
theorem ensures_ok {a : α} (h : P a) : Ensures P (.ok a) := fun _ ha => by
  cases ha
  exact h

/-- A failure ensures anything. -/
theorem ensures_error (f : Failure) : Ensures P (.error f) := nofun

/-- A failure with a cause ensures anything. -/
theorem ensures_fail (c : Cause) : Ensures P c.fail := nofun

/-- A refusal ensures anything. -/
theorem ensures_refuse (what want : String) (got : Value) :
    Ensures P (Value.refuse what want got) := nofun

/-- Every computation ensures what is always true. -/
theorem ensures_true (o : Outcome α) : o.Ensures fun _ => True := fun _ _ => trivial

namespace Ensures

/-- A sequence ensures what its second part does after the first. -/
theorem bind {x : Outcome α} {k : α → Outcome β} (hx : x.Ensures P)
    (hk : ∀ a, P a → (k a).Ensures R) : Outcome.Ensures R (x >>= k) := by
  intro b h
  obtain ⟨a, ha, hb⟩ := bind_eq_ok.mp h
  exact hk a (hx a ha) b hb

/-- What comes before may give anything. -/
theorem after {x : Outcome α} {k : α → Outcome β} (hk : ∀ a, (k a).Ensures R) :
    Outcome.Ensures R (x >>= k) :=
  (ensures_true x).bind fun a _ => hk a

/-- A function applied to the result ensures what it makes of the property. -/
theorem map {x : Outcome α} {f : α → β} (hx : x.Ensures P) (hf : ∀ a, P a → R (f a)) :
    Outcome.Ensures R (x.map f) := by
  intro b h
  obtain ⟨a, ha, rfl⟩ := map_eq_ok.mp h
  exact hf a (hx a ha)

/-- A choice ensures what both its branches do. -/
theorem ite {c : Prop} [Decidable c] {x y : Outcome α} (hx : c → x.Ensures P)
    (hy : ¬c → y.Ensures P) : Ensures P (if c then x else y) := by
  by_cases h : c
  · rw [if_pos h]
    exact hx h
  · rw [if_neg h]
    exact hy h

/-- Mapping a list ensures a property of all results if each step does. -/
theorem mapM {f : α → Outcome β} {items : List α} (h : ∀ a ∈ items, (f a).Ensures R) :
    Outcome.Ensures (fun results => ∀ b ∈ results, R b) (items.mapM f) := by
  intro results hresults b hb
  obtain ⟨a, ha, hab⟩ := mem_of_mapM_eq_ok hresults hb
  exact h a ha b hab

/-- A fold ensures a property that each step keeps. -/
theorem foldlM {f : β → α → Outcome β} {items : List α} {b : β} (hb : R b)
    (h : ∀ b, ∀ a ∈ items, R b → (f b a).Ensures R) : Outcome.Ensures R (items.foldlM f b) := by
  induction items generalizing b with
  | nil => exact ensures_ok hb
  | cons a items ih =>
    rw [List.foldlM_cons]
    refine (h b a List.mem_cons_self hb).bind fun b' hb' => ih hb' fun b a ha => ?_
    exact h b a (List.mem_cons_of_mem _ ha)

end Ensures

end Outcome

namespace Value

open Outcome (Ensures ensures_ok ensures_fail ensures_refuse)

/-! ## Ranked values -/

/-- Every array in a value has a dimension. -/
def Ranked (v : Value) : Prop := v.Everywhere fun w => w.isArray = true → w.dims ≠ []

/-- A value is ranked if it has a dimension, where it is an array, and its parts are ranked. -/
theorem ranked_iff {v : Value} :
    v.Ranked ↔ (v.isArray = true → v.dims ≠ []) ∧ ∀ w ∈ v.parts, w.Ranked :=
  everywhere_iff

/-- The parts of a ranked value are ranked. -/
theorem Ranked.parts {v : Value} (h : v.Ranked) : ∀ w ∈ v.parts, w.Ranked := Everywhere.parts h

/-- A value that is no array is ranked if its parts are. -/
theorem ranked_of_parts {v : Value} (harray : v.isArray = false) (h : ∀ w ∈ v.parts, w.Ranked) :
    v.Ranked :=
  ranked_iff.mpr ⟨fun hv => (by rw [harray] at hv; cases hv), h⟩

/-- An array is ranked if it has a dimension and its elements are ranked. -/
@[simp]
theorem ranked_array {elements : Array Value} {dims : List Nat} :
    (Value.array elements dims).Ranked ↔ dims ≠ [] ∧ ∀ v ∈ elements.toList, v.Ranked := by
  rw [ranked_iff]
  exact and_congr_left fun _ => ⟨fun h => h rfl, fun h _ => h⟩

/-- A list is ranked if its elements are. -/
@[simp]
theorem ranked_list {elements : Array Value} :
    (Value.list elements).Ranked ↔ ∀ v ∈ elements.toList, v.Ranked :=
  ⟨Ranked.parts, fun h => ranked_of_parts rfl h⟩

/-- A tuple is ranked if its elements are. -/
@[simp]
theorem ranked_tuple {elements : List Value} :
    (Value.tuple elements).Ranked ↔ ∀ v ∈ elements, v.Ranked :=
  ⟨Ranked.parts, fun h => ranked_of_parts rfl h⟩

/-- A record is ranked if its fields are. -/
@[simp]
theorem ranked_record {path : Path} {fields : List Value} {names : List String} {index : Int} :
    (Value.record path fields names index).Ranked ↔ ∀ v ∈ fields, v.Ranked :=
  ⟨Ranked.parts, fun h => ranked_of_parts rfl h⟩

/-- A present option is ranked if its content is. -/
@[simp]
theorem ranked_present {content : Value} : (Value.present content).Ranked ↔ content.Ranked :=
  ⟨fun h => h.parts content List.mem_cons_self,
    fun h => ranked_of_parts rfl (List.forall_mem_singleton.mpr h)⟩

/-- A boxed value is ranked if its content is. -/
@[simp]
theorem ranked_boxed {content : Value} : (Value.boxed content).Ranked ↔ content.Ranked :=
  ⟨fun h => h.parts content List.mem_cons_self,
    fun h => ranked_of_parts rfl (List.forall_mem_singleton.mpr h)⟩

/-- A value without parts that is no array. -/
theorem ranked_of_parts_eq_nil {v : Value} (hparts : v.parts = []) (h : v.isArray = false) :
    v.Ranked :=
  ranked_of_parts h fun w hw => by
    rw [hparts] at hw
    cases hw

/-- A value that holds no other value is ranked. -/
theorem IsAtom.ranked {v : Value} (h : v.IsAtom) : v.Ranked := by
  cases v <;> first | exact ranked_of_parts_eq_nil rfl rfl | cases h

/-- Sizes that are in step with the nesting are not none at all. -/
theorem Consistent.ranked {v : Value} (h : v.Consistent) : v.Ranked := by
  refine Everywhere.mono (fun w hw harray hdims => ?_) h
  cases w with
  | array elements dims =>
    have hdims : dims = [] := hdims
    rw [hdims] at hw
    exact hw
  | _ => cases harray

/-! ## Building and taking apart -/

variable {vs : List Value}

/-- An array built of ranked values is ranked. -/
theorem ranked_arrayOf (h : ∀ v ∈ vs, v.Ranked) : (arrayOf vs).Ranked :=
  ranked_array.mpr ⟨List.cons_ne_nil _ _, h⟩

/-- A vector of ranked values is ranked. -/
theorem ranked_vector (h : ∀ v ∈ vs, v.Ranked) : (vector vs).Ranked :=
  ranked_array.mpr ⟨List.cons_ne_nil _ _, h⟩

/-- A list of ranked values is ranked. -/
theorem ranked_listOf (h : ∀ v ∈ vs, v.Ranked) : (listOf vs).Ranked := ranked_list.mpr h

/-- A matrix of ranked entries is ranked. -/
theorem ranked_matrix {rows : List (List Value)} (h : ∀ row ∈ rows, ∀ v ∈ row, v.Ranked)
    (columns : Nat) : (matrix rows columns).Ranked := by
  refine ranked_array.mpr ⟨List.cons_ne_nil _ _, fun v hv => ?_⟩
  obtain ⟨row, hrow, rfl⟩ := List.mem_map.mp hv
  exact ranked_array.mpr ⟨List.cons_ne_nil _ _, h row hrow⟩

/-- An array without elements is ranked if it has a dimension. -/
theorem ranked_empty {dims : List Nat} (h : dims ≠ []) : (Value.array #[] dims).Ranked :=
  ranked_array.mpr ⟨h, List.forall_mem_nil _⟩

namespace Ranked

variable {v : Value}

/-- A ranked value is ranked without its box. -/
theorem unboxed (h : v.Ranked) : v.unboxed.Ranked := by
  induction v using Value.unboxed.induct with
  | case1 content ih => exact ih (ranked_boxed.mp h)
  | case2 v hv =>
    rw [Value.unboxed]
    · exact h
    · exact hv

/-- The elements of a ranked array or list are ranked. -/
theorem elements (h : v.Ranked) {elements : Array Value} (hv : v.elements? = some elements) :
    ∀ w ∈ elements.toList, w.Ranked := by
  cases v with
  | array elements dims =>
    cases hv
    exact h.parts
  | list elements =>
    cases hv
    exact h.parts
  | _ => cases hv

/-- The list of the elements of a ranked value is ranked. -/
theorem elementList (h : v.Ranked) : ∀ w ∈ v.elementList, w.Ranked := by
  unfold Value.elementList
  cases hv : v.elements? with
  | some elements => exact h.elements hv
  | none => exact nofun

/-- The leaves of a ranked value are ranked. -/
theorem flatten (h : v.Ranked) : ∀ w ∈ v.flatten, w.Ranked := by
  induction v using arrayInduction with
  | leaf v hv =>
    rw [flatten_leaf hv]
    exact List.forall_mem_singleton.mpr h
  | array elements dims ih =>
    intro w hw
    rw [Value.flatten, flattenAll_eq_flatMap, List.mem_flatMap] at hw
    obtain ⟨x, hx, hw⟩ := hw
    exact ih x hx (h.parts x hx) w hw

/-- An element selected from a ranked value is ranked. -/
theorem select (h : v.Ranked) (i : Int) : (v.select i).Ensures Ranked := by
  cases v with
  | array elements dims =>
    intro w hw
    rw [Value.select, nth_eq] at hw
    cases hitem : nth? elements.toList i with
    | none => simp [hitem] at hw
    | some item =>
      simp only [hitem, Except.ok.injEq] at hw
      rw [← hw]
      exact h.parts item (List.mem_of_getElem? (nth?_eq_some_iff.mp hitem).2)
  | _ => exact ensures_refuse _ _ _

/-- A field of a ranked value is ranked. -/
theorem field? (h : v.Ranked) {name : String} {w : Value} (hw : v.field? name = some w) :
    w.Ranked := by
  cases v with
  | record path fields names index =>
    rw [field?_record] at hw
    obtain ⟨i, -, hi⟩ := Option.bind_eq_some_iff.mp hw
    exact h.parts w (List.mem_of_getElem? hi)
  | _ => cases hw

/-- A field projected from a ranked value is ranked. -/
theorem project (h : v.Ranked) (name : String) : (v.project name).Ensures Ranked := by
  induction v using arrayInduction with
  | leaf v hleaf =>
    cases v with
    | array elements dims => cases hleaf
    | record path fields names index =>
      rw [Value.project]
      cases hfield : Value.field? name (.record path fields names index) with
      | some w => exact ensures_ok (h.field? hfield)
      | none => exact ensures_fail _
    | _ => exact ensures_refuse _ _ _
  | array elements dims ih =>
    cases elements with
    | nil => exact ensures_ok h
    | cons v vs =>
      rw [Value.project, projectAll_eq_mapM]
      have hparts := h.parts
      exact Ensures.map (.mapM fun w hw => ih w hw (hparts w hw)) fun ws hws => ranked_arrayOf hws

/-! ## Leaves -/

/-- Mapping the leaves of a ranked value gives a ranked one if the results are. -/
theorem mapLeaves {f : Value → Outcome Value} (hf : ∀ w, w.Ranked → (f w).Ensures Ranked)
    (h : v.Ranked) : Ensures Ranked (v.mapLeaves f) := by
  induction v using arrayInduction with
  | leaf v hv =>
    rw [mapLeaves_leaf hv]
    exact hf v h
  | array elements dims ih =>
    rw [Value.mapLeaves, mapAllLeaves_eq_mapM]
    obtain ⟨hdims, hparts⟩ := ranked_array.mp h
    refine Ensures.map (.mapM fun w hw => ih w hw (hparts w hw)) fun ws hws => ?_
    exact ranked_array.mpr ⟨hdims, hws⟩

/-- Combining leaves to atoms gives a ranked value if the first value is ranked. -/
theorem zipLeaves {f : Value → Value → Outcome Value}
    (hf : ∀ x y z, f x y = .ok z → z.IsAtom) {x y z : Value} (hx : x.Ranked)
    (h : x.zipLeaves f y = some (.ok z)) : z.Ranked := by
  induction x using arrayInduction generalizing y z with
  | leaf x hleaf => exact (hf x y z (zipLeaves_leaf hleaf h)).ranked
  | array elements dims ih =>
    obtain ⟨hdims, hparts⟩ := ranked_array.mp hx
    cases y with
    | array others dims' =>
      obtain ⟨others⟩ := others
      rw [Value.zipLeaves] at h
      split at h
      · rename_i hfit
        obtain ⟨r, hr, hz⟩ := Option.map_eq_some_iff.mp h
        obtain ⟨zs, rfl, rfl⟩ := Outcome.map_eq_ok.mp hz
        obtain ⟨-, hzs⟩ := zipAllLeaves_eq_ok hfit.2 hr
        refine ranked_array.mpr ⟨hdims, fun w hw => ?_⟩
        obtain ⟨x', hx', y', -, hxy⟩ := hzs w hw
        exact ih x' hx' (hparts x' hx') hxy
      · cases h
    | _ => cases h

/-- Combining leaves to atoms gives a ranked value if there is one. -/
theorem orShape {f : Value → Value → Outcome Value} (hf : ∀ x y z, f x y = .ok z → z.IsAtom)
    {x : Value} (hx : x.Ranked) (y : Value) (message : String) :
    (Value.orShape (x.zipLeaves f y) message).Ensures Ranked := by
  intro z hz
  cases hzip : x.zipLeaves f y with
  | none =>
    rw [hzip] at hz
    cases hz
  | some o =>
    rw [hzip] at hz
    exact hx.zipLeaves hf (hzip.trans (congrArg some hz))

end Ranked

/-! ## Shapes -/

/-- An identity matrix is ranked. -/
theorem ranked_identity (n : Nat) (like : Value) : (identity n like).Ranked := by
  refine ranked_matrix (fun row hrow v hv => ?_) n
  obtain ⟨i, -, rfl⟩ := List.mem_map.mp hrow
  obtain ⟨j, -, rfl⟩ := List.mem_map.mp hv
  cases like <;> dsimp only <;> split <;> exact IsAtom.ranked trivial

/-- An array filled with a ranked value is ranked. -/
theorem Ranked.fill {v : Value} (h : v.Ranked) (sizes : List Nat) : (v.fill sizes).Ranked := by
  induction sizes with
  | nil => exact h
  | cons n sizes ih =>
    cases n with
    | zero => exact ranked_empty (List.cons_ne_nil _ _)
    | succ n =>
      refine ranked_array.mpr ⟨List.cons_ne_nil _ _, fun w hw => ?_⟩
      rw [Array.toList_replicate] at hw
      rw [List.eq_of_mem_replicate hw]
      exact ih

/-- Ranked values nested by a construction that keeps them ranked are ranked. -/
theorem ranked_nest {make : List Value → Value}
    (hmake : ∀ vs : List Value, (∀ v ∈ vs, v.Ranked) → (make vs).Ranked) {flat : List Value}
    (hflat : ∀ v ∈ flat, v.Ranked) (sizes : List Nat) : (nest make flat sizes).Ranked := by
  induction sizes generalizing flat with
  | nil => exact hmake flat hflat
  | cons n inner ih =>
    cases inner with
    | nil => exact hmake flat hflat
    | cons m inner =>
      rw [nest]
      split
      · split
        · exact ranked_empty (List.cons_ne_nil _ _)
        · exact hmake [] (List.forall_mem_nil _)
      · refine hmake _ fun v hv => ?_
        obtain ⟨piece, hpiece, rfl⟩ := List.mem_map.mp hv
        exact ih fun w hw => hflat w (mem_of_mem_chunks hpiece w hw)

/-- An array built of a flat list of ranked values is ranked. -/
theorem ranked_fromFlat {flat : List Value} (hflat : ∀ v ∈ flat, v.Ranked) (sizes : List Nat) :
    (fromFlat flat sizes).Ranked := by
  induction sizes generalizing flat with
  | nil => exact ranked_vector hflat
  | cons n inner ih =>
    cases inner with
    | nil => exact ranked_array.mpr ⟨List.cons_ne_nil _ _, hflat⟩
    | cons m inner =>
      refine ranked_array.mpr ⟨List.cons_ne_nil _ _, fun v hv => ?_⟩
      obtain ⟨piece, hpiece, rfl⟩ := List.mem_map.mp hv
      exact ih fun w hw => hflat w (mem_of_mem_chunks hpiece w hw)

end Value

end ModelicaFold
