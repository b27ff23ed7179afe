import ModelicaFold.Proofs.Parts
import ModelicaFold.Proofs.Shape.Leaves

/-!
# Values with placeholders filled in

Where variables without a value are deferred, placeholders stand for their values. `Value.Filled`
relates a value to one that has other values in the places of placeholders; all else is the same.
What is filled in for a variable that is no array is no array either. A parameter tells whether
arrays may be filled in at all: if so, the sizes that an array carries may change with the arrays in
it, and if not, both values have the same shape (`Filled.dims_eq`). A value without placeholders is
related to itself only (`Filled.eq_of_complete`).
-/

namespace ModelicaFold

/-- Whether the values of a type are arrays, boxes around them apart. -/
def Ty.holdsArray : Ty → Bool
  | .array _ _ => true
  | .boxed element => element.holdsArray
  | _ => false

namespace Value

/-! ## Placeholders -/

/-- The type of the variable that a placeholder stands for. -/
def placeholder? : Value → Option Ty
  | .empty _ _ ty => some ty
  | _ => none

/-- There is no placeholder in a value. -/
def Complete (v : Value) : Prop := v.Everywhere fun w => w.placeholder? = none

/-- There is no placeholder of an array in a value. -/
def Shaped (v : Value) : Prop :=
  v.Everywhere fun w => ∀ ty, w.placeholder? = some ty → ty.holdsArray = false

/-- A property that holds everywhere in a value is replaced by a weaker one. -/
theorem Everywhere.mono {P Q : Value → Prop} (hPQ : ∀ v, P v → Q v) {v : Value}
    (h : v.Everywhere P) : v.Everywhere Q := by
  induction h with
  | intro hv _ ih => exact .intro (hPQ _ hv) ih

/-- What holds everywhere in a value holds everywhere in its parts. -/
theorem Everywhere.parts {P : Value → Prop} {v : Value} (h : v.Everywhere P) :
    ∀ w ∈ v.parts, w.Everywhere P :=
  (everywhere_iff.mp h).2

/-- A value without placeholders has none of arrays. -/
theorem Complete.shaped {v : Value} (h : v.Complete) : v.Shaped :=
  Everywhere.mono (fun w hw ty hty => by rw [hw] at hty; cases hty) h

/-- A value that has no parts and is no placeholder. -/
theorem complete_atom {v : Value} (hparts : v.parts = []) (hv : v.placeholder? = none) :
    v.Complete :=
  .intro hv fun w hw => by rw [hparts] at hw; cases hw

/-- An array has no placeholders if its elements have none. -/
theorem complete_array {elements : Array Value} {dims : List Nat} :
    (Value.array elements dims).Complete ↔ ∀ v ∈ elements.toList, v.Complete :=
  ⟨fun h => h.parts, fun h => .intro rfl h⟩

/-- There is nothing more to take out of its box. -/
theorem unboxed_unboxed (v : Value) : v.unboxed.unboxed = v.unboxed := by
  induction v using partsInduction with
  | step v ih =>
    cases v with
    | boxed content => exact ih content List.mem_cons_self
    | _ => rfl

/-! ## Filling in -/

/-- A value that may be filled in for a variable of a type: an array only for an array, and only if
`arrays` is true. -/
def MayFill (arrays : Bool) (ty : Ty) (v : Value) : Prop :=
  (arrays = true ∧ ty.holdsArray = true) ∨ v.unboxed.isArray = false

/-- A value, and one that has other values in the places of placeholders. -/
inductive Filled (arrays : Bool) : Value → Value → Prop where
  | empty (scope name : String) {ty : Ty} {v : Value} (h : MayFill arrays ty v) :
      Filled arrays (.empty scope name ty) v
  | integer (n : Int) : Filled arrays (.integer n) (.integer n)
  | real (x : Float) : Filled arrays (.real x) (.real x)
  | bool (b : Bool) : Filled arrays (.bool b) (.bool b)
  | string (s : String) : Filled arrays (.string s) (.string s)
  | enumeration (path : Path) (index : Int) :
      Filled arrays (.enumeration path index) (.enumeration path index)
  | array {xs ys : Array Value} {dims dims' : List Nat}
      (h : List.Forall₂ (Filled arrays) xs.toList ys.toList)
      (hdims : dims' = dims ∨ (arrays = true ∧ ¬(Value.array xs dims).Shaped)) :
      Filled arrays (.array xs dims) (.array ys dims')
  | list {xs ys : Array Value} (h : List.Forall₂ (Filled arrays) xs.toList ys.toList) :
      Filled arrays (.list xs) (.list ys)
  | tuple {xs ys : List Value} (h : List.Forall₂ (Filled arrays) xs ys) :
      Filled arrays (.tuple xs) (.tuple ys)
  | record (path : Path) {xs ys : List Value} (names : List String) (index : Int)
      (h : List.Forall₂ (Filled arrays) xs ys) :
      Filled arrays (.record path xs names index) (.record path ys names index)
  | present {v w : Value} (h : Filled arrays v w) : Filled arrays (.present v) (.present w)
  | absent : Filled arrays .absent .absent
  | boxed {v w : Value} (h : Filled arrays v w) : Filled arrays (.boxed v) (.boxed w)
  | fail : Filled arrays .fail .fail
  | noReturn : Filled arrays .noReturn .noReturn
  | code (fragment : Fragment) : Filled arrays (.code fragment) (.code fragment)

/-- Values one by one with placeholders filled in. -/
abbrev AllFilled (arrays : Bool) : List Value → List Value → Prop := List.Forall₂ (Filled arrays)

namespace Filled

variable {arrays : Bool} {v w : Value}

/-- Nothing has to be filled in. -/
theorem refl (v : Value) : v.Filled arrays v := by
  induction v using partsInduction with
  | step v ih =>
    cases v with
    | integer n => exact .integer n
    | real x => exact .real x
    | bool b => exact .bool b
    | string s => exact .string s
    | enumeration path index => exact .enumeration path index
    | array elements dims => exact .array (List.forall₂_same.mpr ih) (.inl rfl)
    | list elements => exact .list (List.forall₂_same.mpr ih)
    | tuple elements => exact .tuple (List.forall₂_same.mpr ih)
    | record path fields names index => exact .record path names index (List.forall₂_same.mpr ih)
    | present content => exact .present (ih content List.mem_cons_self)
    | absent => exact .absent
    | boxed content => exact .boxed (ih content List.mem_cons_self)
    | fail => exact .fail
    | noReturn => exact .noReturn
    | code fragment => exact .code fragment
    | empty scope name ty => exact .empty scope name (.inr rfl)

/-- Every list of values is filled in by itself. -/
theorem refl_all (vs : List Value) : AllFilled arrays vs vs :=
  List.forall₂_same.mpr fun v _ => refl v

/-- Induction over the parts of the value that is filled in; the parts of both are related. -/
theorem parts_imp {R : Value → Value → Prop} {vs ws : List Value}
    (hvs : ∀ v ∈ vs, ∀ ⦃w : Value⦄, v.Filled arrays w → R v w) (h : AllFilled arrays vs ws) :
    List.Forall₂ R vs ws := by
  induction h with
  | nil => exact .nil
  | cons hvw _ ih =>
    obtain ⟨hv, hvs⟩ := List.forall_mem_cons.mp hvs
    exact .cons (hv hvw) (ih hvs)

/-- Arrays are allowed to be filled in, or there is no place for them. -/
theorem of_shaped {arrays' : Bool} (h : v.Filled arrays w)
    (harrays : arrays = false ∨ arrays' = true ∨ v.Shaped) : v.Filled arrays' w := by
  induction v using partsInduction generalizing w with
  | step v ih =>
    have hparts : ∀ u ∈ v.parts, ∀ ⦃w : Value⦄, u.Filled arrays w → u.Filled arrays' w :=
      fun u hu w huw => ih u hu huw (harrays.imp_right fun h => h.imp_right fun h => h.parts u hu)
    cases h with
    | @empty scope name ty w hw =>
      refine .empty scope name ?_
      rcases hw with ⟨harray, hty⟩ | hw
      · rcases harrays with rfl | rfl | hshaped
        · cases harray
        · exact .inl ⟨rfl, hty⟩
        · exact absurd hty (by rw [(everywhere_iff.mp hshaped).1 ty rfl]; exact Bool.false_ne_true)
      · exact .inr hw
    | array hall hdims =>
      refine .array (parts_imp hparts hall) ?_
      rcases hdims with hdims | ⟨harray, hdims⟩
      · exact .inl hdims
      · rcases harrays with rfl | rfl | hshaped
        · cases harray
        · exact .inr ⟨rfl, hdims⟩
        · exact absurd hshaped hdims
    | list hall => exact .list (parts_imp hparts hall)
    | tuple hall => exact .tuple (parts_imp hparts hall)
    | record path names index hall => exact .record path names index (parts_imp hparts hall)
    | present hcontent => exact .present (hparts _ List.mem_cons_self hcontent)
    | boxed hcontent => exact .boxed (hparts _ List.mem_cons_self hcontent)
    | _ => exact refl _

/-- A list is filled in by itself only if each of its values is. -/
theorem all_eq {vs ws : List Value} (hvs : ∀ v ∈ vs, ∀ ⦃w : Value⦄, v.Filled arrays w → w = v)
    (h : AllFilled arrays vs ws) : ws = vs := by
  have heq := parts_imp (R := Eq) (fun v hv w hvw => (hvs v hv hvw).symm) h
  rw [List.forall₂_eq_eq_eq] at heq
  exact heq.symm

/-- Where there is no placeholder nothing is filled in. -/
theorem eq_of_complete (hv : v.Complete) (h : v.Filled arrays w) : w = v := by
  induction v using partsInduction generalizing w with
  | step v ih =>
    have hparts : ∀ u ∈ v.parts, ∀ ⦃w : Value⦄, u.Filled arrays w → w = u := fun u hu w huw =>
      ih u hu (hv.parts u hu) huw
    cases h with
    | empty => cases (everywhere_iff.mp hv).1
    | array hall hdims =>
      have hdims := hdims.resolve_right fun h => h.2 hv.shaped
      rw [hdims, Array.toList_inj.mp (all_eq hparts hall)]
    | list hall => rw [Array.toList_inj.mp (all_eq hparts hall)]
    | tuple hall => exact congrArg Value.tuple (all_eq hparts hall)
    | record path names index hall =>
      exact congrArg (Value.record path · names index) (all_eq hparts hall)
    | present hcontent => rw [hparts _ List.mem_cons_self hcontent]
    | boxed hcontent => rw [hparts _ List.mem_cons_self hcontent]
    | _ => rfl

/-- A list of values without placeholders is filled in by itself only. -/
theorem all_eq_of_complete {vs ws : List Value} (hvs : ∀ v ∈ vs, v.Complete)
    (h : AllFilled arrays vs ws) : ws = vs :=
  all_eq (fun v hv _ => eq_of_complete (hvs v hv)) h

/-! ### Shapes -/

/-- What is in a box is filled in as the box is. -/
theorem unboxed (h : v.Filled arrays w) : v.unboxed.Filled arrays w.unboxed := by
  induction v using partsInduction generalizing w with
  | step v ih =>
    cases h with
    | @empty scope name ty w hw =>
      refine .empty scope name (hw.imp_right fun hw => ?_)
      rwa [unboxed_unboxed]
    | boxed hcontent =>
      have hunboxed := ih _ List.mem_cons_self hcontent
      exact hunboxed
    | array hall hdims => exact .array hall hdims
    | list hall => exact .list hall
    | tuple hall => exact .tuple hall
    | record path names index hall => exact .record path names index hall
    | present hcontent => exact .present hcontent
    | _ => exact refl _

/-- Where no array is filled in, arrays stay arrays and other values do not become arrays. -/
theorem isArray_eq (h : v.Filled false w) : w.isArray = v.isArray := by
  cases h with
  | empty _ _ hw =>
    have hw := hw.resolve_left fun h => Bool.false_ne_true h.1
    cases w with
    | array elements dims => cases hw
    | _ => rfl
  | _ => rfl

/-- Sizes are kept if no array is filled in. -/
theorem dims_eq (h : v.Filled false w) : w.dims = v.dims := by
  cases h with
  | array _ hdims => exact hdims.resolve_right fun h => Bool.false_ne_true h.1
  | @empty scope name ty w hw =>
    exact dims_of_not_isArray (isArray_eq (.empty scope name hw))
  | _ => rfl

/-! ### Arrays and lists -/

/-- An array of values is filled in as the values are. -/
theorem arrayOf {vs ws : List Value} (h : AllFilled arrays vs ws) :
    (Value.arrayOf vs).Filled arrays (Value.arrayOf ws) := by
  refine .array h ?_
  rw [← h.length_eq]
  cases h with
  | nil => exact .inl rfl
  | @cons v w vs ws hvw _ =>
    by_cases hdims : w.dims = v.dims
    · exact .inl (congrArg (List.cons _) hdims)
    · refine .inr ⟨?_, fun hshaped => hdims ?_⟩
      · cases arrays with
        | false => exact absurd hvw.dims_eq hdims
        | true => rfl
      · exact (hvw.of_shaped (.inr (.inr (hshaped.parts v List.mem_cons_self)))).dims_eq

/-- A list of values is filled in as the values are. -/
theorem listOf {vs ws : List Value} (h : AllFilled arrays vs ws) :
    (Value.listOf vs).Filled arrays (Value.listOf ws) := .list h

/-- A vector is filled in as its entries are. -/
theorem vector {vs ws : List Value} (h : AllFilled arrays vs ws) :
    (Value.vector vs).Filled arrays (Value.vector ws) :=
  .array h (.inl (by rw [h.length_eq]))

/-- A matrix is filled in as its rows are. -/
theorem matrix {rows rows' : List (List Value)}
    (h : List.Forall₂ (AllFilled arrays) rows rows') (columns : Nat) :
    (Value.matrix rows columns).Filled arrays (Value.matrix rows' columns) := by
  refine .array ?_ (.inl (by rw [h.length_eq]))
  rw [List.forall₂_map_left_iff, List.forall₂_map_right_iff]
  exact h.imp fun _ _ hrow => .array hrow (.inl rfl)

/-- The elements of an array or list are filled in as it is. -/
theorem elements? (h : v.Filled arrays w) {xs : Array Value} (hv : v.elements? = some xs) :
    ∃ ys, w.elements? = some ys ∧ AllFilled arrays xs.toList ys.toList := by
  cases h with
  | array hall =>
    cases hv
    exact ⟨_, rfl, hall⟩
  | list hall =>
    cases hv
    exact ⟨_, rfl, hall⟩
  | _ => cases hv

end Filled

end Value

end ModelicaFold
