import ModelicaFold.Eval.Reduction
import ModelicaFold.Proofs.Deferral.Filled
import ModelicaFold.Proofs.Shape.Operators
import ModelicaFold.Value.Convert
import ModelicaFold.Value.Logic
import ModelicaFold.Value.Range

/-!
# Operators on operands that are filled in

A placeholder takes no part in arithmetic: an operator that reads its operands has a result only
where there is no placeholder in them (`Value.Strict`), so that it has the same result where
placeholders are filled in. What only moves values gives values that are filled in likewise.
`Outcome.Yields` says both: whenever a computation gives a value, another one gives a related value.
-/

namespace ModelicaFold

namespace Outcome

variable {α α' β β' : Type} {R : α → α' → Prop} {S : β → β' → Prop}

/-- Whenever a computation gives a value, another one gives a related value. -/
def Yields (R : α → α' → Prop) (o : Outcome α) (o' : Outcome α') : Prop :=
  ∀ a, o = .ok a → ∃ a', o' = .ok a' ∧ R a a'

/-- A value yields a related one. -/
theorem yields_ok {a : α} {a' : α'} (h : R a a') : Yields R (.ok a) (.ok a') := by
  intro b hb
  cases hb
  exact ⟨a', rfl, h⟩

/-- A failure yields anything. -/
theorem yields_fail (c : Cause) (o' : Outcome α') : Yields R c.fail o' :=
  fun _ h => (fail_eq_ok.mp h).elim

/-- A refusal yields anything. -/
theorem yields_refuse (what want : String) (got : Value) (o' : Outcome α') :
    Yields R (Value.refuse what want got) o' :=
  yields_fail _ o'

/-- A computation yields itself. -/
theorem yields_refl {R : α → α → Prop} (hR : ∀ a, R a a) (o : Outcome α) : Yields R o o :=
  fun a h => ⟨a, h, hR a⟩

namespace Yields

/-- A computation yields with a weaker relation as well. -/
theorem mono {R' : α → α' → Prop} (hR : ∀ a a', R a a' → R' a a') {o : Outcome α}
    {o' : Outcome α'} (h : Yields R o o') : Yields R' o o' := by
  intro a ha
  obtain ⟨a', ha', haa'⟩ := h a ha
  exact ⟨a', ha', hR a a' haa'⟩

/-- A sequence yields if its parts do, the second one for the value that the first one gives. -/
theorem bind_of_ok {x : Outcome α} {x' : Outcome α'} {k : α → Outcome β} {k' : α' → Outcome β'}
    (hx : Yields R x x') (hk : ∀ a a', x = .ok a → R a a' → Yields S (k a) (k' a')) :
    Yields S (x >>= k) (x' >>= k') := by
  intro b hb
  obtain ⟨a, ha, hb⟩ := bind_eq_ok.mp hb
  obtain ⟨a', rfl, haa'⟩ := hx a ha
  exact hk a a' ha haa' b hb

/-- A sequence yields if its parts do. -/
theorem bind {x : Outcome α} {x' : Outcome α'} {k : α → Outcome β} {k' : α' → Outcome β'}
    (hx : Yields R x x') (hk : ∀ a a', R a a' → Yields S (k a) (k' a')) :
    Yields S (x >>= k) (x' >>= k') :=
  hx.bind_of_ok fun a a' _ => hk a a'

/-- The same value goes into both computations. -/
theorem bind_eq {x x' : Outcome α} {k : α → Outcome β} {k' : α → Outcome β'} (hx : Yields Eq x x')
    (hk : ∀ a, Yields S (k a) (k' a)) : Yields S (x >>= k) (x' >>= k') :=
  hx.bind fun a _ heq => heq ▸ hk a

/-- Functions that relate the results may be applied to them. -/
theorem map {x : Outcome α} {x' : Outcome α'} {f : α → β} {f' : α' → β'} (hx : Yields R x x')
    (hf : ∀ a a', R a a' → S (f a) (f' a')) : Yields S (x.map f) (x'.map f') := by
  intro b hb
  obtain ⟨a, ha, rfl⟩ := map_eq_ok.mp hb
  obtain ⟨a', rfl, haa'⟩ := hx a ha
  exact ⟨f' a', rfl, hf a a' haa'⟩

/-- A choice yields if its branches do. -/
theorem ite {c : Prop} [Decidable c] {x y : Outcome α} {x' y' : Outcome α'} (hx : Yields R x x')
    (hy : Yields R y y') : Yields R (if c then x else y) (if c then x' else y') := by
  by_cases h : c
  · simpa only [if_pos h] using hx
  · simpa only [if_neg h] using hy

/-- Mapping a list yields if each step does. -/
theorem mapM {f : α → Outcome β} {f' : α' → Outcome β'} {as : List α} {as' : List α'}
    (has : List.Forall₂ R as as') (hf : ∀ a a', R a a' → Yields S (f a) (f' a')) :
    Yields (List.Forall₂ S) (as.mapM f) (as'.mapM f') := by
  induction has with
  | nil => exact yields_ok .nil
  | cons haa' _ ih =>
    rw [List.mapM_cons, List.mapM_cons]
    refine (hf _ _ haa').bind fun b b' hbb' => ?_
    exact ih.bind fun bs bs' hbs => yields_ok (.cons hbb' hbs)

end Yields

end Outcome

open Outcome

/-- Related lists have related items at every position. -/
theorem getElem?_of_forall₂ {α β : Type} {R : α → β → Prop} {as : List α} {bs : List β}
    (h : List.Forall₂ R as bs) {i : Nat} {a : α} (ha : as[i]? = some a) :
    ∃ b, bs[i]? = some b ∧ R a b := by
  induction h generalizing i with
  | nil => cases ha
  | @cons c d _ _ hcd _ ih =>
    cases i with
    | zero =>
      obtain rfl : c = a := by simpa using ha
      exact ⟨d, rfl, hcd⟩
    | succ i => exact ih (by simpa using ha)

/-- Related lists end at the same position. -/
theorem getElem?_eq_none_of_forall₂ {α β : Type} {R : α → β → Prop} {as : List α} {bs : List β}
    (h : List.Forall₂ R as bs) {i : Nat} (ha : as[i]? = none) : bs[i]? = none := by
  rw [List.getElem?_eq_none_iff] at ha ⊢
  exact h.length_eq ▸ ha

/-- Related lists have related items at the same position. -/
theorem nth?_of_forall₂ {α β : Type} {R : α → β → Prop} {as : List α} {bs : List β}
    (h : List.Forall₂ R as bs) {i : Int} {a : α} (ha : nth? as i = some a) :
    ∃ b, nth? bs i = some b ∧ R a b := by
  obtain ⟨hi, ha⟩ := nth?_eq_some_iff.mp ha
  obtain ⟨b, hb, hab⟩ := getElem?_of_forall₂ h ha
  exact ⟨b, nth?_eq_some_iff.mpr ⟨hi, hb⟩, hab⟩

namespace Value

variable {α : Type} {arrays : Bool}

/-! ## Strict operations -/

/-- A function that has a result only for values without placeholders. -/
def Strict (f : Value → Outcome α) : Prop := ∀ v a, f v = .ok a → v.Complete

/-- The same for a function of two values. -/
def Strict₂ (f : Value → Value → Outcome α) : Prop :=
  ∀ v w a, f v w = .ok a → v.Complete ∧ w.Complete

/-- A strict function has the same result on a value that is filled in. -/
theorem Strict.yields {f : Value → Outcome α} (hf : Strict f) {v v' : Value}
    (hv : v.Filled arrays v') : Yields Eq (f v) (f v') := by
  intro a ha
  rw [hv.eq_of_complete (hf v a ha)]
  exact ⟨a, ha, rfl⟩

/-- A strict function of two values has the same result on values that are filled in. -/
theorem Strict₂.yields {f : Value → Value → Outcome α} (hf : Strict₂ f) {v v' w w' : Value}
    (hv : v.Filled arrays v') (hw : w.Filled arrays w') : Yields Eq (f v w) (f v' w') := by
  intro a ha
  obtain ⟨hvc, hwc⟩ := hf v w a ha
  rw [hv.eq_of_complete hvc, hw.eq_of_complete hwc]
  exact ⟨a, ha, rfl⟩

/-- Equal values are filled in by each other. -/
theorem Filled.of_eq {v w : Value} (h : v = w) : v.Filled arrays w := h ▸ .refl v

/-! ### Leaves -/

/-- Only a number is negated. -/
theorem strict_negateLeaf : Strict negateLeaf := by
  intro v a h
  cases v with
  | integer _ | real _ => exact complete_atom rfl rfl
  | _ => cases h

/-- Only a Boolean is negated logically. -/
theorem strict_notLeaf : Strict notLeaf := by
  intro v a h
  cases v with
  | bool _ => exact complete_atom rfl rfl
  | _ => cases h

/-- Only a position is read as one. -/
theorem strict_position : Strict position := by
  intro v a h
  cases v with
  | integer _ | enumeration _ _ | bool _ => exact complete_atom rfl rfl
  | _ => cases h

/-- Only a value of its own kind is cast. -/
theorem strict_castLeaf {ty : Ty} {convert : Value → Outcome Value}
    (hconvert : castLeaf? ty = some convert) : Strict convert := by
  intro v a h
  unfold castLeaf? at hconvert
  split at hconvert
  all_goals cases hconvert
  · cases v with
    | integer _ | real _ => exact complete_atom rfl rfl
    | _ => cases h
  · cases v with
    | integer _ | real _ => exact complete_atom rfl rfl
    | _ => cases h
  · cases v with
    | integer _ | enumeration _ _ => exact complete_atom rfl rfl
    | _ => cases h

/-- Only numbers are combined as scalars. -/
theorem strict₂_scalarArith (op : Arith) : Strict₂ (scalarArith op) := by
  intro v w a h
  unfold scalarArith at h
  split at h
  · exact ⟨complete_atom rfl rfl, complete_atom rfl rfl⟩
  · exact ⟨complete_atom rfl rfl, complete_atom rfl rfl⟩
  · exact ⟨complete_atom rfl rfl, complete_atom rfl rfl⟩
  all_goals cases h

/-- Only strings are concatenated. -/
theorem strict₂_concatLeaves : Strict₂ concatLeaves := by
  intro v w a h
  unfold concatLeaves at h
  split at h
  · exact ⟨complete_atom rfl rfl, complete_atom rfl rfl⟩
  · cases h

/-- Only Booleans are combined logically. -/
theorem strict₂_logicalLeaves (op : LogicalOp) : Strict₂ (logicalLeaves op) := by
  intro v w a h
  unfold logicalLeaves at h
  split at h
  · exact ⟨complete_atom rfl rfl, complete_atom rfl rfl⟩
  all_goals cases h

/-- Values that are ordered have no placeholders. -/
theorem complete_of_order? {v w : Value} {o : Ordering} (h : order? v w = some o) :
    v.Complete ∧ w.Complete := by
  unfold order? at h
  split at h
  all_goals first
    | exact ⟨complete_atom rfl rfl, complete_atom rfl rfl⟩
    | cases h

/-- Values that are related have no placeholders. -/
theorem complete_of_relate? {v w : Value} {op : RelationOp} {b : Bool}
    (h : relate? v op w = some b) : v.Complete ∧ w.Complete := by
  cases op with
  | greater | greaterEq =>
    obtain ⟨o, ho, -⟩ := Option.map_eq_some_iff.mp h
    exact (complete_of_order? ho).symm
  | _ =>
    obtain ⟨o, ho, -⟩ := Option.map_eq_some_iff.mp h
    exact complete_of_order? ho

/-- A value that decides a logical operation has no placeholders. -/
theorem complete_of_decided? {op : LogicalOp} {v w : Value} (h : decided? op v = some w) :
    v.Complete := by
  unfold decided? at h
  split at h
  · exact complete_atom rfl rfl
  · exact complete_atom rfl rfl
  · cases h

/-! ### Values written as code -/

/-- If a list of values can be written as code, each of them can. -/
theorem isSome_toCode?_of_all {vs : List Value} (h : (allToCode? vs).isSome = true) :
    ∀ v ∈ vs, v.toCode?.isSome = true := by
  induction vs with
  | nil => exact fun v hv => absurd hv List.not_mem_nil
  | cons v vs ih =>
    rw [allToCode?] at h
    split at h
    · rename_i c cs hc hcs
      exact List.forall_mem_cons.mpr ⟨by rw [hc]; rfl, ih (by rw [hcs]; rfl)⟩
    · cases h

/-- Only values without placeholders are written as code. -/
theorem complete_of_toCode? {v : Value} (h : v.toCode?.isSome = true) : v.Complete := by
  induction v using partsInduction with
  | step v ih =>
    have hall : (allToCode? v.parts).isSome = true → ∀ w ∈ v.parts, w.Complete := fun h w hw =>
      ih w hw (isSome_toCode?_of_all h w hw)
    cases v with
    | array | list | tuple | record =>
      rw [toCode?, Option.isSome_map] at h
      exact .intro rfl (hall h)
    | present content =>
      rw [toCode?, Option.isSome_map] at h
      exact .intro rfl (List.forall_mem_singleton.mpr (ih content List.mem_cons_self h))
    | boxed content =>
      rw [toCode?] at h
      exact .intro rfl (List.forall_mem_singleton.mpr (ih content List.mem_cons_self h))
    | fail | noReturn | empty => cases h
    | _ => exact complete_atom rfl rfl

/-! ### Arrays of leaves -/

/-- There are placeholders in an array only at its leaves. -/
theorem complete_of_leaves {v : Value} (h : ∀ leaf ∈ v.flatten, leaf.Complete) : v.Complete := by
  induction v using arrayInduction with
  | leaf v hv => exact h v (by rw [flatten_leaf hv]; exact List.mem_singleton_self v)
  | array elements dims ih =>
    refine complete_array.mpr fun v hv => ih v hv fun leaf hleaf => h leaf ?_
    rw [flatten, flattenAll_eq_flatMap]
    exact List.mem_flatMap.mpr ⟨v, hv, hleaf⟩

/-- A strict function is strict on all leaves. -/
theorem Strict.mapLeaves {f : Value → Outcome Value} (hf : Strict f) :
    Strict (Value.mapLeaves f) := by
  intro v w h
  induction v using arrayInduction generalizing w with
  | leaf v hv => exact hf v w (by rwa [mapLeaves_leaf hv] at h)
  | array elements dims ih =>
    rw [Value.mapLeaves, mapAllLeaves_eq_mapM] at h
    obtain ⟨mapped, hmapped, -⟩ := map_eq_ok.mp h
    refine complete_array.mpr fun v hv => ?_
    obtain ⟨w, -, hw⟩ := exists_mem_of_forall₂ (mapM_eq_ok.mp hmapped).flip v hv
    exact ih v hv w hw

/-- Combining lists of leaves combines them pair by pair. -/
theorem forall₂_of_zipAllLeaves {f : Value → Value → Outcome Value} {xs ys zs : List Value}
    (hlength : xs.length = ys.length) (h : zipAllLeaves f xs ys = some (.ok zs)) :
    List.Forall₂ (fun x y => ∃ z, x.zipLeaves f y = some (.ok z)) xs ys := by
  induction xs generalizing ys zs with
  | nil => rw [List.eq_nil_of_length_eq_zero hlength.symm]; exact .nil
  | cons x xs ih =>
    cases ys with
    | nil => cases hlength
    | cons y ys =>
      rw [zipAllLeaves] at h
      split at h
      · cases h
      · cases h
      · rename_i z hz
        split at h
        · cases h
        · cases h
        · rename_i zs' hzs
          exact .cons ⟨z, hz⟩ (ih (Nat.succ.inj hlength) hzs)

/-- A strict function of two values is strict on pairs of leaves. -/
theorem Strict₂.zipLeaves {f : Value → Value → Outcome Value} (hf : Strict₂ f) {v w z : Value}
    (h : v.zipLeaves f w = some (.ok z)) : v.Complete ∧ w.Complete := by
  induction v using arrayInduction generalizing w z with
  | leaf v hv => exact hf v w z (zipLeaves_leaf hv h)
  | array elements dims ih =>
    cases w with
    | array others dims' =>
      obtain ⟨others⟩ := others
      rw [Value.zipLeaves] at h
      split at h
      · rename_i hfit
        obtain ⟨r, hr, hz⟩ := Option.map_eq_some_iff.mp h
        obtain ⟨zs, rfl, -⟩ := map_eq_ok.mp hz
        have hpairs := forall₂_of_zipAllLeaves hfit.2 hr
        refine ⟨complete_array.mpr fun x hx => ?_, complete_array.mpr fun y hy => ?_⟩
        · obtain ⟨y, hy, z, hz⟩ := exists_mem_of_forall₂ hpairs.flip x hx
          exact (ih x hx hz).1
        · obtain ⟨x, hx, z, hz⟩ := exists_mem_of_forall₂ hpairs y hy
          exact (ih x hx hz).2
      · cases h
    | _ => cases h

/-- A strict function of two values is strict on arrays of one shape. -/
theorem Strict₂.orShape {f : Value → Value → Outcome Value} (hf : Strict₂ f) (v w : Value)
    (message : String) {z : Value}
    (h : Value.orShape (v.zipLeaves f w) message = .ok z) : v.Complete ∧ w.Complete := by
  cases hzip : v.zipLeaves f w with
  | none =>
    rw [hzip] at h
    cases h
  | some o =>
    rw [hzip] at h
    exact hf.zipLeaves (hzip.trans (congrArg some h))

/-- Negation is strict. -/
theorem strict_negate : Strict negate := strict_negateLeaf.mapLeaves

/-- Logical negation is strict. -/
theorem strict_logicalNot : Strict logicalNot := strict_notLeaf.mapLeaves

/-- A conjunction or disjunction of two values is strict. -/
theorem strict₂_logical (op : LogicalOp) : Strict₂ (logical op) := by
  intro v w z h
  exact (strict₂_logicalLeaves op).orShape v w _ h

/-- Concatenating strings is strict. -/
theorem strict₂_concatStrings : Strict₂ concatStrings := by
  intro v w z h
  unfold concatStrings at h
  split at h
  · exact strict₂_concatLeaves.orShape v w _ h
  · exact strict₂_concatLeaves v w z h

/-- Leaves are mapped alike by functions that are alike on every leaf. -/
theorem yields_mapLeaves {f f' : Value → Outcome Value} (hf : ∀ v, Yields Eq (f v) (f' v))
    (v : Value) : Yields Eq (v.mapLeaves f) (v.mapLeaves f') := by
  induction v using arrayInduction with
  | leaf v hv =>
    rw [mapLeaves_leaf hv, mapLeaves_leaf hv]
    exact hf v
  | array elements dims ih =>
    rw [mapLeaves, mapLeaves, mapAllLeaves_eq_mapM, mapAllLeaves_eq_mapM]
    have hsame : List.Forall₂ (fun v w => v = w ∧ v ∈ elements) elements elements :=
      List.forall₂_same.mpr fun v hv => ⟨rfl, hv⟩
    have hall : Yields (List.Forall₂ Eq) (elements.mapM (mapLeaves f))
        (elements.mapM (mapLeaves f')) := by
      refine .mapM hsame ?_
      rintro v w ⟨rfl, hv⟩
      exact ih v hv
    exact hall.map fun vs ws h => by rw [(List.forall₂_eq_eq_eq ▸ h : vs = ws)]

/-! ## Folding -/

/-- A step of a reduction with a known name is strict. -/
theorem strict₂_foldNamed (name : String) : Strict₂ (foldNamed name) := by
  have hnumbers : ∀ op, Strict₂ (foldNumbers op) := by
    intro op v w z h
    unfold foldNumbers at h
    split at h
    · exact (strict₂_scalarArith op).orShape v w _ h
    · split at h
      · cases h
      · exact strict₂_scalarArith op v w z h
  have hextreme : ∀ name keeps, Strict₂ (foldExtreme name keeps) := by
    intro name keeps v w z h
    unfold foldExtreme at h
    split at h
    · rename_i keep hkeep
      exact complete_of_relate? hkeep
    · cases h
  intro v w z h
  unfold foldNamed at h
  split at h
  · exact hnumbers _ v w z h
  · split at h
    · exact hnumbers _ v w z h
    · split at h
      · exact hextreme _ _ v w z h
      · split at h
        · exact hextreme _ _ v w z h
        · cases h

/-! ## Ranges -/

/-- The step of a range has no placeholders. -/
theorem complete_of_rangeStep {read? : Value → Option α} {one a : α} {want : String}
    (hread : ∀ v a, read? v = some a → v.Complete) {step : Option Value}
    (h : rangeStep read? one want step = .ok a) : ∀ v, step = some v → v.Complete := by
  rintro v rfl
  simp only [rangeStep] at h
  split at h
  · rename_i b hb
    exact hread v b hb
  · cases h

/-- A range is built only from bounds and a step without placeholders. -/
theorem complete_of_rangeElements {start stop : Value} {step : Option Value} {ty : Ty}
    {elements : Array Value} (h : rangeElements start step stop ty = .ok elements) :
    start.Complete ∧ (∀ v, step = some v → v.Complete) ∧ stop.Complete := by
  unfold rangeElements at h
  split at h
  · obtain ⟨d, hd, -⟩ := bind_eq_ok.mp h
    refine ⟨complete_atom rfl rfl, complete_of_rangeStep (fun v a hv => ?_) hd,
      complete_atom rfl rfl⟩
    cases v with
    | integer _ => exact complete_atom rfl rfl
    | _ => cases hv
  · obtain ⟨d, hd, -⟩ := bind_eq_ok.mp h
    refine ⟨complete_atom rfl rfl, complete_of_rangeStep (fun v a hv => ?_) hd,
      complete_atom rfl rfl⟩
    cases v with
    | real _ => exact complete_atom rfl rfl
    | _ => cases hv
  · exact ⟨complete_atom rfl rfl, nofun, complete_atom rfl rfl⟩
  · exact ⟨complete_atom rfl rfl, nofun, complete_atom rfl rfl⟩
  · cases h

/-- A range has the same elements filled in. -/
theorem yields_rangeElements {start start' stop stop' : Value} {step step' : Option Value}
    (hstart : start.Filled arrays start') (hstep : Option.Rel (Filled arrays) step step')
    (hstop : stop.Filled arrays stop') (ty : Ty) :
    Yields Eq (rangeElements start step stop ty) (rangeElements start' step' stop' ty) := by
  intro elements h
  obtain ⟨hstartc, hstepc, hstopc⟩ := complete_of_rangeElements h
  have hsame : step' = step := by
    cases hstep with
    | none => rfl
    | some hd => rw [hd.eq_of_complete (hstepc _ rfl)]
  rw [hstart.eq_of_complete hstartc, hsame, hstop.eq_of_complete hstopc]
  exact ⟨elements, h, rfl⟩

/-! ## Elements and fields -/

/-- The elements at a position are filled in as the arrays are. -/
theorem yields_nth {vs ws : Array Value} (h : AllFilled arrays vs.toList ws.toList) (i : Int) :
    Yields (Filled arrays) (nth vs i) (nth ws i) := by
  intro v hv
  rw [nth_eq] at hv ⊢
  split at hv
  · rename_i item hitem
    cases hv
    obtain ⟨w, hw, hvw⟩ := nth?_of_forall₂ h hitem
    exact ⟨w, by rw [hw], hvw⟩
  · cases hv

/-- Selecting an element yields the element filled in. -/
theorem yields_select {v w : Value} (h : v.Filled arrays w) (i : Int) :
    Yields (Filled arrays) (v.select i) (w.select i) := by
  cases h with
  | array hall => exact yields_nth hall i
  | _ => exact yields_refuse _ _ _ _

/-- Projecting a field yields the field filled in. -/
theorem yields_project (name : String) {v w : Value} (h : v.Filled arrays w) :
    Yields (Filled arrays) (v.project name) (w.project name) := by
  induction v using partsInduction generalizing w with
  | step v ih =>
    cases h with
    | record path names index hall =>
      intro u hu
      simp only [project, field?] at hu ⊢
      split at hu
      · rename_i field hfield
        cases hu
        obtain ⟨i, hi, hfield⟩ := Option.bind_eq_some_iff.mp hfield
        obtain ⟨field', hfield', hrel⟩ := getElem?_of_forall₂ hall hfield
        refine ⟨field', ?_, hrel⟩
        rw [hi, Option.bind_some, hfield']
      · cases hu
    | @array xs ys dims dims' hall hdims =>
      obtain ⟨xs⟩ := xs
      obtain ⟨ys⟩ := ys
      cases hall with
      | nil =>
        have hshaped : (Value.array ⟨[]⟩ dims).Shaped := .intro nofun nofun
        rw [hdims.resolve_right fun h => h.2 hshaped]
        exact yields_refl .refl _
      | @cons x y xs ys hxy hall =>
        rw [project, project, projectAll_eq_mapM, projectAll_eq_mapM]
        have hfields := Filled.parts_imp (fun v hv w hvw => ih v hv hvw) (.cons hxy hall)
        exact (Yields.mapM hfields fun _ _ h => h).map fun _ _ h => .arrayOf h
    | _ => exact yields_refuse _ _ _ _

end Value

end ModelicaFold
