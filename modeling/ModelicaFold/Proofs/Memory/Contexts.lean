import ModelicaFold.Scope.Context

/-!
# Contexts that remember more

A context is within another one if both hold the same functions and everything it remembers is
remembered by the other. `Context.Grow` relates two contexts, one within the other, to what they
become when evaluations from them remember the same.
-/

namespace ModelicaFold

namespace Context

/-- One context holds the functions of another one and remembers what it remembers. -/
structure Within (C D : Context) : Prop where
  functions : C.functions = D.functions
  constants : ∀ ⦃key : String⦄ ⦃v : Value⦄, C.constant? key = some v → D.constant? key = some v

namespace Within

variable {C D E : Context}

/-- A context is within itself. -/
theorem refl (C : Context) : C.Within C := ⟨rfl, fun _ _ h => h⟩

/-- A context within one that is within a third is within the third. -/
theorem trans (h : C.Within D) (h' : D.Within E) : C.Within E :=
  ⟨h.functions.trans h'.functions, fun _ _ hv => h'.constants (h.constants hv)⟩

/-- What the larger context does not remember, the smaller one does not remember. -/
theorem constant?_eq_none (h : C.Within D) {key : String} (hD : D.constant? key = none) :
    C.constant? key = none := by
  cases hC : C.constant? key with
  | none => rfl
  | some v =>
    rw [h.constants hC] at hD
    cases hD

/-- What both contexts remember under a key is the same. -/
theorem constant?_eq (h : C.Within D) {key : String} {v w : Value}
    (hC : C.constant? key = some v) (hD : D.constant? key = some w) : v = w :=
  Option.some.inj ((h.constants hC).symm.trans hD)

/-- A context that only holds the functions of another one is within it. -/
theorem ofFunctions (C : Context) : (Context.ofFunctions C.functions).Within C :=
  ⟨rfl, fun _ _ h => by cases h⟩

end Within

/-- What one of two contexts remembers; the first decides where both do. -/
def merge (C D : Context) : Context := { C with constants := C.constants ++ D.constants }

/-- Two contexts together remember under a key what the first does, or else the second. -/
theorem constant?_merge (C D : Context) (key : String) :
    (C.merge D).constant? key = (C.constant? key).or (D.constant? key) :=
  List.lookup_append

/-- A context is within what it and another one remember together. -/
theorem within_merge (C D : Context) : C.Within (C.merge D) :=
  ⟨rfl, fun key v h => by rw [constant?_merge, h, Option.some_or]⟩

/-- Two contexts within a third are within it together. -/
theorem merge_within {C D E : Context} (hC : C.Within E) (hD : D.Within E) :
    (C.merge D).Within E := by
  refine ⟨hC.functions, fun key v h => ?_⟩
  rw [constant?_merge, Option.or_eq_some_iff] at h
  rcases h with h | ⟨-, h⟩
  · exact hC.constants h
  · exact hD.constants h

/-- What is remembered together with a larger context is not less. -/
theorem merge_within_merge {C D D' : Context} (h : D.Within D') :
    (C.merge D).Within (C.merge D') := by
  refine ⟨rfl, fun key v hv => ?_⟩
  rw [constant?_merge, Option.or_eq_some_iff] at hv ⊢
  exact hv.imp_right fun ⟨hnone, hD⟩ => ⟨hnone, h.constants hD⟩

/-- A context is within what it becomes by remembering a value. -/
theorem within_remember (C : Context) (key : String) (v : Value) :
    C.Within (C.remember key v) := by
  refine ⟨?_, fun k w h => constant?_remember_of_some h⟩
  unfold remember
  split <;> rfl

/-- A value is remembered under a new key, or under one that has the same value already. -/
theorem constant?_remember_self {C : Context} {key : String} {v : Value}
    (h : ∀ w, C.constant? key = some w → w = v) :
    (C.remember key v).constant? key = some v := by
  cases hkey : C.constant? key with
  | some w =>
    obtain rfl := h w hkey
    exact constant?_remember_of_some hkey
  | none =>
    rw [remember, hkey]
    simp [constant?]

/-- Remembering a value under one key does not change what is remembered under another. -/
theorem constant?_remember_of_ne {C : Context} {k key : String} {v : Value} (h : k ≠ key) :
    (C.remember key v).constant? k = C.constant? k := by
  unfold remember
  split
  · rfl
  · have hk : (k == key) = false := by simpa using h
    simp only [constant?, List.lookup_cons, hk]

/-- Remembering a value that the larger context remembers keeps to it. -/
theorem remember_within {C D : Context} {key : String} {v : Value} (h : C.Within D)
    (hkey : D.constant? key = some v) : (C.remember key v).Within D := by
  refine ⟨(C.within_remember key v).functions.symm.trans h.functions, fun k w hw => ?_⟩
  by_cases hk : k = key
  · subst hk
    rw [constant?_remember_self fun w hw => h.constant?_eq hw hkey] at hw
    exact hkey.trans hw
  · rw [constant?_remember_of_ne hk] at hw
    exact h.constants hw

/-- Of two contexts within a third, the second is within what both remember together. -/
theorem within_merge_right {C D E : Context} (hC : C.Within E) (hD : D.Within E) :
    D.Within (C.merge D) := by
  refine ⟨hD.functions.trans hC.functions.symm, fun key v h => ?_⟩
  rw [constant?_merge, Option.or_eq_some_iff]
  cases hkey : C.constant? key with
  | none => exact .inr ⟨rfl, h⟩
  | some w => exact .inl (congrArg some (hC.constant?_eq hkey (hD.constants h)))

/-! ## Contexts that grow side by side -/

/-- Two contexts, the second within the first, and two contexts they have become: both remember
more, the second still remembers only what the first does, and it remembers all that is new. -/
structure Grow (D F D' F' : Context) : Prop where
  left : D.Within D'
  right : F.Within F'
  within : F'.Within D'
  new : D'.Within (D.merge F')

/-- Contexts grow side by side if they stay as they are. -/
theorem Grow.refl {D F : Context} (h : F.Within D) : D.Grow F D F :=
  ⟨.refl D, .refl F, h, D.within_merge F⟩

/-- Contexts that grow side by side in two stages grow side by side. -/
theorem Grow.trans {D F D' F' D'' F'' : Context} (h : D.Grow F D' F') (h' : D'.Grow F' D'' F'') :
    D.Grow F D'' F'' := by
  refine ⟨h.left.trans h'.left, h.right.trans h'.right, h'.within, h'.new.trans ?_⟩
  refine merge_within (h.new.trans (merge_within_merge h'.right)) ?_
  exact within_merge_right (h.left.trans h'.left) h'.within

/-- Contexts that have grown side by side may both remember a value that is new to the first. -/
theorem Grow.remember {D F D' F' : Context} (h : D.Grow F D' F') {key : String} {v : Value}
    (hnone : D.constant? key = none) (hself : ∀ w, D'.constant? key = some w → w = v) :
    D.Grow F (D'.remember key v) (F'.remember key v) := by
  have hF' : (F'.remember key v).constant? key = some v :=
    constant?_remember_self fun w hw => hself w (h.within.constants hw)
  have hF'' := F'.within_remember key v
  refine ⟨h.left.trans (D'.within_remember key v), h.right.trans hF'', ?_, ?_⟩
  · exact remember_within (h.within.trans (D'.within_remember key v))
      (constant?_remember_self hself)
  · refine remember_within (h.new.trans (merge_within_merge hF'')) ?_
    rw [constant?_merge, hnone, hF', Option.none_or]

end Context

end ModelicaFold
