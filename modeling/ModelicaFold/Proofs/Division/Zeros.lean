import ModelicaFold.Proofs.Runs.Outcome
import ModelicaFold.Proofs.Shape.Broadcast

/-!
# Zeros among the leaves of a divisor

A divisor is searched for a zero before it is divided by. The search meets the same leaves as the
division, whatever the operands are (`hasZero_iff`), and a quotient of two leaves fails for another
cause unless the divisor is a zero. So a division of values without zeros does not fail for a zero
(`notByZero_elementwise_div`).
-/

namespace ModelicaFold

namespace Value

/-- A value is a zero if it is the Integer or a Real equal to zero. -/
theorem isZero_iff {v : Value} :
    v.isZero = true ↔ v = .integer 0 ∨ ∃ x, v = .real x ∧ (x == 0.0) = true := by
  cases v <;> simp [isZero]

/-- The search for a zero goes through all leaves. -/
theorem hasZero_iff {v : Value} : v.hasZero = true ↔ ∃ leaf ∈ v.flatten, leaf.isZero = true := by
  induction v using arrayInduction with
  | leaf v hleaf =>
    have hzero : v.hasZero = v.isZero := by
      cases v <;> first | rfl | cases hleaf
    rw [flatten_leaf hleaf, hzero]
    simp
  | array elements dims ih =>
    rw [hasZero, anyHasZero_eq_any, List.any_eq_true, flatten, flattenAll_eq_flatMap]
    constructor
    · rintro ⟨v, hv, hzero⟩
      obtain ⟨leaf, hleaf, hzero⟩ := (ih v hv).mp hzero
      exact ⟨leaf, List.mem_flatMap.mpr ⟨v, hv, hleaf⟩, hzero⟩
    · rintro ⟨leaf, hleaf, hzero⟩
      obtain ⟨v, hv, hleaf⟩ := List.mem_flatMap.mp hleaf
      exact ⟨v, hv, (ih v hv).mpr ⟨leaf, hleaf, hzero⟩⟩

/-- An array is no zero, and anything else is its own leaf. -/
theorem isZero_eq_false {v : Value} (h : v.hasZero = false) : v.isZero = false := by
  cases v <;> first | rfl | exact h

/-- No leaf of a value without zeros is a zero. -/
theorem isZero_of_mem_flatten {v : Value} (h : v.hasZero = false) :
    ∀ leaf ∈ v.flatten, leaf.isZero = false := by
  intro leaf hleaf
  cases hzero : leaf.isZero with
  | false => rfl
  | true => exact (hasZero_iff.mpr ⟨leaf, hleaf, hzero⟩).symm.trans h

/-! ## Failures of leaves -/

/-- An operation on leaves fails as it does for one of them. -/
theorem error_of_mapLeaves {f : Value → Outcome Value} {v : Value} {failure : Failure}
    (h : v.mapLeaves f = .error failure) : ∃ leaf ∈ v.flatten, f leaf = .error failure := by
  induction v using arrayInduction with
  | leaf v hleaf =>
    rw [mapLeaves_leaf hleaf] at h
    exact ⟨v, by simp [flatten_leaf hleaf], h⟩
  | array elements dims ih =>
    rw [Value.mapLeaves, mapAllLeaves_eq_mapM] at h
    cases hmapped : elements.mapM (Value.mapLeaves f) with
    | ok mapped =>
      rw [hmapped] at h
      cases h
    | error failure' =>
      rw [hmapped] at h
      cases h
      obtain ⟨v, hv, hfailure⟩ := Outcome.mem_of_mapM_eq_error hmapped
      obtain ⟨leaf, hleaf, hfailure⟩ := ih v hv hfailure
      rw [flatten, flattenAll_eq_flatMap]
      exact ⟨leaf, List.mem_flatMap.mpr ⟨v, hv, hleaf⟩, hfailure⟩

/-- A combination of leaves fails as it does for two of them. -/
theorem error_of_zipLeaves {f : Value → Value → Outcome Value} {v w : Value} {failure : Failure}
    (h : v.zipLeaves f w = some (.error failure)) :
    ∃ x ∈ v.flatten, ∃ y ∈ w.flatten, f x y = .error failure := by
  induction v using arrayInduction generalizing w with
  | leaf v hleaf =>
    cases hw : w.isArray with
    | true =>
      cases w with
      | array elements dims =>
        rw [zipLeaves_leaf_array hleaf] at h
        cases h
      | _ => cases hw
    | false =>
      refine ⟨v, by simp [flatten_leaf hleaf], w, by simp [flatten_leaf hw], ?_⟩
      exact zipLeaves_leaf hleaf h
  | array elements dims ih =>
    cases w with
    | array others dims' =>
      obtain ⟨others⟩ := others
      rw [zipLeaves] at h
      split at h
      · obtain ⟨r, hr, hfailure⟩ := Option.map_eq_some_iff.mp h
        cases r with
        | ok zipped => cases hfailure
        | error failure' =>
          cases hfailure
          obtain ⟨v, hv, w, hw, hvw⟩ := zipAllLeaves_eq_error hr
          obtain ⟨x, hx, y, hy, hxy⟩ := ih v hv hvw
          rw [flatten, flatten, flattenAll_eq_flatMap, flattenAll_eq_flatMap]
          exact ⟨x, List.mem_flatMap.mpr ⟨v, hv, hx⟩, y, List.mem_flatMap.mpr ⟨w, hw, hy⟩, hxy⟩
      · cases h
    | _ => cases h

/-! ## Quotients -/

/-- An outcome that is no failure for a zero. -/
def NotByZero (o : Outcome Value) : Prop := ∀ x y, ¬FailsFor (.divisionByZero x y) o

/-- A value is no division by zero. -/
theorem notByZero_ok (v : Value) : NotByZero (.ok v) := fun _ _ => not_failsFor_ok _ v

/-- A failure for another cause is no division by zero. -/
theorem notByZero_fail {c : Cause} (h : ∀ x y, c ≠ .divisionByZero x y) : NotByZero c.fail :=
  fun x y hfails => h x y (failsFor_fail.mp hfails)

/-- An overflow is no division by zero. -/
theorem notByZero_inRange (operation : String) (n : Int) : NotByZero (inRange operation n) := by
  unfold inRange
  split
  · exact notByZero_ok _
  · exact notByZero_fail fun _ _ h => by cases h

/-- Two leaves are divided or refused for another reason, unless the second is a zero. -/
theorem notByZero_scalarArith_div (a : Value) {b : Value} (hb : b.isZero = false) :
    NotByZero (scalarArith .div a b) := by
  unfold scalarArith
  split
  · rename_i a b
    have hzero : b ≠ 0 := by simpa [isZero] using hb
    simp only [integerArith, if_neg hzero]
    exact notByZero_inRange _ _
  · exact notByZero_ok _
  all_goals exact notByZero_fail fun _ _ h => by cases h

/-- Mapping leaves does not divide by zero if no leaf does. -/
theorem notByZero_mapLeaves {f : Value → Outcome Value} {v : Value}
    (h : ∀ leaf ∈ v.flatten, NotByZero (f leaf)) : NotByZero (v.mapLeaves f) := by
  rintro x y ⟨failure, hfailure, hc⟩
  obtain ⟨leaf, hleaf, hfailure⟩ := error_of_mapLeaves hfailure
  exact h leaf hleaf x y ⟨failure, hfailure, hc⟩

/-- Combining leaves does not divide by zero if no pair of leaves does. -/
theorem notByZero_zipLeaves {f : Value → Value → Outcome Value} {v w : Value} (message : String)
    (h : ∀ x ∈ v.flatten, ∀ y ∈ w.flatten, NotByZero (f x y)) :
    NotByZero (orShape (v.zipLeaves f w) message) := by
  cases hzipped : v.zipLeaves f w with
  | none => exact notByZero_fail fun _ _ h => by cases h
  | some o =>
    rintro x y ⟨failure, hfailure, hc⟩
    obtain rfl : o = .error failure := hfailure
    obtain ⟨a, ha, b, hb, hfailure⟩ := error_of_zipLeaves hzipped
    exact h a ha b hb x y ⟨failure, hfailure, hc⟩

/-- Which operands are arrays is announced by the operator, but they may be anything. -/
theorem notByZero_elementwise_div (operands : Operands) (a : Value) {b : Value}
    (hb : b.hasZero = false) : NotByZero (elementwise .div operands a b) := by
  have hleaves := isZero_of_mem_flatten hb
  have hquotient := fun a => notByZero_scalarArith_div a (isZero_eq_false hb)
  cases operands with
  | scalars =>
    rw [elementwise]
    split
    · exact notByZero_fail fun _ _ h => by cases h
    · exact hquotient a
  | arrays =>
    exact notByZero_zipLeaves _ fun x _ y hy => notByZero_scalarArith_div x (hleaves y hy)
  | arrayScalar => exact notByZero_mapLeaves fun x _ => hquotient x
  | scalarArray =>
    exact notByZero_mapLeaves fun y hy => notByZero_scalarArith_div a (hleaves y hy)

end Value

end ModelicaFold
