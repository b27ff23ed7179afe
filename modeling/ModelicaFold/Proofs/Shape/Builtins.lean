import ModelicaFold.Builtin.Arrays
import ModelicaFold.Proofs.Shape.Operators

/-!
# Array functions on consistent arguments

The built-in functions that construct arrays or change their shape give consistent values on
consistent arguments. Arguments are read with their boxes stripped.
-/

namespace ModelicaFold.Builtin

/-- A function that gives consistent values on consistent arguments. -/
def KeepsConsistent (f : Function) : Prop :=
  ∀ args v, (∀ a ∈ args, a.Consistent) → f args = .ok v → v.Consistent

/-- An argument that is read is one of the arguments without its box. -/
theorem arg_eq_ok {name : String} {args : List Value} {i : Nat} {v : Value}
    (h : arg name args i = .ok v) : ∃ a ∈ args, v = a.unboxed := by
  unfold arg at h
  split at h
  · rename_i a ha
    cases h
    exact ⟨a, List.mem_of_getElem? ha, rfl⟩
  · simp at h

/-- An argument is consistent if all arguments are. -/
theorem consistent_arg {name : String} {args : List Value} {i : Nat} {v : Value}
    (hargs : ∀ a ∈ args, a.Consistent) (h : arg name args i = .ok v) : v.Consistent := by
  obtain ⟨a, ha, rfl⟩ := arg_eq_ok h
  exact (hargs a ha).unboxed

/-- An identity matrix is consistent. -/
theorem keepsConsistent_identityMatrix : KeepsConsistent identityMatrix := by
  intro args v _ h
  obtain ⟨_, _, h⟩ := Outcome.bind_eq_ok.mp h
  obtain ⟨n, _, h⟩ := Outcome.bind_eq_ok.mp h
  cases h
  exact Value.consistent_identity n _

/-- An array filled with a consistent value is consistent. -/
theorem keepsConsistent_fillArray : KeepsConsistent fillArray := by
  intro args v hargs h
  unfold fillArray at h
  split at h
  · simp at h
  · obtain ⟨sizes, _, h⟩ := Outcome.bind_eq_ok.mp h
    obtain ⟨w, hw, h⟩ := Outcome.bind_eq_ok.mp h
    cases h
    exact ((consistent_arg hargs hw).fill sizes).1

/-- Arrays of zeros and of ones. -/
theorem keepsConsistent_filledWith (name : String) {v : Value} (hv : v.IsAtom) :
    KeepsConsistent (filledWith name v) := by
  intro args w _ h
  unfold filledWith at h
  split at h
  · simp at h
  · obtain ⟨sizes, _, h⟩ := Outcome.bind_eq_ok.mp h
    cases h
    exact (hv.consistent.1.fill sizes).1

/-- Equally spaced numbers make a consistent array. -/
theorem keepsConsistent_linspace : KeepsConsistent linspace := by
  intro args v _ h
  obtain ⟨_, _, h⟩ := Outcome.bind_eq_ok.mp h
  obtain ⟨first, _, h⟩ := Outcome.bind_eq_ok.mp h
  obtain ⟨last, _, h⟩ := Outcome.bind_eq_ok.mp h
  obtain ⟨n, _, h⟩ := Outcome.bind_eq_ok.mp h
  split at h
  · simp at h
  · cases h
    refine Value.consistent_vector fun w hw => ?_
    obtain ⟨i, _, rfl⟩ := List.mem_map.mp hw
    exact Value.IsAtom.consistent trivial

/-- A concatenation of consistent arrays is consistent. -/
theorem keepsConsistent_cat : KeepsConsistent cat := by
  intro args v hargs h
  obtain ⟨k, _, h⟩ := Outcome.bind_eq_ok.mp h
  split at h
  · simp at h
  · cases hk : k.toNat with
    | zero =>
      rw [hk, Value.concat] at h
      exact absurd rfl (Value.joinable_eq_ok h).2.1
    | succ n =>
      rw [hk] at h
      exact (Value.consistent_concat n (fun a ha => hargs a (List.mem_of_mem_tail ha)) h).1

/-- A consistent value is consistent with dimensions appended. -/
theorem keepsConsistent_promote : KeepsConsistent promote := by
  intro args v hargs h
  obtain ⟨_, _, h⟩ := Outcome.bind_eq_ok.mp h
  obtain ⟨w, hw, h⟩ := Outcome.bind_eq_ok.mp h
  obtain ⟨n, _, h⟩ := Outcome.bind_eq_ok.mp h
  split at h
  · simp at h
  · cases h
    exact ((consistent_arg hargs hw).appendUnitDims _).1

/-- The vector of a consistent value is consistent. -/
theorem keepsConsistent_vectorOf : KeepsConsistent vectorOf := by
  intro args v hargs h
  obtain ⟨_, _, h⟩ := Outcome.bind_eq_ok.mp h
  obtain ⟨w, hw, h⟩ := Outcome.bind_eq_ok.mp h
  split at h
  · simp at h
  · cases h
    exact Value.consistent_vector (consistent_arg hargs hw).leaves

/-- All sizes of an array are machine words. -/
def HasWordSizes (v : Value) : Prop := ∀ d ∈ v.dims, d < wordCount

/-- The leaves of an array of at most two sizes above one, nested into a matrix. -/
theorem keepsConsistent_matrixOf {args : List Value} {v : Value}
    (hargs : ∀ a ∈ args, a.Consistent) (hwords : ∀ a ∈ args, HasWordSizes a.unboxed)
    (h : matrixOf args = .ok v) : v.Consistent := by
  obtain ⟨_, _, h⟩ := Outcome.bind_eq_ok.mp h
  obtain ⟨w, hw, h⟩ := Outcome.bind_eq_ok.mp h
  have hconsistent := consistent_arg hargs hw
  have hword : HasWordSizes w := by
    obtain ⟨a, ha, rfl⟩ := arg_eq_ok hw
    exact hwords a ha
  have hlength := hconsistent.length_flatten
  split at h
  · rename_i hdims
    cases h
    refine Value.consistent_matrix fun row hrow => ?_
    rw [List.mem_singleton.mp hrow]
    refine ⟨rfl, fun x hx => ?_⟩
    rw [List.mem_singleton.mp hx]
    exact ⟨hconsistent, hdims⟩
  · rename_i n hdims
    cases h
    refine Value.consistent_fromFlat (by decide) ?_ hconsistent.leaves
    rw [hlength, hdims]
    simp [Value.leafCount]
  · cases h
    exact hconsistent
  · rename_i n m inner _ hdims
    split at h
    · rename_i hones
      cases h
      refine Value.consistent_fromFlat (hword m (by simp [hdims])) ?_ hconsistent.leaves
      rw [hlength, hdims, Value.leafCount_cons, Value.leafCount_cons,
        Value.leafCount_ones (by simpa using hones), Nat.mul_one]
    · simp at h

/-- The transpose of a consistent value is consistent. -/
theorem keepsConsistent_transpose : KeepsConsistent transpose := by
  intro args v hargs h
  obtain ⟨_, _, h⟩ := Outcome.bind_eq_ok.mp h
  obtain ⟨w, hw, h⟩ := Outcome.bind_eq_ok.mp h
  split at h
  · rename_i t ht
    cases h
    exact (consistent_arg hargs hw).transpose? ht
  · simp at h

/-- An outer product is consistent. -/
theorem keepsConsistent_outerProduct : KeepsConsistent outerProduct := by
  intro args v _ h
  obtain ⟨_, _, h⟩ := Outcome.bind_eq_ok.mp h
  obtain ⟨x, _, h⟩ := Outcome.bind_eq_ok.mp h
  obtain ⟨y, _, h⟩ := Outcome.bind_eq_ok.mp h
  obtain ⟨rows, hrows, h⟩ := Outcome.bind_eq_ok.mp h
  cases h
  exact Value.consistent_products (fun _ _ _ => Value.isAtom_scalarArith) hrows

end ModelicaFold.Builtin
