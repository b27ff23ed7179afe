import ModelicaFold.Eval.Reduction
import ModelicaFold.Proofs.Shape.Subscripts

/-!
# Array reductions

The values of the body are nested into an array whose sizes are the lengths of the sequences. There
are as many values as combinations of the sequences, and few enough that their number is a word; so
the nesting uses them up, and the array is consistent if they have the same sizes.
-/

namespace ModelicaFold

open Value (leafCount)

/-! ## Nesting -/

/-- Values of the same sizes nested into an array that holds all of them. -/
theorem Value.consistent_nest {flat : List Value} {dims shape : List Nat}
    (hflat : ∀ v ∈ flat, v.Consistent ∧ v.dims = dims) (hcount : flat.length = leafCount shape)
    (hpos : 0 < flat.length) (hword : flat.length < wordCount) :
    (nest arrayOf flat shape).Consistent
      ∧ (shape ≠ [] → (nest arrayOf flat shape).dims = shape ++ dims) := by
  induction shape generalizing flat with
  | nil => exact ⟨consistent_arrayOf hflat, fun h => absurd rfl h⟩
  | cons n rest ih =>
    rw [leafCount_cons] at hcount
    cases rest with
    | nil =>
      refine ⟨consistent_arrayOf hflat, fun _ => ?_⟩
      have hn : flat.length = n := by simpa [leafCount] using hcount
      rw [nest, dims_arrayOf_of hflat, if_neg (by omega), hn]
      rfl
    | cons m inner =>
      have hn : n ≠ 0 := fun h => by rw [h, Nat.zero_mul] at hcount; omega
      have hsize : leafCount (m :: inner) ≠ 0 := fun h => by rw [h] at hcount; omega
      have hle : leafCount (m :: inner) ≤ flat.length :=
        hcount ▸ Nat.le_mul_of_pos_left _ (Nat.pos_of_ne_zero hn)
      have hproduct : sizeProduct (m :: inner) = leafCount (m :: inner) :=
        sizeProduct_of_lt (Nat.lt_of_le_of_lt hle hword)
      simp only [nest, hproduct]
      rw [if_neg (by rintro (h | h) <;> contradiction)]
      have hpieces : ∀ v ∈ (chunks (leafCount (m :: inner)) n flat).map
          fun piece => nest arrayOf piece (m :: inner),
          v.Consistent ∧ v.dims = m :: inner ++ dims := by
        intro v hv
        obtain ⟨piece, hpiece, rfl⟩ := List.mem_map.mp hv
        have hlength : piece.length = leafCount (m :: inner) := length_of_mem_chunks hcount hpiece
        have hmem : ∀ w ∈ piece, w ∈ flat := mem_of_mem_chunks hpiece
        obtain ⟨hconsistent, hdims⟩ := ih (fun w hw => hflat w (hmem w hw)) hlength
          (by omega) (by omega)
        exact ⟨hconsistent, hdims (List.cons_ne_nil m inner)⟩
      refine ⟨consistent_arrayOf hpieces, fun _ => ?_⟩
      rw [dims_arrayOf_of hpieces, List.length_map, length_chunks, if_neg hn]
      rfl

/-! ## Counting combinations -/

/-- There are as many combinations as an array with these sizes has leaves. -/
theorem length_combinations {α : Type} (sequences : List (List α)) :
    (combinations sequences).length = leafCount (sequences.map List.length) := by
  induction sequences with
  | nil => rfl
  | cons items more ih =>
    rw [combinations_cons, List.length_flatMap]
    simp [leafCount, ih, Nat.mul_comm]

/-- The number of combinations that is counted is the number of leaves. -/
theorem combinationCount_eq_some {lengths : List Nat} {n : Nat}
    (h : combinationCount lengths = some n) : n = leafCount lengths := by
  have hfold : ∀ (lengths : List Nat) (a : Nat),
      lengths.foldlM (fun n m => if n * m < wordCount then some (n * m) else none) a = some n →
      n = a * leafCount lengths := by
    intro lengths
    induction lengths with
    | nil =>
      intro a h
      cases h
      exact (Nat.mul_one n).symm
    | cons d ds ih =>
      intro a h
      rw [List.foldlM_cons] at h
      obtain ⟨b, hb, h⟩ := Option.bind_eq_some_iff.mp h
      split at hb
      · cases hb
        rw [ih _ h, Value.leafCount_cons, Nat.mul_assoc]
      · cases hb
  rw [hfold lengths 1 h, Nat.one_mul]

/-- The order of the sizes does not matter for the number of leaves. -/
theorem leafCount_reverse (dims : List Nat) : leafCount dims.reverse = leafCount dims := by
  have happend : ∀ ds es : List Nat, leafCount (ds ++ es) = leafCount ds * leafCount es := by
    intro ds es
    induction ds with
    | nil => exact (Nat.one_mul _).symm
    | cons d ds ih =>
      rw [List.cons_append, Value.leafCount_cons, Value.leafCount_cons, ih, Nat.mul_assoc]
  induction dims with
  | nil => rfl
  | cons d ds ih =>
    rw [List.reverse_cons, happend, ih, Value.leafCount_cons, Nat.mul_comm]
    simp [leafCount]

/-- The sizes of the array that the values of the body are nested into. -/
def IteratorKind.shape (kind : IteratorKind) (lengths : List Nat) (count : Nat) : List Nat :=
  match kind with
  | .combine => lengths.reverse
  | .thread => [count]

/-- Combined sequences have few combinations, and the sizes of the array count them. -/
theorem length_bindingTuples {α : Type} {kind : IteratorKind} {sequences tuples : List (List α)}
    (h : bindingTuples kind sequences = .ok tuples) :
    tuples.length = leafCount (kind.shape (sequences.map List.length) tuples.length)
      ∧ (kind = .combine → tuples.length ≤ maxIterations) := by
  cases kind with
  | thread => exact ⟨by simp [IteratorKind.shape, leafCount], nofun⟩
  | combine =>
    simp only [bindingTuples] at h
    split at h
    · rename_i n hn
      split at h
      · rename_i hle
        cases h
        rw [IteratorKind.shape, leafCount_reverse, length_combinations]
        rw [← combinationCount_eq_some hn]
        exact ⟨rfl, fun _ => hle⟩
      · simp at h
    · simp at h

/-- Values of the body that are consistent and, with boxes stripped, all have the same sizes are
gathered in a consistent array. -/
theorem gather_consistent {kind : IteratorKind} {sequences tuples : List (List Value)}
    {values : List Value} {dims : List Nat} (htuples : bindingTuples kind sequences = .ok tuples)
    (hne : tuples ≠ []) (hlength : values.length = tuples.length)
    (hvalues : ∀ v ∈ values, v.Consistent ∧ v.unboxed.dims = dims) :
    (Gathering.array.gather values
      (kind.shape (sequences.map List.length) tuples.length)).Consistent := by
  have hall : ∀ w ∈ values.map Value.unboxed, w.Consistent ∧ w.dims = dims := by
    intro w hw
    obtain ⟨value, hvalue, rfl⟩ := List.mem_map.mp hw
    obtain ⟨hconsistent, hdims⟩ := hvalues value hvalue
    exact ⟨hconsistent.unboxed, hdims⟩
  have hmap : (values.map Value.unboxed).length = tuples.length := by
    rw [List.length_map, hlength]
  obtain ⟨hcount, hfew⟩ := length_bindingTuples htuples
  cases kind with
  | thread => exact Value.consistent_arrayOf hall
  | combine =>
    refine (Value.consistent_nest hall ?_ ?_ ?_).1
    · rw [hmap, hcount]
      rfl
    · rw [hmap]
      exact List.length_pos_iff.mpr hne
    · rw [hmap]
      exact Nat.lt_of_le_of_lt (hfew rfl) (by decide)

/-! ## Reductions -/

namespace Steps

/-- What an array reduction puts together: the values of its body, or its default if there is no
binding tuple. -/
def reductionOperands (s : Steps) (req : Request) (info : ReductionInfo) (body : Expr)
    (iterators : List Iterator) : EvalM (List Value) := do
  let sequences ← iterators.mapM (s.sequence req)
  match ← (bindingTuples info.kind sequences : Outcome (List (List Value))) with
  | [] => info.default.toList.mapM (s.eval req)
  | tuples => tuples.mapM (s.bodyValue req iterators body)

/-- An array reduction whose operands are consistent and, with boxes stripped, all have the same
sizes. -/
theorem reduction_consistent {s : Steps} {req : Request} {info : ReductionInfo} {body : Expr}
    {iterators : List Iterator} {v : Value} {ctx ctx' : Context} {log log' : Log}
    (harray : Gathering.ofName info.path.last = .array)
    (h : (s.reduction req info body iterators).Gives ctx log v ctx' log')
    (hoperands : ∃ dims, ∀ operands,
      (s.reductionOperands req info body iterators).Gives ctx log operands ctx' log' →
      ∀ w ∈ operands, w.Consistent ∧ w.unboxed.dims = dims) : v.Consistent := by
  obtain ⟨dims, hoperands⟩ := hoperands
  obtain ⟨sequences, ctx₁, log₁, hsequences, h⟩ := EvalM.gives_bind.mp h
  obtain ⟨tuples, ctx₂, log₂, htuples, h⟩ := EvalM.gives_bind.mp h
  have hrun : ∀ operands, (match tuples with
      | [] => info.default.toList.mapM (s.eval req)
      | tuples => tuples.mapM (s.bodyValue req iterators body)).Gives ctx₂ log₂ operands ctx' log' →
      ∀ w ∈ operands, w.Consistent ∧ w.unboxed.dims = dims := by
    intro operands hgives
    refine hoperands operands (EvalM.gives_bind.mpr ⟨sequences, ctx₁, log₁, hsequences, ?_⟩)
    exact EvalM.gives_bind.mpr ⟨tuples, ctx₂, log₂, htuples, hgives⟩
  cases tuples with
  | nil =>
    simp only at h
    cases hdefault : info.default with
    | none =>
      rw [hdefault] at h
      obtain ⟨rfl, _, _⟩ := EvalM.gives_pure.mp h
      exact Value.consistent_of_parts_eq_nil rfl rfl
    | some default =>
      rw [hdefault] at h hrun
      have hsingle : ([default].mapM (s.eval req)).Gives ctx₂ log₂ [v] ctx' log' := by
        rw [List.mapM_cons]
        refine EvalM.gives_bind.mpr ⟨v, ctx', log', h, ?_⟩
        exact EvalM.gives_bind.mpr ⟨[], ctx', log', rfl, rfl⟩
      exact (hrun [v] hsingle v List.mem_cons_self).1
  | cons first others =>
    simp only [harray] at h
    obtain ⟨values, _, _, hvalues, h⟩ := EvalM.gives_bind.mp h
    obtain ⟨rfl, rfl, rfl⟩ := EvalM.gives_pure.mp h
    have hlength : values.length = (first :: others).length :=
      (EvalM.gives_mapM hvalues).length_eq.symm
    exact gather_consistent (EvalM.gives_ofOutcome.mp htuples).1 (List.cons_ne_nil _ _) hlength
      (hrun values hvalues)

end Steps

end ModelicaFold
