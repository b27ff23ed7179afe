import ModelicaFold.Proofs.Bounds.Access
import ModelicaFold.Proofs.Shape.Reductions

/-!
# Binding tuples read directly

The binding tuples of iterators with each value read at its offset: the same offset in all sequences
where they are run through in step, and otherwise offsets that are the digits of the number of the
tuple, in a system whose bases are the lengths of the sequences. The lengths are compared before in
the first case; in the second there is no tuple at all if one of them is zero.
-/

namespace ModelicaFold.Direct

open Access (InBounds)

variable {α β : Type}

/-- The tuple with a number. The first sequence varies fastest. -/
def tuple : List (List α) → Nat → Access (List α)
  | [], _ => pure []
  | items :: more, number => do
    let i ← Access.remainder number items.length
    let a ← Access.item items i
    let rest ← Access.quotient number items.length
    let others ← tuple more rest
    return a :: others

/-- The binding tuples of iterators over the given sequences. -/
def bindingTuples (kind : IteratorKind) (sequences : List (List α)) : Access (List (List α)) :=
  let lengths := sequences.map List.length
  match kind with
  | .thread =>
    let n := lengths.headD 0
    if lengths.any (· ≠ n) then
      Access.of
        (Cause.invalidShape
          ("threaded reduction iterators have different lengths " ++ Text.bracketed lengths)).fail
    else (List.range n).mapM fun i => sequences.mapM fun items => Access.item items i
  | .combine =>
    match combinationCount lengths with
    | some n =>
      if n ≤ maxIterations then (List.range n).mapM (tuple sequences)
      else Access.of (Cause.iterationLimit maxIterations).fail
    | none => Access.of (Cause.iterationLimit maxIterations).fail

/-! ## In step -/

/-- Running through sequences in step takes the items at one offset after the other. -/
theorem lockstep_eq_map (n : Nat) (sequences : List (List α)) :
    lockstep n sequences
      = (List.range n).map fun i => sequences.filterMap fun items => items[i]? := by
  induction n generalizing sequences with
  | zero => rfl
  | succ n ih =>
    rw [lockstep, ih, List.range_succ_eq_map, List.map_cons, List.map_map]
    refine congrArg₂ List.cons ?_ (List.map_congr_left fun i _ => ?_)
    · exact congrArg (sequences.filterMap ·) (funext fun items => List.head?_eq_getElem?)
    · rw [List.filterMap_map]
      exact congrArg (sequences.filterMap ·) (funext fun items => List.getElem?_tail)

/-- Sequences of one length are run through in step in bounds. -/
theorem lockstep_inBounds {n : Nat} {sequences : List (List α)}
    (h : ∀ items ∈ sequences, items.length = n) :
    InBounds ((List.range n).mapM fun i => sequences.mapM fun items => Access.item items i)
      (pure (lockstep n sequences)) := by
  rw [lockstep_eq_map]
  refine .mapM_pure fun i hi => ?_
  have hi := List.mem_range.mp hi
  induction sequences with
  | nil => rfl
  | cons items sequences ih =>
    obtain ⟨hitems, hsequences⟩ := List.forall_mem_cons.mp h
    have hitem := List.getElem?_eq_getElem (hitems.symm ▸ hi : i < items.length)
    rw [List.mapM_cons, List.filterMap_cons, hitem]
    exact .read (Access.inBounds_item hitem) (.read (ih hsequences) rfl)

/-! ## All combinations -/

/-- The items of pieces of one length. -/
theorem getElem?_flatMap_of_length {f : α → List β} {size : Nat} (hsize : 0 < size)
    (h : ∀ a, (f a).length = size) (items : List α) (i : Nat) :
    (items.flatMap f)[i]? = items[i / size]?.bind fun a => (f a)[i % size]? := by
  induction items generalizing i with
  | nil => rfl
  | cons a items ih =>
    rw [List.flatMap_cons]
    by_cases hi : i < size
    · rw [List.getElem?_append_left (by rwa [h]), Nat.div_eq_of_lt hi, Nat.mod_eq_of_lt hi]
      rfl
    · have hle : size ≤ i := Nat.le_of_not_lt hi
      rw [List.getElem?_append_right (by rwa [h]), h, ih, ← Nat.mod_eq_sub_mod hle,
        Nat.div_eq_sub_div hsize hle, List.getElem?_cons_succ]

/-- The digits of a number find the combination that has this number. -/
theorem tuple_inBounds {sequences : List (List α)} {number : Nat} {combination : List α}
    (h : (combinations sequences)[number]? = some combination) :
    InBounds (tuple sequences number) (pure combination) := by
  induction sequences generalizing number combination with
  | nil =>
    cases number with
    | zero =>
      cases h
      rfl
    | succ number => cases h
  | cons items more ih =>
    -- without items there is no combination
    by_cases hsize : items.length = 0
    · rw [List.length_eq_zero_iff.mp hsize, combinations] at h
      cases h
    · rw [combinations_cons, getElem?_flatMap_of_length (Nat.pos_of_ne_zero hsize)
        fun rest => List.length_map _] at h
      obtain ⟨rest, hrest, h⟩ := Option.bind_eq_some_iff.mp h
      rw [List.getElem?_map] at h
      obtain ⟨a, ha, rfl⟩ := Option.map_eq_some_iff.mp h
      refine .read (Access.remainder_eq hsize) (.read (Access.inBounds_item ha) ?_)
      exact .read (Access.quotient_eq hsize) (.read (ih hrest) rfl)

/-- The binding tuples of either kind are read in bounds. -/
theorem bindingTuples_inBounds (kind : IteratorKind) (sequences : List (List α)) :
    InBounds (bindingTuples kind sequences) (ModelicaFold.bindingTuples kind sequences) := by
  cases kind with
  | thread =>
    refine .ite (fun _ => rfl) fun hany => lockstep_inBounds fun items hitems => ?_
    simp only [List.any_map, List.any_eq_true, not_exists, not_and] at hany
    simpa using hany items hitems
  | combine =>
    simp only [bindingTuples, ModelicaFold.bindingTuples]
    cases hcount : combinationCount (sequences.map List.length) with
    | none => rfl
    | some n =>
      refine .ite (fun _ => ?_) fun _ => rfl
      rw [combinationCount_eq_some hcount, ← length_combinations]
      exact .mapM_range fun number combination h => tuple_inBounds h

end ModelicaFold.Direct
