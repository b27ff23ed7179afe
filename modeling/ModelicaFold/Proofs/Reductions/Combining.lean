import Mathlib.Algebra.Order.BigOperators.Group.List
import Mathlib.Data.List.TakeWhile
import ModelicaFold.Proofs.Shape.Reductions

/-!
# The cap on combinations

Combined iterators are refused if they have more combinations than the cap. The combinations are
counted before any is built, from the first sequence to the last, and a count that is no word is
refused as well. Without an empty sequence such a count only grows, so that the refusal depends on
the number of combinations alone. A sequence without items makes this number zero, but comes too
late where the sequences before it have too many combinations to count (`OverflowsBeforeEmpty`).
-/

namespace ModelicaFold

open Value (leafCount)

variable {α : Type}

/-- The sequences before the first one without items have more combinations than there are words. -/
def OverflowsBeforeEmpty (sequences : List (List α)) : Prop :=
  [] ∈ sequences ∧ wordCount ≤ ((sequences.map List.length).takeWhile (· ≠ 0)).prod

/-! ## Counting -/

/-- The number of leaves is the product of the sizes. -/
theorem Value.leafCount_eq_prod (dims : List Nat) : leafCount dims = dims.prod := by
  induction dims with
  | nil => rfl
  | cons d ds ih => rw [leafCount_cons, List.prod_cons, ih]

/-- Counting on from some number of combinations: a zero ends the growth of the count. -/
theorem foldlM_combinationCount {a : Nat} (hpos : 0 < a) (hword : a < wordCount)
    (lengths : List Nat) :
    lengths.foldlM (fun n m => if n * m < wordCount then some (n * m) else none) a
      = if a * (lengths.takeWhile (· ≠ 0)).prod < wordCount then some (a * lengths.prod)
        else none := by
  have hzero : ∀ ds : List Nat,
      ds.foldlM (fun n m => if n * m < wordCount then some (n * m) else none) 0 = some 0 := by
    intro ds
    induction ds with
    | nil => rfl
    | cons d ds ih =>
      rw [List.foldlM_cons, if_pos (by rw [Nat.zero_mul]; decide), Nat.zero_mul]
      exact ih
  induction lengths generalizing a with
  | nil => simp [hword]
  | cons d ds ih =>
    rw [List.foldlM_cons, List.prod_cons]
    by_cases hd : d = 0
    · rw [hd, Nat.mul_zero, if_pos (by decide : 0 < wordCount), List.takeWhile_cons_of_neg (by simp)]
      rw [List.prod_nil, Nat.mul_one, if_pos hword, Nat.zero_mul, Nat.mul_zero]
      exact hzero ds
    · have hnext : 0 < a * d := Nat.mul_pos hpos (Nat.pos_of_ne_zero hd)
      rw [List.takeWhile_cons_of_pos (by simpa using hd), List.prod_cons, ← Nat.mul_assoc,
        ← Nat.mul_assoc]
      by_cases hfits : a * d < wordCount
      · rw [if_pos hfits]
        exact ih hnext hfits
      · -- the factors that follow do not make the count smaller
        have hrest : 1 ≤ (ds.takeWhile (· ≠ 0)).prod := by
          refine List.one_le_prod_of_one_le fun e he => Nat.one_le_iff_ne_zero.mpr ?_
          simpa using List.mem_takeWhile_imp he
        have hle : a * d ≤ a * d * (ds.takeWhile (· ≠ 0)).prod := Nat.le_mul_of_pos_right _ hrest
        rw [if_neg hfits, if_neg (by omega)]
        rfl

/-- The count is the number of combinations, unless it is no word before a zero is reached. -/
theorem combinationCount_eq (lengths : List Nat) :
    combinationCount lengths
      = if (lengths.takeWhile (· ≠ 0)).prod < wordCount then some lengths.prod else none := by
  have h := foldlM_combinationCount Nat.one_pos (by decide : 1 < wordCount) lengths
  rwa [Nat.one_mul, Nat.one_mul] at h

/-- A combination has one item of every sequence. -/
theorem mem_combinations {sequences : List (List α)} {tuple : List α} :
    tuple ∈ combinations sequences ↔ List.Forall₂ (· ∈ ·) tuple sequences := by
  induction sequences generalizing tuple with
  | nil => simp [combinations]
  | cons items more ih =>
    simp only [combinations_cons, List.mem_flatMap, List.mem_map, List.forall₂_cons_right_iff, ih]
    constructor
    · rintro ⟨rest, hrest, a, ha, rfl⟩
      exact ⟨a, rest, ha, hrest, rfl⟩
    · rintro ⟨a, rest, ha, hrest, rfl⟩
      exact ⟨rest, hrest, a, ha, rfl⟩

/-! ## The cap -/

/-- Without a zero all factors come before the first zero. -/
theorem takeWhile_lengths_eq {sequences : List (List α)} (h : [] ∉ sequences) :
    (sequences.map List.length).takeWhile (· ≠ 0) = sequences.map List.length := by
  refine List.takeWhile_eq_self_iff.mpr fun n hn => ?_
  obtain ⟨items, hitems, rfl⟩ := List.mem_map.mp hn
  simpa using fun hnil : items = [] => h (hnil ▸ hitems)

/-- Combining in terms of the number of combinations. -/
theorem bindingTuples_combine (sequences : List (List α)) :
    (maxIterations < (sequences.map List.length).prod ∨ OverflowsBeforeEmpty sequences)
        ∧ bindingTuples .combine sequences = (Cause.iterationLimit maxIterations).fail
      ∨ ¬(maxIterations < (sequences.map List.length).prod ∨ OverflowsBeforeEmpty sequences)
        ∧ bindingTuples .combine sequences = .ok (combinations sequences) := by
  simp only [bindingTuples, combinationCount_eq]
  by_cases hword : ((sequences.map List.length).takeWhile (· ≠ 0)).prod < wordCount
  · have hcounted : ¬OverflowsBeforeEmpty sequences := fun h => Nat.not_le_of_lt hword h.2
    rw [if_pos hword]
    by_cases hfew : (sequences.map List.length).prod ≤ maxIterations
    · exact .inr ⟨fun h => h.elim (Nat.not_lt_of_le hfew) hcounted, if_pos hfew⟩
    · exact .inl ⟨.inl (Nat.lt_of_not_le hfew), if_neg hfew⟩
  · rw [if_neg hword]
    refine .inl ⟨?_, rfl⟩
    by_cases hempty : [] ∈ sequences
    · exact .inr ⟨hempty, Nat.le_of_not_lt hword⟩
    · rw [takeWhile_lengths_eq hempty] at hword
      exact .inl (Nat.lt_of_lt_of_le (by decide) (Nat.le_of_not_lt hword))

/-- Combinations are refused if there are too many, or too many before an empty sequence. -/
theorem bindingTuples_combine_eq_fail_iff (sequences : List (List α)) :
    bindingTuples .combine sequences = (Cause.iterationLimit maxIterations).fail
      ↔ maxIterations < (sequences.map List.length).prod ∨ OverflowsBeforeEmpty sequences := by
  rcases bindingTuples_combine sequences with ⟨h, heq⟩ | ⟨h, heq⟩
  · exact iff_of_true heq h
  · exact iff_of_false (by rw [heq]; nofun) h

/-- The sequences before an empty one can be counted if all that are not empty can. -/
theorem not_overflowsBeforeEmpty {sequences : List (List α)}
    (h : [] ∈ sequences → ((sequences.map List.length).filter (· ≠ 0)).prod < wordCount) :
    ¬OverflowsBeforeEmpty sequences := by
  rintro ⟨hempty, hle⟩
  have hleading : ((sequences.map List.length).takeWhile (· ≠ 0)).Sublist
      ((sequences.map List.length).filter (· ≠ 0)) := by
    have hkept : ((sequences.map List.length).takeWhile (· ≠ 0)).filter (· ≠ 0)
        = (sequences.map List.length).takeWhile (· ≠ 0) :=
      List.filter_eq_self.mpr fun n hn =>
        List.mem_takeWhile_imp (l := sequences.map List.length) hn
    rw [← hkept]
    exact (List.takeWhile_sublist _).filter _
  have hone : ∀ n ∈ (sequences.map List.length).filter (· ≠ 0), 1 ≤ n := fun n hn =>
    Nat.one_le_iff_ne_zero.mpr (by simpa using (List.mem_filter.mp hn).2)
  exact absurd (Nat.le_trans hle (hleading.prod_le_prod' hone)) (Nat.not_le_of_lt (h hempty))

/-- Combining sequences is refused exactly if they have more combinations than the cap, or if those
before an empty one have too many to be counted. Otherwise it gives as many tuples as there are
combinations, which are those with one item of every sequence. Whether it is refused does not depend
on the order of the sequences, as long as those that are not empty can be counted next to an empty
one. -/
theorem combinations_capped (sequences : List (List α)) :
    (bindingTuples .combine sequences = (Cause.iterationLimit maxIterations).fail
        ↔ maxIterations < (sequences.map List.length).prod ∨ OverflowsBeforeEmpty sequences)
      ∧ (¬(maxIterations < (sequences.map List.length).prod ∨ OverflowsBeforeEmpty sequences) →
        ∃ tuples, bindingTuples .combine sequences = .ok tuples
          ∧ tuples.length = (sequences.map List.length).prod
          ∧ ∀ tuple, tuple ∈ tuples ↔ List.Forall₂ (· ∈ ·) tuple sequences)
      ∧ (([] ∈ sequences → ((sequences.map List.length).filter (· ≠ 0)).prod < wordCount) →
        ∀ permuted : List (List α), permuted.Perm sequences →
          (bindingTuples .combine permuted = (Cause.iterationLimit maxIterations).fail
            ↔ bindingTuples .combine sequences = (Cause.iterationLimit maxIterations).fail)) := by
  refine ⟨bindingTuples_combine_eq_fail_iff sequences, fun h => ?_, fun hfits permuted hperm => ?_⟩
  · rcases bindingTuples_combine sequences with ⟨hrefused, -⟩ | ⟨-, heq⟩
    · exact absurd hrefused h
    · refine ⟨_, heq, ?_, fun tuple => mem_combinations⟩
      rw [length_combinations, Value.leafCount_eq_prod]
  · have hlengths := hperm.map List.length
    have hfits' : [] ∈ permuted →
        ((permuted.map List.length).filter (· ≠ 0)).prod < wordCount := by
      rw [hperm.mem_iff, (hlengths.filter _).prod_nat]
      exact hfits
    rw [bindingTuples_combine_eq_fail_iff, bindingTuples_combine_eq_fail_iff, hlengths.prod_nat,
      or_iff_left (not_overflowsBeforeEmpty hfits'), or_iff_left (not_overflowsBeforeEmpty hfits)]

/-- Three sequences, one of them empty, which may be put in another order. -/
theorem combinations_capped_reordered :
    (([] : List Bool) ∈ [[true, false], [], [true]] →
        (([[true, false], [], [true]].map List.length).filter (· ≠ 0)).prod < wordCount)
      ∧ [[], [true], [true, false]].Perm [[true, false], [], [true]]
      ∧ (bindingTuples .combine [[], [true], [true, false]]
          = (Cause.iterationLimit maxIterations).fail
        ↔ bindingTuples .combine [[true, false], [], [true]]
          = (Cause.iterationLimit maxIterations).fail) :=
  ⟨fun _ => by decide, by decide,
    (combinations_capped [[true, false], [], [true]]).2.2 (fun _ => by decide) _ (by decide)⟩

/-- Sixty-four pairs have as many combinations as there are words. With an empty sequence after them
there is none, and combining them is refused all the same; with the empty sequence first it is not. -/
theorem combinations_uncounted :
    ((List.replicate 64 [true, false] ++ [[]]).map List.length).prod = 0
      ∧ bindingTuples .combine (List.replicate 64 [true, false] ++ [[]])
        = (Cause.iterationLimit maxIterations).fail
      ∧ bindingTuples .combine ([] :: List.replicate 64 [true, false]) = .ok [] :=
  ⟨by decide, rfl, rfl⟩

end ModelicaFold
