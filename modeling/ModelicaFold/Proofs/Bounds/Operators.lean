import ModelicaFold.Eval.Reduction
import ModelicaFold.Proofs.Bounds.Ranked

/-!
# Operators on ranked values

Operators, casts, concatenations and reductions give ranked values of ranked ones. What is put
together from leaves alone, a product of matrices or a range, is ranked whatever its operands are.
-/

namespace ModelicaFold

open Outcome (Ensures ensures_ok ensures_error ensures_fail ensures_refuse)

namespace Value

/-! ## Transposition and concatenation -/

/-- The entries of the rows of a ranked value are ranked. -/
theorem rows_of_rows? {v : Value} (h : v.Ranked) {rows : List (List Value)}
    (hrows : v.rows? = some rows) : ∀ row ∈ rows, ∀ w ∈ row, w.Ranked := by
  intro row hrow w hw
  obtain ⟨elements, helements, hall⟩ := Option.bind_eq_some_iff.mp hrows
  obtain ⟨part, hpart, hpartRow⟩ := exists_mem_of_forall₂ (mapM_eq_some.mp hall) row hrow
  have hpartRanked := h.elements helements part hpart
  cases part with
  | array elements dims =>
    cases hpartRow
    exact hpartRanked.parts w hw
  | _ => cases hpartRow

/-- A transpose of a ranked value is ranked. -/
theorem Ranked.transpose? {v w : Value} (h : v.Ranked) (hw : v.transpose? = some w) :
    w.Ranked := by
  simp only [Value.transpose?] at hw
  split at hw
  · rename_i rows n m inner hrows hdims
    obtain ⟨columns, hcolumns, rfl⟩ := Option.map_eq_some_iff.mp hw
    refine ranked_array.mpr ⟨List.cons_ne_nil _ _, fun x hx => ?_⟩
    obtain ⟨column, hcolumn, rfl⟩ := List.mem_map.mp hx
    refine ranked_array.mpr ⟨List.cons_ne_nil _ _, fun y hy => ?_⟩
    obtain ⟨row, hrow, hyrow⟩ := ((columns?_eq_some hcolumns).2 column hcolumn).2 y hy
    exact rows_of_rows? h hrows row hrow y hyrow
  · cases hw

/-- A part that a concatenation starts with is one of its parts, and has a dimension. -/
theorem ensures_joinable (k : Nat) {parts : List Value} (h : ∀ part ∈ parts, part.Ranked) :
    (joinable k parts).Ensures fun first => first.Ranked ∧ first.dims ≠ [] := by
  intro first hfirst
  obtain ⟨hhead, hk, hrank, -⟩ := joinable_eq_ok hfirst
  refine ⟨h first (List.mem_of_head? hhead), fun hdims => ?_⟩
  rw [rank, hdims] at hrank
  exact hk (Nat.le_zero.mp hrank)

/-- A concatenation of ranked parts is ranked. -/
theorem ensures_concat (k : Nat) {parts : List Value} (h : ∀ part ∈ parts, part.Ranked) :
    (concat k parts).Ensures Ranked := by
  match k with
  | 0 => exact fun v hv => (ensures_joinable 0 h v hv).1
  | 1 =>
    refine (ensures_joinable 1 h).bind fun first _ => ensures_ok ?_
    refine ranked_array.mpr ⟨List.cons_ne_nil _ _, fun v hv => ?_⟩
    obtain ⟨part, hpart, hv⟩ := List.mem_flatMap.mp hv
    exact (h part hpart).elementList v hv
  | k + 2 =>
    refine (ensures_joinable (k + 2) h).bind fun first hfirst => ?_
    have hjoined : (joinSlices (concat (k + 1)) (first.dims.headD 0)
        (parts.map elementList)).Ensures fun joined => ∀ v ∈ joined, v.Ranked := by
      intro joined hjoined v hv
      obtain ⟨slice, hslice, hmem⟩ := (joinSlices_eq_ok hjoined).2 v hv
      refine ensures_concat (k + 1) (fun w hw => ?_) v hslice
      obtain ⟨elements, helements, hw⟩ := exists_mem_of_forall₂ hmem w hw
      obtain ⟨part, hpart, rfl⟩ := List.mem_map.mp helements
      exact (h part hpart).elementList w hw
    refine hjoined.bind fun joined hjoined => .ite (fun _ => ensures_ok ?_) fun _ => ?_
    · refine ranked_empty fun hdims => hfirst.2 ?_
      rwa [List.set_eq_nil_iff] at hdims
    · exact ensures_ok (ranked_arrayOf hjoined)

/-- The block that a ranked value is in a matrix constructor is ranked. -/
theorem Ranked.block {v : Value} (h : v.Ranked) : v.block.Ranked := by
  have hone : ∀ w : Value, w.Ranked → (arrayOf [w]).Ranked := fun w hw =>
    ranked_arrayOf (List.forall_mem_singleton.mpr hw)
  unfold Value.block
  split
  · exact hone _ (hone v h)
  · refine ranked_arrayOf fun w hw => ?_
    obtain ⟨leaf, hleaf, rfl⟩ := List.mem_map.mp hw
    exact hone leaf (h.flatten leaf hleaf)
  · exact h

/-- A ranked value with dimensions appended is ranked. -/
theorem Ranked.appendUnitDims {v : Value} (h : v.Ranked) (k : Nat) :
    (v.appendUnitDims k).Ranked := by
  induction v using arrayInduction with
  | leaf v hleaf =>
    rw [appendUnitDims_leaf hleaf]
    induction k with
    | zero => exact h
    | succ k ih => exact ranked_arrayOf (List.forall_mem_singleton.mpr ih)
  | array elements dims ih =>
    obtain ⟨hdims, hparts⟩ := ranked_array.mp h
    rw [Value.appendUnitDims, appendAllUnitDims_eq_map]
    refine ranked_array.mpr ⟨List.append_ne_nil_of_left_ne_nil hdims _, fun w hw => ?_⟩
    obtain ⟨x, hx, rfl⟩ := List.mem_map.mp hw
    exact ih x hx (hparts x hx)

/-! ## Operators -/

/-- An operation on the elements of ranked values gives a ranked one. -/
theorem Ranked.elementwise (op : Arith) (operands : Operands) {a b : Value} (ha : a.Ranked)
    (hb : b.Ranked) : (elementwise op operands a b).Ensures Ranked := by
  have harith : ∀ x y : Value, (scalarArith op x y).Ensures Ranked := fun x y v h =>
    (isAtom_scalarArith h).ranked
  cases operands with
  | scalars => exact .ite (fun _ => ensures_fail _) fun _ => harith a b
  | arrays => exact ha.orShape (fun _ _ _ => isAtom_scalarArith) b _
  | arrayScalar => exact ha.mapLeaves fun w _ => harith w b
  | scalarArray => exact hb.mapLeaves fun w _ => harith a w

/-- A binary operator on ranked operands gives a ranked value. -/
theorem Ranked.binary (op : BinaryOp) {a b : Value} (ha : a.Ranked) (hb : b.Ranked) :
    (binary op a b).Ensures Ranked := by
  cases op with
  | arith op operands => exact ha.elementwise op operands hb
  | concat =>
    refine .ite (fun _ => ha.orShape (fun _ _ _ => isAtom_concatLeaves) b _) fun _ => ?_
    exact fun v h => (isAtom_concatLeaves h).ranked
  | scalarProduct => exact fun v h => (isAtom_scalarProduct h).ranked
  | matrixProduct => exact fun v h => (consistent_matrixProduct h).ranked
  | matrixPower => exact fun v h => (consistent_matrixPower h).ranked

/-- A negated ranked value is ranked. -/
theorem Ranked.negate {v : Value} (h : v.Ranked) : v.negate.Ensures Ranked :=
  h.mapLeaves fun _ _ _ hw => (isAtom_negateLeaf hw).ranked

/-- A ranked value negated logically is ranked. -/
theorem Ranked.logicalNot {v : Value} (h : v.Ranked) : v.logicalNot.Ensures Ranked :=
  h.mapLeaves fun _ _ _ hw => (isAtom_notLeaf hw).ranked

/-- A conjunction or disjunction is ranked if its first operand is. -/
theorem Ranked.logical (op : LogicalOp) {a : Value} (ha : a.Ranked) (b : Value) :
    (logical op a b).Ensures Ranked :=
  ha.orShape (fun _ _ _ => isAtom_logicalLeaves) b _

/-- A cast of a ranked value is ranked. -/
theorem Ranked.cast {ty : Ty} {convert : Value → Outcome Value}
    (hconvert : castLeaf? ty = some convert) {v : Value} (h : v.Ranked) :
    Ensures Ranked (v.mapLeaves convert) :=
  h.mapLeaves fun _ _ _ hw => (isAtom_castLeaf hconvert hw).ranked

/-! ## Reductions -/

/-- A step of a sum or product is ranked if what is accumulated is. -/
theorem Ranked.foldNumbers (op : Arith) {acc : Value} (h : acc.Ranked) (next : Value) :
    (foldNumbers op acc next).Ensures Ranked := by
  refine .ite (fun _ => h.orShape (fun _ _ _ => isAtom_scalarArith) next _) fun _ => ?_
  exact .ite (fun _ => ensures_fail _) fun _ v hv => (isAtom_scalarArith hv).ranked

/-- The lesser or the greater of two ranked values is ranked. -/
theorem Ranked.foldExtreme (name : String) (keeps : RelationOp) {acc next : Value}
    (hacc : acc.Ranked) (hnext : next.Ranked) :
    (foldExtreme name keeps acc next).Ensures Ranked := by
  unfold Value.foldExtreme
  split
  · refine ensures_ok ?_
    split
    · exact hacc
    · exact hnext
  · exact ensures_fail _

/-- A step of a fold by name on ranked values is ranked. -/
theorem Ranked.foldNamed (name : String) {acc next : Value} (hacc : acc.Ranked)
    (hnext : next.Ranked) : (foldNamed name acc next).Ensures Ranked :=
  .ite (fun _ => hacc.foldNumbers .add next) fun _ =>
    .ite (fun _ => hacc.foldNumbers .mul next) fun _ =>
      .ite (fun _ => hacc.foldExtreme name _ hnext) fun _ =>
        .ite (fun _ => hacc.foldExtreme name _ hnext) fun _ => ensures_fail _

end Value

/-- Ranked values are gathered to a ranked one. -/
theorem Gathering.ranked_gather (g : Gathering) {values : List Value}
    (h : ∀ v ∈ values, v.Ranked) (shape : List Nat) : (g.gather values shape).Ranked := by
  cases g with
  | array =>
    refine Value.ranked_nest (fun _ => Value.ranked_arrayOf) (fun v hv => ?_) shape
    obtain ⟨w, hw, rfl⟩ := List.mem_map.mp hv
    exact (h w hw).unboxed
  | list => exact Value.ranked_nest (fun _ => Value.ranked_listOf) h shape
  | reversedList =>
    refine Value.ranked_nest (fun _ => Value.ranked_listOf) (fun v hv => ?_) shape
    exact h v (List.mem_reverse.mp hv)
  | fold => exact Value.ranked_of_parts_eq_nil rfl rfl

namespace Steps

/-- The block of a row of ranked values is ranked. -/
theorem ensures_rowBlock {values : List Value} (h : ∀ v ∈ values, v.Ranked) :
    (rowBlock values).Ensures Value.Ranked := by
  refine .ite (fun _ => ensures_ok ?_) fun _ => Value.ensures_concat 2 fun part hpart => ?_
  · exact Value.ranked_arrayOf (List.forall_mem_singleton.mpr (Value.ranked_arrayOf h))
  · obtain ⟨v, hv, rfl⟩ := List.mem_map.mp hpart
    exact (h v hv).block

/-- Ranked values make a ranked array of any type. -/
theorem ranked_arrayOfType (ty : Ty) {values : List Value} (h : ∀ v ∈ values, v.Ranked) :
    (arrayOfType ty values).Ranked := by
  unfold arrayOfType
  split
  · exact Value.ranked_empty (List.cons_ne_nil _ _)
  · exact Value.ranked_arrayOf h

end Steps

end ModelicaFold
