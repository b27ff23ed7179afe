import ModelicaFold.Proofs.Bounds.Operators
import ModelicaFold.Proofs.Failures.Builtins
import ModelicaFold.Proofs.Shape.Builtins

/-!
# Functions of ranked values

The built-in functions and the external functions with a known meaning give ranked values of ranked
ones (`keepsRanked_of_rule`, `External.keepsRanked_of_external`). Most of them give numbers, texts
or truth values; the others pass on what is inside their arguments, or put it into arrays of their
own.
-/

namespace ModelicaFold.Builtin

open Outcome (Ensures ensures_ok ensures_fail ensures_refuse)
open Value (Ranked IsAtom)

/-- A function that gives ranked values on ranked arguments. -/
def KeepsRanked (f : Function) : Prop :=
  ∀ args, (∀ a ∈ args, a.Ranked) → (f args).Ensures Ranked

/-- What is put together as an atom. -/
theorem ensures_atom {v : Value} (h : v.IsAtom) : Ensures Ranked (.ok v) := ensures_ok h.ranked

/-! ## Arguments -/

section

variable {args : List Value} (hargs : ∀ a ∈ args, a.Ranked)

include hargs

/-- An argument is ranked if all arguments are. -/
theorem ensures_arg (name : String) (i : Nat) : (arg name args i).Ensures Ranked := by
  intro v hv
  obtain ⟨a, ha, rfl⟩ := arg_eq_ok hv
  exact (hargs a ha).unboxed

/-- The elements of an argument. -/
theorem ensures_elementsArg (name : String) (i : Nat) :
    (elementsArg name args i).Ensures fun elements => ∀ v ∈ elements.toList, v.Ranked := by
  refine (ensures_arg hargs name i).bind fun v hv => ?_
  split
  · rename_i elements helements
    exact ensures_ok (hv.elements helements)
  · exact ensures_refuse _ _ _

end

section

variable {α : Type} (read : String → List Value → Nat → Outcome α) (name : String)

/-- A function of one argument keeps values ranked if its results are ranked. -/
theorem keepsRanked_onArg {f : α → Outcome Value} (hf : ∀ a, (f a).Ensures Ranked) :
    KeepsRanked (onArg read name f) := fun _ _ => .after fun _ => .after hf

/-- A function of two arguments keeps values ranked if its results are ranked. -/
theorem keepsRanked_onArgs {f : α → α → Outcome Value} (hf : ∀ a b, (f a b).Ensures Ranked) :
    KeepsRanked (onArgs read name f) := fun _ _ => .after fun _ => .after fun a => .after (hf a)

end

/-- A function of the elements of its argument keeps values ranked if it gives ranked results on
ranked elements. -/
theorem keepsRanked_onElements (name : String) {f : Array Value → Outcome Value}
    (hf : ∀ elements : Array Value, (∀ v ∈ elements.toList, v.Ranked) →
      (f elements).Ensures Ranked) :
    KeepsRanked (onArg elementsArg name f) := fun _ hargs =>
  .after fun _ => (ensures_elementsArg hargs name 0).bind hf

/-! ## Numbers and texts -/

/-- A function on leaves keeps values ranked if it turns leaves into atoms. -/
theorem keepsRanked_mapLeaf (name : String) {f : Value → Outcome Value}
    (hf : ∀ v w, f v = .ok w → w.IsAtom) : KeepsRanked (mapLeaf name f) := fun _ hargs =>
  .after fun _ => (ensures_arg hargs name 0).bind fun _ hv =>
    hv.mapLeaves fun v _ w hw => (hf v w hw).ranked

/-- A function on Reals keeps values ranked. -/
theorem keepsRanked_mapReal (name : String) (f : Float → Outcome Float) :
    KeepsRanked (mapReal name f) := by
  refine keepsRanked_mapLeaf name fun v w hw => ?_
  split at hw
  · obtain ⟨x, -, rfl⟩ := Outcome.map_eq_ok.mp hw
    trivial
  · simp at hw

/-- The arc tangent of two numbers keeps values ranked. -/
theorem keepsRanked_arcTangent2 : KeepsRanked arcTangent2 := fun _ _ =>
  .after fun _ => .after fun _ => .after fun _ => ensures_atom trivial

/-- An absolute value is an atom. -/
theorem isAtom_absoluteLeaf {v w : Value} (h : absoluteLeaf v = .ok w) : w.IsAtom := by
  unfold absoluteLeaf at h
  split at h
  · exact isAtom_inRange h
  · cases h
    trivial
  · simp at h

/-- A sign is an atom. -/
theorem isAtom_signLeaf {v w : Value} (h : signLeaf v = .ok w) : w.IsAtom := by
  unfold signLeaf at h
  split at h
  · cases h
    trivial
  · cases h
    trivial
  · simp at h

/-- A number that is rounded down is an atom. -/
theorem isAtom_integerLeaf {v w : Value} (h : integerLeaf v = .ok w) : w.IsAtom := by
  unfold integerLeaf at h
  split at h
  · cases h
    trivial
  · exact isAtom_wholeReal h
  · simp at h

/-- Quotients of numbers are numbers. -/
theorem ensures_integerDivide (x y : Value) : (integerDivide x y).Ensures Ranked := by
  unfold integerDivide
  split
  · exact fun _ h => (isAtom_inRange h).ranked
  · exact .after fun _ => .after fun _ => ensures_atom trivial

/-- A modulo is ranked. -/
theorem ensures_modulo (x y : Value) : (modulo x y).Ensures Ranked := by
  unfold modulo
  split
  · exact .ite (fun _ => ensures_fail _) fun _ => ensures_atom trivial
  · exact .after fun _ => .after fun _ => ensures_atom trivial

/-- A remainder is ranked. -/
theorem ensures_remainder (x y : Value) : (remainder x y).Ensures Ranked := by
  unfold remainder
  split
  · exact .ite (fun _ => ensures_fail _) fun _ => ensures_atom trivial
  · exact .after fun _ => .after fun _ => ensures_atom trivial

/-- The best value is one of those that are compared. -/
theorem ensures_best (name : String) (better : RelationOp) {champion : Value} {vs : List Value}
    (hchampion : champion.Ranked) (hvs : ∀ v ∈ vs, v.Ranked) :
    (best name better champion vs).Ensures Ranked := by
  induction vs generalizing champion with
  | nil => exact ensures_ok hchampion
  | cons v vs ih =>
    obtain ⟨hv, hvs⟩ := List.forall_mem_cons.mp hvs
    rw [best]
    split
    · exact ih hv hvs
    · exact ih hchampion hvs
    · exact ensures_refuse _ _ _

/-- A minimum or maximum keeps values ranked. -/
theorem keepsRanked_extremum (name : String) (better : RelationOp) :
    KeepsRanked (extremum name better) := by
  intro args hargs
  have harg := ensures_arg hargs name
  refine .after fun _ => .ite (fun _ => ?_) fun _ => ?_
  · refine (harg 0).bind fun a ha => (harg 1).bind fun b hb => ?_
    exact ensures_best name better ha (List.forall_mem_singleton.mpr hb)
  · refine (harg 0).bind fun v hv => ?_
    have hleaves := hv.flatten
    generalize v.flatten = candidates at hleaves
    cases candidates with
    | nil => exact ensures_fail _
    | cons first others =>
      obtain ⟨hfirst, hothers⟩ := List.forall_mem_cons.mp hleaves
      exact ensures_best name better hfirst hothers

/-- Printing keeps values ranked. -/
theorem keepsRanked_toText : KeepsRanked toText := fun _ _ =>
  .after fun _ => .after fun _ => .after fun _ => .after fun _ => .after fun _ =>
    ensures_atom trivial

/-- The position of an enumeration literal is ranked. -/
theorem keepsRanked_literalIndex : KeepsRanked literalIndex := by
  intro args _
  refine .after fun _ => .after fun v => ?_
  split
  · exact ensures_atom trivial
  · exact ensures_atom trivial
  · exact ensures_refuse _ _ _

/-- The value that marks a failure is ranked. -/
theorem keepsRanked_failed : KeepsRanked failed := fun _ _ =>
  .after fun _ => ensures_ok (Value.ranked_of_parts_eq_nil rfl rfl)

/-! ## Arrays -/

/-- The zero of any kind is ranked. -/
theorem ranked_zeroLike (like : Value) : (Value.zeroLike like).Ranked :=
  (Value.isAtom_zeroLike like).ranked

/-- Scalars are combined to ranked values. -/
theorem ensures_scalarArith (op : Arith) (x y : Value) :
    (Value.scalarArith op x y).Ensures Ranked := fun _ h => (Value.isAtom_scalarArith h).ranked

/-- A diagonal matrix of ranked values is ranked. -/
theorem keepsRanked_diagonal : KeepsRanked diagonal := by
  intro args hargs
  refine .after fun _ => (ensures_elementsArg hargs _ 0).bind fun elements helements => ?_
  refine ensures_ok (Value.ranked_matrix (fun row hrow v hv => ?_) _)
  obtain ⟨i, hi, rfl⟩ := List.mem_mapIdx.mp hrow
  obtain ⟨j, -, rfl⟩ := List.mem_map.mp hv
  split
  · exact helements _ (List.getElem_mem hi)
  · exact ranked_zeroLike _

/-- Filling an array keeps values ranked. -/
theorem keepsRanked_fillArray : KeepsRanked fillArray := fun _ hargs =>
  .ite (fun _ => ensures_fail _) fun _ => .after fun sizes =>
    (ensures_arg hargs "fill" 0).bind fun _ hv => ensures_ok (hv.fill sizes)

/-- An array of one given atom is ranked. -/
theorem keepsRanked_filledWith (name : String) {v : Value} (hv : v.IsAtom) :
    KeepsRanked (filledWith name v) := fun _ _ =>
  .ite (fun _ => ensures_fail _) fun _ => .after fun sizes => ensures_ok (hv.ranked.fill sizes)

/-- Arrays of numbers that are built from nothing. -/
theorem keepsRanked_identityMatrix : KeepsRanked identityMatrix := fun _ _ =>
  .after fun _ => .after fun n => ensures_ok (Value.ranked_identity n _)

/-- Equally spaced numbers make a ranked array. -/
theorem keepsRanked_linspace : KeepsRanked linspace := by
  refine fun _ _ => .after fun _ => .after fun _ => .after fun _ => .after fun n => ?_
  refine .ite (fun _ => ensures_fail _) fun _ => ensures_ok (Value.ranked_vector fun v hv => ?_)
  obtain ⟨i, -, rfl⟩ := List.mem_map.mp hv
  exact IsAtom.ranked trivial

/-- Concatenation keeps values ranked. -/
theorem keepsRanked_cat : KeepsRanked cat := fun _ hargs =>
  .after fun k => .ite (fun _ => ensures_fail _) fun _ =>
    Value.ensures_concat k.toNat fun part hpart => hargs part (List.mem_of_mem_tail hpart)

/-- The neutral element of any kind is ranked. -/
theorem ranked_neutral (op : Arith) (like : Value) : (neutral op like).Ranked := by
  unfold neutral
  split
  · exact IsAtom.ranked trivial
  · exact IsAtom.ranked trivial
  · exact ranked_zeroLike _

/-- A sum or product of leaves is ranked. -/
theorem keepsRanked_foldLeaves (name : String) (op : Arith) :
    KeepsRanked (foldLeaves name op) := fun _ _ =>
  .after fun _ => .after fun _ =>
    .foldlM (ranked_neutral op _) fun acc leaf _ _ => ensures_scalarArith op acc leaf

/-- Appending dimensions keeps values ranked. -/
theorem keepsRanked_promote : KeepsRanked promote := fun _ hargs =>
  .after fun _ => (ensures_arg hargs _ 0).bind fun _ hv => .after fun _ =>
    .ite (fun _ => ensures_fail _) fun _ => ensures_ok (hv.appendUnitDims _)

/-- Taking the only element keeps values ranked. -/
theorem keepsRanked_scalar : KeepsRanked scalar := by
  intro args hargs
  refine .after fun _ => (ensures_arg hargs _ 0).bind fun v hv => ?_
  refine .ite (fun _ => ensures_fail _) fun _ => ensures_ok ?_
  have hleaves := hv.flatten
  cases hflat : v.flatten with
  | nil => exact hv
  | cons leaf others =>
    rw [hflat] at hleaves
    exact hleaves leaf List.mem_cons_self

/-- Making a vector keeps values ranked. -/
theorem keepsRanked_vectorOf : KeepsRanked vectorOf := fun _ hargs =>
  .after fun _ => (ensures_arg hargs _ 0).bind fun _ hv =>
    .ite (fun _ => ensures_fail _) fun _ => ensures_ok (Value.ranked_vector hv.flatten)

/-- Making a matrix keeps values ranked. -/
theorem keepsRanked_matrixOf : KeepsRanked matrixOf := by
  intro args hargs
  refine .after fun _ => (ensures_arg hargs _ 0).bind fun v hv => ?_
  split
  · refine ensures_ok (Value.ranked_matrix (fun row hrow w hw => ?_) 1)
    rw [List.mem_singleton.mp hrow] at hw
    rw [List.mem_singleton.mp hw]
    exact hv
  · exact ensures_ok (Value.ranked_fromFlat hv.flatten _)
  · exact ensures_ok hv
  · exact .ite (fun _ => ensures_ok (Value.ranked_fromFlat hv.flatten _)) fun _ => ensures_fail _

/-- Transposing keeps values ranked. -/
theorem keepsRanked_transpose : KeepsRanked transpose := by
  intro args hargs
  refine .after fun _ => (ensures_arg hargs _ 0).bind fun v hv => ?_
  split
  · rename_i t ht
    exact ensures_ok (hv.transpose? ht)
  · exact ensures_refuse _ _ _

/-- The entries of a square matrix that is ranked are ranked. -/
theorem ensures_squareRows {name : String} {m : Value} (hm : m.Ranked) :
    (squareRows name m).Ensures fun rows => ∀ row ∈ rows, ∀ v ∈ row, v.Ranked := by
  unfold squareRows
  split
  · exact ensures_refuse _ _ _
  · rename_i rows hrows
    exact .ite (fun _ => ensures_fail _) fun _ => ensures_ok (Value.rows_of_rows? hm hrows)

/-- Making a matrix symmetric keeps values ranked. -/
theorem keepsRanked_symmetric : KeepsRanked symmetric := by
  intro args hargs
  refine .after fun _ => (ensures_arg hargs _ 0).bind fun m hm => ?_
  refine (ensures_squareRows hm).bind fun rows hrows => ?_
  refine ensures_ok (Value.ranked_matrix (fun completed hcompleted v hv => ?_) _)
  obtain ⟨i, hi, rfl⟩ := List.mem_mapIdx.mp hcompleted
  rcases List.mem_append.mp hv with hv | hv
  · obtain ⟨upper, hupper, hentry⟩ := List.mem_filterMap.mp hv
    exact hrows upper (List.mem_of_mem_take hupper) v (List.mem_of_getElem? hentry)
  · exact hrows _ (List.getElem_mem hi) v (List.mem_of_mem_drop hv)

/-! ## Products -/

/-- A determinant of two rows and columns is ranked. -/
theorem ensures_minor (a b c d : Value) : (minor a b c d).Ensures Ranked :=
  .after fun ad => .after fun bc => ensures_scalarArith .sub ad bc

/-- A cross product is ranked. -/
theorem keepsRanked_cross : KeepsRanked cross := by
  intro args _
  refine .after fun _ => .after fun x => .after fun y => ?_
  refine (ensures_minor _ _ _ _).bind fun first hfirst => ?_
  refine (ensures_minor _ _ _ _).bind fun second hsecond => ?_
  refine (ensures_minor _ _ _ _).bind fun third hthird => ensures_ok (Value.ranked_vector ?_)
  simp [hfirst, hsecond, hthird]

/-- The three components of a ranked vector are ranked. -/
theorem ensures_triple {args : List Value} (hargs : ∀ a ∈ args, a.Ranked) (name : String)
    (i : Nat) : (triple name args i).Ensures fun x => x.1.Ranked ∧ x.2.1.Ranked ∧ x.2.2.Ranked := by
  refine (ensures_elementsArg hargs name i).bind fun elements helements => ?_
  split
  · rename_i a b c hlist
    rw [hlist] at helements
    exact ensures_ok (by simpa using helements)
  · exact ensures_fail _

/-- A skew matrix is ranked. -/
theorem keepsRanked_skew : KeepsRanked skew := by
  intro args hargs
  refine .after fun _ => (ensures_triple hargs _ 0).bind fun x hx => ?_
  have hzero := ranked_zeroLike x.1
  have hsub : ∀ v : Value, (sub (Value.zeroLike x.1) v).Ensures Ranked := ensures_scalarArith .sub _
  refine (hsub x.2.2).bind fun minus₃ h₃ => (hsub x.1).bind fun minus₁ h₁ => ?_
  refine (hsub x.2.1).bind fun minus₂ h₂ => ensures_ok (Value.ranked_matrix ?_ 3)
  simp [hx.1, hx.2.1, hx.2.2, hzero, h₁, h₂, h₃]

/-- An outer product is ranked. -/
theorem keepsRanked_outerProduct : KeepsRanked outerProduct := fun _ _ =>
  .after fun _ => .after fun _ => .after fun _ =>
    (Ensures.mapM fun a _ => .mapM fun b _ => ensures_scalarArith .mul a b).bind fun _ hrows =>
      ensures_ok (Value.ranked_matrix hrows _)

/-! ## Lists and options -/

/-- Joining a list of strings gives a ranked value. -/
theorem keepsRanked_stringAppendList : KeepsRanked stringAppendList :=
  keepsRanked_onArg _ _ fun _ => .after fun _ => ensures_atom trivial

/-- An Integer read from a string is ranked. -/
theorem keepsRanked_stringInt : KeepsRanked stringInt := by
  refine keepsRanked_onArg _ _ fun s => ?_
  dsimp only
  split
  · exact .ite (fun _ => ensures_atom trivial) fun _ => ensures_fail _
  · exact ensures_fail _

/-- A Real read from a string is ranked. -/
theorem keepsRanked_stringReal : KeepsRanked stringReal := by
  refine keepsRanked_onArg _ _ fun s => ?_
  split
  · exact ensures_atom trivial
  · exact ensures_fail _

/-- The code of a character is ranked. -/
theorem keepsRanked_stringCharInt : KeepsRanked stringCharInt := by
  refine keepsRanked_onArg _ _ fun s => ?_
  split
  · exact ensures_atom trivial
  · exact ensures_fail _

/-- The character of a code is ranked. -/
theorem keepsRanked_intStringChar : KeepsRanked intStringChar :=
  keepsRanked_onArg _ _ fun _ => .ite (fun _ => ensures_atom trivial) fun _ => ensures_fail _

/-- The list of the characters of a string is ranked. -/
theorem keepsRanked_stringListStringChar : KeepsRanked stringListStringChar := by
  refine keepsRanked_onArg _ _ fun s => ensures_ok (Value.ranked_list.mpr fun v hv => ?_)
  obtain ⟨c, -, rfl⟩ := List.mem_map.mp hv
  exact IsAtom.ranked trivial

/-- The character at a position is ranked. -/
theorem keepsRanked_stringGetStringChar : KeepsRanked stringGetStringChar := by
  intro args _
  refine .after fun _ => .after fun s => .after fun i => ?_
  split
  · exact ensures_atom trivial
  · exact ensures_fail _

/-- Appending two lists keeps values ranked. -/
theorem keepsRanked_listAppend : KeepsRanked listAppend := by
  intro args hargs
  refine .after fun _ => (ensures_elementsArg hargs _ 0).bind fun a ha => ?_
  refine (ensures_elementsArg hargs _ 1).bind fun b hb => ensures_ok (Value.ranked_list.mpr ?_)
  rw [Array.toList_append]
  exact List.forall_mem_append.mpr ⟨ha, hb⟩

/-- Reversing a list keeps values ranked. -/
theorem keepsRanked_listReverse : KeepsRanked listReverse := by
  refine keepsRanked_onElements _ fun v hv => ensures_ok (Value.ranked_list.mpr fun w hw => ?_)
  rw [Array.toList_reverse] at hw
  exact hv w (List.mem_reverse.mp hw)

/-- The head of a ranked list is ranked. -/
theorem keepsRanked_listHead : KeepsRanked listHead := by
  refine keepsRanked_onElements _ fun v hv => ?_
  split
  · exact ensures_fail _
  · rename_i head hhead
    exact ensures_ok (hv head (Array.mem_toList_iff.mpr (Array.mem_of_getElem? hhead)))

/-- The rest of a ranked list is ranked. -/
theorem keepsRanked_listRest : KeepsRanked listRest := by
  refine keepsRanked_onElements _ fun v hv => .ite (fun _ => ensures_fail _) fun _ => ?_
  refine ensures_ok (Value.ranked_list.mpr fun w hw => hv w ?_)
  rw [Array.drop_eq_extract, Array.toList_extract, List.extract_eq_take_drop] at hw
  exact List.mem_of_mem_drop (List.mem_of_mem_take hw)

/-- The element of a ranked list at a position is ranked. -/
theorem keepsRanked_elementAt (name : String) : KeepsRanked (elementAt name) := by
  intro args hargs
  refine .after fun _ => (ensures_elementsArg hargs name 0).bind fun elements helements => ?_
  refine .after fun i => ?_
  -- the element that an index picks from an array of these elements
  exact (Value.ranked_array.mpr ⟨List.cons_ne_nil 0 [], helements⟩).select i

/-- The answer whether an option holds a value is ranked. -/
theorem keepsRanked_optionHolds (name : String) (wanted : Bool) :
    KeepsRanked (optionHolds name wanted) := by
  intro args _
  refine .after fun _ => .after fun v => ?_
  split
  · exact ensures_atom trivial
  · exact ensures_atom trivial
  · exact ensures_refuse _ _ _

/-! ## The tables -/

/-- Every function of values of the base language keeps values ranked. -/
theorem keepsRanked_baseTable :
    ∀ entry ∈ baseTable, ∀ f, entry.2 = .ofValues f → KeepsRanked f := by
  simp only [baseTable, special, List.forall_mem_cons, Rule.ofValues.injEq, reduceCtorEq,
    false_implies, implies_true, forall_eq', List.not_mem_nil, and_true, true_and]
  have hreal := fun name f => keepsRanked_mapReal name f
  exact ⟨keepsRanked_literalIndex, keepsRanked_toText,
    keepsRanked_mapLeaf _ fun _ _ => isAtom_absoluteLeaf,
    hreal _ _, hreal _ _, hreal _ _, keepsRanked_arcTangent2, keepsRanked_cat, hreal _ _, hreal _ _,
    hreal _ _, keepsRanked_cross, keepsRanked_diagonal, hreal _ _, keepsRanked_failed,
    keepsRanked_fillArray, hreal _ _, keepsRanked_identityMatrix,
    keepsRanked_mapLeaf _ fun _ _ => isAtom_integerLeaf, keepsRanked_linspace, hreal _ _, hreal _ _,
    keepsRanked_matrixOf, keepsRanked_extremum _ _, keepsRanked_extremum _ _,
    keepsRanked_filledWith _ trivial, keepsRanked_outerProduct, keepsRanked_foldLeaves _ _,
    keepsRanked_promote, keepsRanked_scalar, keepsRanked_mapLeaf _ fun _ _ => isAtom_signLeaf,
    hreal _ _, hreal _ _, keepsRanked_skew, hreal _ _, keepsRanked_foldLeaves _ _,
    keepsRanked_symmetric, hreal _ _, hreal _ _, keepsRanked_transpose, keepsRanked_vectorOf,
    keepsRanked_filledWith _ trivial⟩

/-- Every function of the extension keeps values ranked. -/
theorem keepsRanked_extensionTable : ∀ entry ∈ extensionTable, KeepsRanked entry.2 := by
  have hatom : ∀ {α : Type} (read : String → List Value → Nat → Outcome α) (name : String)
      (f : α → Value), (∀ a, (f a).IsAtom) → KeepsRanked (onArg read name fun a => .ok (f a)) :=
    fun read name f hf => keepsRanked_onArg read name fun a => ensures_atom (hf a)
  have hatoms : ∀ {α : Type} (read : String → List Value → Nat → Outcome α) (name : String)
      (f : α → α → Value), (∀ a b, (f a b).IsAtom) →
      KeepsRanked (onArgs read name fun a b => .ok (f a b)) :=
    fun read name f hf => keepsRanked_onArgs read name fun a b => ensures_atom (hf a b)
  simp only [extensionTable, List.forall_mem_cons, List.not_mem_nil, false_implies, implies_true,
    and_true]
  exact ⟨keepsRanked_elementAt _, hatom _ _ _ fun _ => trivial,
    keepsRanked_onElements _ fun _ hv => ensures_ok (Value.ranked_list.mpr hv),
    hatom _ _ _ fun _ => trivial, keepsRanked_onArg _ _ fun _ _ h => (isAtom_inRange h).ranked,
    hatoms _ _ _ fun _ _ => trivial, hatoms _ _ _ fun _ _ => trivial, hatom _ _ _ fun _ => trivial,
    hatom _ _ _ fun _ => trivial, keepsRanked_intStringChar, keepsRanked_optionHolds _ _,
    keepsRanked_optionHolds _ _, keepsRanked_listAppend,
    keepsRanked_onElements _ fun _ hv => ensures_ok (Value.ranked_vector hv),
    hatom _ _ _ fun _ => trivial, keepsRanked_elementAt _, keepsRanked_listHead,
    hatom _ _ _ fun _ => trivial,
    fun _ _ => .after fun _ => .after fun _ => .after fun _ => ensures_atom trivial,
    keepsRanked_listRest, keepsRanked_listReverse,
    keepsRanked_onArg _ _ fun _ _ h => (isAtom_wholeReal h).ranked, hatom _ _ _ fun _ => trivial,
    hatoms _ _ _ fun _ _ => trivial, keepsRanked_stringAppendList, keepsRanked_stringCharInt,
    hatoms _ _ _ fun _ _ => trivial, hatoms _ _ _ fun _ _ => trivial,
    keepsRanked_stringGetStringChar, keepsRanked_stringInt, hatom _ _ _ fun _ => trivial,
    keepsRanked_stringListStringChar, keepsRanked_stringReal⟩

/-- Every built-in function of the values of its arguments. -/
theorem keepsRanked_of_rule {name : String} {extended : Bool} {f : Function}
    (h : rule? name extended = some (.ofValues f)) : KeepsRanked f := by
  rcases mem_of_rule h with hbase | ⟨g, hg, heq⟩
  · exact keepsRanked_baseTable _ hbase f rfl
  · cases heq
    exact keepsRanked_extensionTable _ hg

namespace External

/-- The literal for an ordering is ranked. -/
theorem ranked_orderLiteral (order : Ordering) : (orderLiteral order).Ranked := by
  cases order <;> exact IsAtom.ranked trivial

/-- A part of a text is ranked. -/
theorem keepsRanked_substring : KeepsRanked substring := fun _ _ =>
  .after fun _ => .after fun _ => .after fun _ => .after fun _ =>
    .ite (fun _ => ensures_atom trivial) fun _ => .after fun _ =>
      .ite (fun _ => ensures_atom trivial) fun _ => ensures_fail _

/-- What a scanner gives is a position and a number. -/
theorem ranked_position {position : Nat} {v : Value} (h : v.IsAtom) :
    (Value.tuple [ofCount position, v]).Ranked := by
  have hposition : (ofCount position).Ranked := IsAtom.ranked trivial
  simp [hposition, h.ranked]

/-- The result of scanning an Integer is ranked. -/
theorem Scan.ranked_integer (s : Scan) : s.integer.Ranked := by
  unfold Scan.integer
  dsimp only
  split
  · split
    · exact ranked_position trivial
    · exact ranked_position trivial
  · exact ranked_position trivial

/-- The result of scanning a Real is ranked. -/
theorem Scan.ranked_real (s : Scan) : s.real.Ranked := by
  unfold Scan.real
  dsimp only
  split
  · exact ranked_position trivial
  · split
    · exact ranked_position trivial
    · exact ranked_position trivial

/-- Every external function with a known meaning keeps values ranked. -/
theorem keepsRanked_table : ∀ entry ∈ table, KeepsRanked entry.2 := by
  have hreal := fun name f => keepsRanked_mapReal name f
  simp only [table, List.forall_mem_cons, List.not_mem_nil, false_implies, implies_true, and_true]
  exact ⟨hreal _ _, hreal _ _, hreal _ _, keepsRanked_arcTangent2, hreal _ _, hreal _ _, hreal _ _,
    hreal _ _, hreal _ _, hreal _ _, hreal _ _, hreal _ _, hreal _ _, hreal _ _, hreal _ _,
    hreal _ _, hreal _ _, keepsRanked_substring,
    fun _ _ => .after fun _ => .after fun _ => ensures_atom trivial,
    fun _ _ => .after fun _ => .after fun _ => .after fun _ => .after fun _ =>
      ensures_ok (ranked_orderLiteral _),
    fun _ _ => .after fun _ => .after fun _ => .after fun _ => .after fun _ => ensures_atom trivial,
    fun _ _ => .after fun s => ensures_ok s.ranked_integer,
    fun _ _ => .after fun s => ensures_ok s.ranked_real,
    fun _ _ => .after fun _ => .after fun _ => ensures_atom trivial⟩

/-- Every external function with a known meaning. -/
theorem keepsRanked_of_external {env : Env} {path : Path} {f : Function}
    (h : function? env path = some f) : KeepsRanked f := by
  unfold function? at h
  split at h
  · obtain ⟨external, -, hlookup⟩ := Option.bind_eq_some_iff.mp h
    exact keepsRanked_table _ (mem_of_lookup_eq_some hlookup)
  · cases h

end External

end ModelicaFold.Builtin
