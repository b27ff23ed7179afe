import ModelicaFold.Proofs.Deferral.Shapes
import ModelicaFold.Proofs.Failures.Builtins

/-!
# Built-in functions of values that are filled in

What a built-in function makes of its arguments it makes of them filled in as well
(`tolerates_of_rule`), with two exceptions. Some functions look at the sizes of their arguments, so
that no array may be filled in (`readsShape`). Two look at whole values, and tell a placeholder from
the value it stands for (`readsWhole`): `listMember` compares, and `diagonal` takes the kind of its
zeros from the elements.
-/

namespace ModelicaFold.Builtin

open Outcome Value

/-- A function that gives a value that is filled in for arguments that are. -/
def Respects (arrays : Bool) (f : Function) : Prop :=
  ∀ args args', AllFilled arrays args args' → Yields (Filled arrays) (f args) (f args')

/-- Computations that are the same. -/
theorem yields_same {arrays : Bool} (o : Outcome Value) : Yields (Filled arrays) o o :=
  yields_refl .refl o

section

variable {arrays : Bool} {args args' : List Value} (h : AllFilled arrays args args')

include h

/-! ## Arguments -/

/-- The number of arguments stays within its bounds when they are filled in. -/
theorem yields_takesBetween (name : String) (least most : Nat) :
    Yields Eq (takesBetween name least most args) (takesBetween name least most args') := by
  unfold takesBetween
  rw [h.length_eq]
  exact yields_refl (fun _ => rfl) _

/-- The number of arguments does not change when they are filled in. -/
theorem yields_takes (name : String) (n : Nat) :
    Yields Eq (takes name n args) (takes name n args') :=
  yields_takesBetween h name n n

/-- An argument is read as it is filled in. -/
theorem yields_arg (name : String) (i : Nat) :
    Yields (Filled arrays) (arg name args i) (arg name args' i) := by
  intro v hv
  unfold arg at hv ⊢
  split at hv
  · rename_i u hu
    cases hv
    obtain ⟨w, hw, huw⟩ := getElem?_of_forall₂ h hu
    exact ⟨w.unboxed, by rw [hw], huw.unboxed⟩
  · cases hv

/-- An argument is read as a related result if the reader accepts what it is filled in with. -/
theorem yields_readArg {α : Type} {R : α → α → Prop} {read? : Value → Option α}
    (hread : ∀ {v w : Value} {a : α}, v.Filled arrays w → read? v = some a →
      ∃ b, read? w = some b ∧ R a b) (want name : String) (i : Nat) :
    Yields R (readArg read? want name args i) (readArg read? want name args' i) := by
  refine (yields_arg h name i).bind fun v w hvw => ?_
  split
  · rename_i a ha
    obtain ⟨b, hb, hab⟩ := hread hvw ha
    rw [hb]
    exact yields_ok hab
  · exact yields_refuse _ _ _ _

end

/-- A way to read arguments that gives the same of arguments that are filled in. -/
def ReadsSame {α : Type} (read : String → List Value → Nat → Outcome α) : Prop :=
  ∀ {arrays : Bool} {args args' : List Value}, AllFilled arrays args args' →
    ∀ name i, Yields Eq (read name args i) (read name args' i)

/-- What is read is no placeholder and has none in it. -/
theorem readsSame_readArg {α : Type} {read? : Value → Option α} (want : String)
    (hread : ∀ {v : Value} {a : α}, read? v = some a → v.Complete) :
    ReadsSame (readArg read? want) := fun h name i =>
  yields_readArg h (fun {v w a} hvw ha => ⟨a, by rw [hvw.eq_of_complete (hread ha), ha], rfl⟩) want
    name i

/-- An Integer argument is the same filled in. -/
theorem readsSame_integerArg : ReadsSame integerArg :=
  readsSame_readArg "Integer" fun {v _} h => by
    cases v with
    | integer _ => exact complete_atom rfl rfl
    | _ => cases h

/-- A Real argument is the same filled in. -/
theorem readsSame_realArg : ReadsSame realArg :=
  readsSame_readArg "Real" fun {v _} h => by
    cases v with
    | integer _ | real _ => exact complete_atom rfl rfl
    | _ => cases h

/-- A Boolean argument is the same filled in. -/
theorem readsSame_boolArg : ReadsSame boolArg :=
  readsSame_readArg "Boolean" fun {v _} h => by
    cases v with
    | bool _ => exact complete_atom rfl rfl
    | _ => cases h

/-- A string argument is the same filled in. -/
theorem readsSame_stringArg : ReadsSame stringArg :=
  readsSame_readArg "String" fun {v _} h => by
    cases v with
    | string _ => exact complete_atom rfl rfl
    | _ => cases h

/-- A size argument is the same filled in. -/
theorem readsSame_sizeArg : ReadsSame sizeArg := fun h name i =>
  (readsSame_integerArg h name i).bind_eq fun _ => yields_refl (fun _ => rfl) _

/-- An argument that may be left out is the same filled in if the others are. -/
theorem ReadsSame.optionalArg {α : Type} {read : String → List Value → Nat → Outcome α}
    (hread : ReadsSame read) (default : α) : ReadsSame (Builtin.optionalArg read default) := by
  intro arrays args args' h name i
  unfold Builtin.optionalArg
  rw [h.length_eq]
  exact (hread h name i).ite (yields_ok rfl)

section

variable {arrays : Bool} {args args' : List Value} (h : AllFilled arrays args args')

include h

/-- The elements of an argument are filled in as it is. -/
theorem yields_elementsArg (name : String) (i : Nat) :
    Yields (fun xs ys : Array Value => AllFilled arrays xs.toList ys.toList)
      (elementsArg name args i) (elementsArg name args' i) :=
  yields_readArg h (fun hvw hv => hvw.elements? hv) _ name i

/-- The sizes from a position on are the same filled in. -/
theorem yields_sizesFrom (name : String) (i : Nat) :
    Yields Eq (sizesFrom name args i) (sizesFrom name args' i) := by
  unfold sizesFrom
  rw [h.length_eq]
  exact yields_mapM_eq (List.forall₂_same.mpr fun _ _ => rfl) fun k _ heq =>
    heq ▸ readsSame_sizeArg h name (i + k)

end

/-! ## Functions of one or two arguments -/

section

variable {α : Type} {read : String → List Value → Nat → Outcome α} (hread : ReadsSame read)
  {arrays : Bool}

include hread

/-- A function of one argument that reads no placeholder respects values that are filled in. -/
theorem respects_onArg (name : String) (f : α → Outcome Value) :
    Respects arrays (onArg read name f) := fun _ _ h =>
  (yields_takes h name 1).bind_eq fun _ => (hread h name 0).bind_eq fun a => yields_same (f a)

/-- A function of two arguments that reads no placeholder respects values that are filled in. -/
theorem respects_onArgs (name : String) (f : α → α → Outcome Value) :
    Respects arrays (onArgs read name f) := fun _ _ h =>
  (yields_takes h name 2).bind_eq fun _ =>
    (hread h name 0).bind_eq fun a => (hread h name 1).bind_eq fun b => yields_same (f a b)

end

section

variable {arrays : Bool}

/-- A function of the elements of its argument respects values that are filled in if what it does to
the elements does. -/
theorem respects_onElements (name : String) {f : Array Value → Outcome Value}
    (hf : ∀ xs ys : Array Value, AllFilled arrays xs.toList ys.toList →
      Yields (Filled arrays) (f xs) (f ys)) : Respects arrays (onArg elementsArg name f) :=
  fun _ _ h => (yields_takes h name 1).bind_eq fun _ => (yields_elementsArg h name 0).bind hf

/-- A function that needs a value without placeholders. -/
theorem respects_strict (name : String) {f : Value → Outcome Value} (hf : Strict f) :
    Respects arrays (fun args => do takes name 1 args; f (← arg name args 0)) := fun _ _ h =>
  (yields_takes h name 1).bind_eq fun _ => (yields_arg h name 0).bind fun _ _ hvw =>
    (hf.yields hvw).mono fun _ _ => .of_eq

/-! ## Numeric functions -/

/-- A strict function on leaves respects values that are filled in. -/
theorem respects_mapLeaf (name : String) {f : Value → Outcome Value} (hf : Strict f) :
    Respects arrays (mapLeaf name f) := respects_strict name hf.mapLeaves

/-- A function on Reals respects values that are filled in. -/
theorem respects_mapReal (name : String) (f : Float → Outcome Float) :
    Respects arrays (mapReal name f) := by
  refine respects_mapLeaf name fun leaf v h => ?_
  cases leaf with
  | integer _ | real _ => exact complete_atom rfl rfl
  | _ => cases h

/-- Only a number has an absolute value. -/
theorem strict_absoluteLeaf : Strict absoluteLeaf := by
  intro v a h
  cases v with
  | integer _ | real _ => exact complete_atom rfl rfl
  | _ => cases h

/-- Only a number has a sign. -/
theorem strict_signLeaf : Strict signLeaf := by
  intro v a h
  cases v with
  | integer _ | real _ => exact complete_atom rfl rfl
  | _ => cases h

/-- Only a number is rounded down. -/
theorem strict_integerLeaf : Strict integerLeaf := by
  intro v a h
  cases v with
  | integer _ | real _ => exact complete_atom rfl rfl
  | _ => cases h

/-- The arc tangent of two numbers respects values that are filled in. -/
theorem respects_arcTangent2 : Respects arrays arcTangent2 := fun _ _ h =>
  (yields_takes h _ 2).bind_eq fun _ => (readsSame_realArg h _ 0).bind_eq fun _ =>
    (readsSame_realArg h _ 1).bind_eq fun _ => yields_same _

/-- Only a number is read as one. -/
theorem strict_number (name : String) : Strict (number name) := by
  intro v x h
  cases v with
  | integer _ | real _ => exact complete_atom rfl rfl
  | _ => cases h

/-- A quotient of two Integers, or else of two numbers. -/
theorem strict₂_of_numbers (name : String) {f : Value → Value → Outcome Value}
    (hf : ∀ v w z, f v w = .ok z → (∃ a b, v = .integer a ∧ w = .integer b)
      ∨ ∃ x y, number name v = .ok x ∧ number name w = .ok y) : Strict₂ f := by
  intro v w z h
  rcases hf v w z h with ⟨a, b, rfl, rfl⟩ | ⟨x, y, hx, hy⟩
  · exact ⟨complete_atom rfl rfl, complete_atom rfl rfl⟩
  · exact ⟨strict_number name v x hx, strict_number name w y hy⟩

/-- Only numbers are divided as Integers. -/
theorem strict₂_integerDivide : Strict₂ integerDivide := by
  refine strict₂_of_numbers "div" fun v w z h => ?_
  unfold integerDivide at h
  split at h
  · exact .inl ⟨_, _, rfl, rfl⟩
  · obtain ⟨x, hx, h⟩ := bind_eq_ok.mp h
    obtain ⟨y, hy, -⟩ := bind_eq_ok.mp h
    exact .inr ⟨x, y, hx, hy⟩

/-- Only numbers have a modulo. -/
theorem strict₂_modulo : Strict₂ modulo := by
  refine strict₂_of_numbers "mod" fun v w z h => ?_
  unfold modulo at h
  split at h
  · exact .inl ⟨_, _, rfl, rfl⟩
  · obtain ⟨x, hx, h⟩ := bind_eq_ok.mp h
    obtain ⟨y, hy, -⟩ := bind_eq_ok.mp h
    exact .inr ⟨x, y, hx, hy⟩

/-- Only numbers have a remainder. -/
theorem strict₂_remainder : Strict₂ remainder := by
  refine strict₂_of_numbers "rem" fun v w z h => ?_
  unfold remainder at h
  split at h
  · exact .inl ⟨_, _, rfl, rfl⟩
  · obtain ⟨x, hx, h⟩ := bind_eq_ok.mp h
    obtain ⟨y, hy, -⟩ := bind_eq_ok.mp h
    exact .inr ⟨x, y, hx, hy⟩

/-- The best of some values is the best of them filled in. -/
theorem yields_best (name : String) (better : RelationOp) {vs ws : List Value}
    (h : AllFilled arrays vs ws) {v w : Value} (hvw : v.Filled arrays w) :
    Yields (Filled arrays) (best name better v vs) (best name better w ws) := by
  induction h generalizing v w with
  | nil => exact yields_ok hvw
  | @cons x y xs ys hxy _ ih =>
    rw [best, best]
    cases hrelate : relate? x better v with
    | none => exact yields_refuse _ _ _ _
    | some b =>
      obtain ⟨hx, hv⟩ := complete_of_relate? hrelate
      rw [hxy.eq_of_complete hx, hvw.eq_of_complete hv, hrelate]
      cases b with
      | true => exact ih (.refl x)
      | false => exact ih (.refl v)

/-- A minimum or maximum respects values that are filled in by no arrays. -/
theorem respects_extremum (name : String) (better : RelationOp) :
    Respects false (extremum name better) := by
  intro args args' h
  refine (yields_takesBetween h name 1 2).bind_eq fun _ => ?_
  rw [h.length_eq]
  refine .ite ?_ ?_
  · refine (yields_arg h name 0).bind fun a a' ha => (yields_arg h name 1).bind fun b b' hb => ?_
    exact yields_best name better (.cons hb .nil) ha
  · refine (yields_arg h name 0).bind fun v w hvw => ?_
    have hleaves := hvw.flatten
    generalize v.flatten = candidates, w.flatten = candidates' at hleaves ⊢
    cases hleaves with
    | nil => exact yields_fail _ _
    | cons hfirst hothers => exact yields_best name better hothers hfirst

/-! ## Array functions -/

/-- An identity matrix respects values that are filled in. -/
theorem respects_identityMatrix : Respects arrays identityMatrix := fun _ _ h =>
  (yields_takes h _ 1).bind_eq fun _ => (readsSame_sizeArg h _ 0).bind_eq fun _ => yields_same _

/-- Filling an array respects values that are filled in by no arrays. -/
theorem respects_fillArray : Respects false fillArray := by
  intro args args' h
  unfold fillArray
  rw [h.length_eq]
  refine .ite (yields_fail _ _) ((yields_sizesFrom h _ 1).bind_eq fun sizes => ?_)
  exact (yields_arg h _ 0).bind fun v w hvw => yields_ok (hvw.fill sizes)

/-- An array of one given value respects values that are filled in. -/
theorem respects_filledWith (name : String) (v : Value) : Respects arrays (filledWith name v) := by
  intro args args' h
  unfold filledWith
  have hempty : args'.isEmpty = args.isEmpty := by cases h <;> rfl
  rw [hempty]
  exact .ite (yields_fail _ _) ((yields_sizesFrom h name 0).bind_eq fun _ => yields_same _)

/-- Equally spaced numbers respect values that are filled in. -/
theorem respects_linspace : Respects arrays linspace := fun _ _ h =>
  (yields_takes h _ 3).bind_eq fun _ => (readsSame_realArg h _ 0).bind_eq fun _ =>
    (readsSame_realArg h _ 1).bind_eq fun _ => (readsSame_sizeArg h _ 2).bind_eq fun _ =>
      yields_same _

/-- Concatenation respects values that are filled in by no arrays. -/
theorem respects_cat : Respects false cat := fun _ _ h =>
  (readsSame_integerArg h _ 0).bind_eq fun _ =>
    .ite (yields_fail _ _) (yields_concat _ (forall₂_tail h))

/-- A sum or product of leaves respects values that are filled in. -/
theorem respects_foldLeaves (name : String) (op : Arith) :
    Respects arrays (foldLeaves name op) := by
  refine respects_strict name fun v z hz => complete_of_leaves fun leaf hleaf => ?_
  obtain ⟨acc, acc', hstep⟩ := exists_of_foldlM_eq_ok hz leaf hleaf
  exact (strict₂_scalarArith op acc leaf acc' hstep).2

/-- Appending dimensions respects values that are filled in by no arrays. -/
theorem respects_promote : Respects false promote := by
  intro args args' h
  refine (yields_takes h _ 2).bind_eq fun _ => (yields_arg h _ 0).bind fun v w hvw => ?_
  refine (readsSame_sizeArg h _ 1).bind_eq fun n => ?_
  simp only [rank, hvw.dims_eq]
  exact .ite (yields_fail _ _) (yields_ok (hvw.appendUnitDims _))

/-- Taking the only element respects values that are filled in by no arrays. -/
theorem respects_scalar : Respects false scalar := by
  intro args args' h
  refine (yields_takes h _ 1).bind_eq fun _ => (yields_arg h _ 0).bind fun v w hvw => ?_
  simp only [hvw.dims_eq]
  have hleaves := hvw.flatten
  generalize v.flatten = leaves, w.flatten = leaves' at hleaves ⊢
  refine .ite (yields_fail _ _) (yields_ok ?_)
  cases hleaves with
  | nil => exact hvw
  | cons hleaf _ => exact hleaf

/-- Making a vector respects values that are filled in by no arrays. -/
theorem respects_vectorOf : Respects false vectorOf := by
  intro args args' h
  refine (yields_takes h _ 1).bind_eq fun _ => (yields_arg h _ 0).bind fun v w hvw => ?_
  simp only [hvw.dims_eq]
  exact .ite (yields_fail _ _) (yields_ok (.vector hvw.flatten))

/-- Making a matrix respects values that are filled in by no arrays. -/
theorem respects_matrixOf : Respects false matrixOf := by
  intro args args' h
  refine (yields_takes h _ 1).bind_eq fun _ => (yields_arg h _ 0).bind fun v w hvw => ?_
  rw [hvw.dims_eq]
  split
  · exact yields_ok (.matrix (.cons (.cons hvw .nil) .nil) 1)
  · exact yields_ok (.fromFlat hvw.flatten _)
  · exact yields_ok hvw
  · exact .ite (yields_ok (.fromFlat hvw.flatten _)) (yields_fail _ _)

/-- Transposing respects values that are filled in by no arrays. -/
theorem respects_transpose : Respects false transpose := by
  intro args args' h
  refine (yields_takes h _ 1).bind_eq fun _ => (yields_arg h _ 0).bind fun v w hvw => ?_
  split
  · rename_i t ht
    obtain ⟨t', ht', htt'⟩ := hvw.transpose? ht
    rw [ht']
    exact yields_ok htt'
  · exact yields_refuse _ _ _ _

/-- The rows of a square matrix are filled in as the matrix is. -/
theorem yields_squareRows (name : String) {v w : Value} (h : v.Filled arrays w) :
    Yields (List.Forall₂ (AllFilled arrays)) (squareRows name v) (squareRows name w) := by
  unfold squareRows
  cases hrows : v.rows? with
  | none => exact yields_refuse _ _ _ _
  | some rows =>
    obtain ⟨rows', hrows', hrel⟩ := h.rows? hrows
    have hlengths : rows.any (fun row => row.length ≠ rows.length)
        = rows'.any fun row => row.length ≠ rows'.length := by
      rw [hrel.length_eq]
      generalize rows'.length = n
      clear hrows hrows'
      induction hrel with
      | nil => rfl
      | cons hrow _ ih => rw [List.any_cons, List.any_cons, hrow.length_eq, ih]
    simp only [hrows', hlengths]
    exact .ite (yields_fail _ _) (yields_ok hrel)

/-- Functions of position and item that relate related items relate the results on related lists. -/
theorem forall₂_mapIdx {α β γ δ : Type} {R : α → β → Prop} {S : γ → δ → Prop} {f : Nat → α → γ}
    {g : Nat → β → δ} (hfg : ∀ i a b, R a b → S (f i a) (g i b)) {as : List α} {bs : List β}
    (h : List.Forall₂ R as bs) : List.Forall₂ S (as.mapIdx f) (bs.mapIdx g) := by
  induction h generalizing f g with
  | nil => exact .nil
  | cons hab _ ih =>
    rw [List.mapIdx_cons, List.mapIdx_cons]
    exact .cons (hfg 0 _ _ hab) (ih fun i => hfg (i + 1))

/-- Making a matrix symmetric respects values that are filled in. -/
theorem respects_symmetric : Respects arrays symmetric := by
  intro args args' h
  refine (yields_takes h _ 1).bind_eq fun _ => (yields_arg h _ 0).bind fun v w hvw => ?_
  refine (yields_squareRows _ hvw).bind fun rows rows' hrows => ?_
  rw [hrows.length_eq]
  refine yields_ok (.matrix (forall₂_mapIdx (fun i row row' hrow => ?_) hrows) _)
  refine List.rel_append (List.rel_filterMap (fun upper upper' hupper => ?_)
    (List.forall₂_take i hrows)) (List.forall₂_drop i hrow)
  show Option.Rel (Filled arrays) upper[i]? upper'[i]?
  cases hitem : upper[i]? with
  | none => rw [getElem?_eq_none_of_forall₂ hupper hitem]; exact .none
  | some item =>
    obtain ⟨item', hitem', hrel⟩ := getElem?_of_forall₂ hupper hitem
    rw [hitem']
    exact .some hrel

/-- The three components of a vector are filled in as the vector is. -/
theorem yields_triple {args args' : List Value} (h : AllFilled arrays args args') (name : String)
    (i : Nat) :
    Yields (fun x y : Value × Value × Value => x.1.Filled arrays y.1 ∧ x.2.1.Filled arrays y.2.1
      ∧ x.2.2.Filled arrays y.2.2) (triple name args i) (triple name args' i) := by
  refine (yields_elementsArg h name i).bind fun xs ys hall => ?_
  generalize xs.toList = as, ys.toList = bs at hall ⊢
  match hall with
  | .cons ha (.cons hb (.cons hc .nil)) => exact yields_ok ⟨ha, hb, hc⟩
  | .nil => exact yields_fail _ _
  | .cons _ .nil => exact yields_fail _ _
  | .cons _ (.cons _ .nil) => exact yields_fail _ _
  | .cons _ (.cons _ (.cons _ (.cons _ _))) => exact yields_fail _ _

/-- A determinant of two rows and columns is the same filled in. -/
theorem yields_minor {a a' b b' c c' d d' : Value} (ha : a.Filled arrays a')
    (hb : b.Filled arrays b') (hc : c.Filled arrays c') (hd : d.Filled arrays d') :
    Yields Eq (minor a b c d) (minor a' b' c' d') :=
  ((strict₂_scalarArith .mul).yields ha hd).bind_eq fun _ =>
    ((strict₂_scalarArith .mul).yields hb hc).bind_eq fun _ => yields_refl (fun _ => rfl) _

/-- A cross product respects values that are filled in. -/
theorem respects_cross : Respects arrays cross := by
  intro args args' h
  refine (yields_takes h _ 2).bind_eq fun _ => ?_
  refine (yields_triple h _ 0).bind fun x x' ⟨hx₁, hx₂, hx₃⟩ => ?_
  refine (yields_triple h _ 1).bind fun y y' ⟨hy₁, hy₂, hy₃⟩ => ?_
  refine (yields_minor hx₂ hx₃ hy₂ hy₃).bind_eq fun _ => ?_
  refine (yields_minor hx₃ hx₁ hy₃ hy₁).bind_eq fun _ => ?_
  exact (yields_minor hx₁ hx₂ hy₁ hy₂).bind_eq fun _ => yields_same _

/-- Every element is subtracted from zero. -/
theorem respects_skew : Respects arrays skew := by
  intro args args' h
  refine (yields_takes h _ 1).bind_eq fun _ => ?_
  refine (yields_triple h _ 0).bind fun x x' ⟨hx₁, hx₂, hx₃⟩ => ?_
  intro v hv
  obtain ⟨minus₃, h₃, hv'⟩ := bind_eq_ok.mp hv
  obtain ⟨minus₁, h₁, hv'⟩ := bind_eq_ok.mp hv'
  obtain ⟨minus₂, h₂, -⟩ := bind_eq_ok.mp hv'
  have hsame : x' = x := by
    refine Prod.ext ?_ (Prod.ext ?_ ?_)
    · exact hx₁.eq_of_complete (strict₂_scalarArith .sub _ _ _ h₁).2
    · exact hx₂.eq_of_complete (strict₂_scalarArith .sub _ _ _ h₂).2
    · exact hx₃.eq_of_complete (strict₂_scalarArith .sub _ _ _ h₃).2
  rw [hsame]
  exact ⟨v, hv, .refl v⟩

/-- An outer product respects values that are filled in. -/
theorem respects_outerProduct : Respects arrays outerProduct := by
  intro args args' h
  refine (yields_takes h _ 2).bind_eq fun _ => ?_
  refine (yields_elementsArg h _ 0).bind fun xs xs' hxs => ?_
  refine (yields_elementsArg h _ 1).bind fun ys ys' hys => ?_
  simp only [hys.length_eq]
  have hproducts := yields_mapM_eq hxs fun _ _ hx => yields_mapM_eq hys fun _ _ hy =>
    (strict₂_scalarArith .mul).yields hx hy
  exact hproducts.bind_eq fun _ => yields_same _

/-! ## Texts -/

/-- Printing a value respects values that are filled in. -/
theorem respects_toText : Respects arrays toText := by
  intro args args' h
  have hdigits : Yields Eq (significantDigits args) (significantDigits args') := by
    unfold significantDigits
    cases harg : args[1]? with
    | none =>
      rw [getElem?_eq_none_of_forall₂ h harg]
      exact yields_refl (fun _ => rfl) _
    | some v =>
      obtain ⟨w, hw, hvw⟩ := getElem?_of_forall₂ h harg
      have hunboxed := hvw.unboxed
      rw [hw, Option.map_some, Option.map_some]
      generalize v.unboxed = v, w.unboxed = w at hunboxed ⊢
      cases hunboxed with
      | integer d => exact yields_refl (fun _ => rfl) _
      | string s => exact yields_fail _ _
      | _ => exact yields_refuse _ _ _ _
  have hscalar : ∀ {v w : Value}, v.Filled arrays w →
      Yields Eq (scalarText v args) (scalarText w args') := by
    intro v w hvw
    cases hvw with
    | real x => exact hdigits.bind_eq fun _ => yields_ok rfl
    | integer n => exact yields_ok rfl
    | bool b => exact yields_ok rfl
    | string s => exact yields_ok rfl
    | enumeration path index => exact yields_ok rfl
    | _ => exact yields_refuse _ _ _ _
  refine (yields_takesBetween h _ 1 4).bind_eq fun _ => ?_
  refine (yields_arg h _ 0).bind fun v w hvw => (hscalar hvw).bind_eq fun text => ?_
  refine (readsSame_integerArg.optionalArg 0 h _ _).bind_eq fun _ => ?_
  exact (readsSame_boolArg.optionalArg true h _ _).bind_eq fun _ => yields_same _

/-- The position of an enumeration literal respects values that are filled in. -/
theorem respects_literalIndex : Respects arrays literalIndex := by
  refine respects_strict "Integer" fun v z hz => ?_
  cases v with
  | integer _ | enumeration _ _ => exact complete_atom rfl rfl
  | _ => cases hz

/-- The value that marks a failure respects values that are filled in. -/
theorem respects_failed : Respects arrays failed := fun _ _ h =>
  (yields_takes h _ 0).bind_eq fun _ => yields_same _

/-! ## Characters, lists and options -/

/-- Joining a list of strings respects values that are filled in. -/
theorem respects_stringAppendList : Respects arrays stringAppendList := by
  refine respects_onElements _ fun xs ys hall => ?_
  have hparts : Yields Eq (xs.toList.mapM stringPart) (ys.toList.mapM stringPart) := by
    refine yields_mapM_eq hall fun v w hvw => ?_
    unfold stringPart
    have hunboxed := hvw.unboxed
    generalize v.unboxed = v, w.unboxed = w at hunboxed ⊢
    cases hunboxed with
    | string s => exact yields_ok rfl
    | _ => exact yields_refuse _ _ _ _
  exact hparts.bind_eq fun _ => yields_same _

/-- The character at a position respects values that are filled in. -/
theorem respects_stringGetStringChar : Respects arrays stringGetStringChar := fun _ _ h =>
  (yields_takes h _ 2).bind_eq fun _ => (readsSame_stringArg h _ 0).bind_eq fun _ =>
    (readsSame_integerArg h _ 1).bind_eq fun _ => yields_same _

/-- Appending two lists respects values that are filled in. -/
theorem respects_listAppend : Respects arrays listAppend := by
  intro args args' h
  refine (yields_takes h _ 2).bind_eq fun _ => ?_
  refine (yields_elementsArg h _ 0).bind fun xs xs' hxs => ?_
  refine (yields_elementsArg h _ 1).bind fun ys ys' hys => ?_
  refine yields_ok (.list ?_)
  rw [Array.toList_append, Array.toList_append]
  exact List.rel_append hxs hys

/-- Reversing a list respects values that are filled in. -/
theorem respects_listReverse : Respects arrays listReverse := by
  refine respects_onElements _ fun xs ys hall => yields_ok (.list ?_)
  rw [Array.toList_reverse, Array.toList_reverse]
  exact List.rel_reverse hall

/-- The number of elements respects values that are filled in. -/
theorem respects_lengthOf (name : String) : Respects arrays (lengthOf name) :=
  respects_onElements name fun xs ys hall => by
    rw [← Array.length_toList, ← Array.length_toList, hall.length_eq]
    exact yields_same _

/-- The head of a list respects values that are filled in. -/
theorem respects_listHead : Respects arrays listHead := by
  refine respects_onElements _ fun xs ys hall => ?_
  obtain ⟨xs⟩ := xs
  obtain ⟨ys⟩ := ys
  cases hall with
  | nil => exact yields_fail _ _
  | cons hhead _ => exact yields_ok hhead

/-- The rest of a list respects values that are filled in. -/
theorem respects_listRest : Respects arrays listRest := by
  refine respects_onElements _ fun xs ys hall => ?_
  obtain ⟨xs⟩ := xs
  obtain ⟨ys⟩ := ys
  cases hall with
  | nil => exact yields_fail _ _
  | cons hhead hrest =>
    refine yields_ok (.list ?_)
    simpa using hrest

/-- The element at a position respects values that are filled in. -/
theorem respects_elementAt (name : String) : Respects arrays (elementAt name) := fun _ _ h =>
  (yields_takes h name 2).bind_eq fun _ => (yields_elementsArg h name 0).bind fun _ _ hall =>
    (readsSame_integerArg h name 1).bind_eq fun i => yields_nth hall i

/-- Asking whether a list is empty respects values that are filled in. -/
theorem respects_listEmpty : Respects arrays listEmpty := by
  refine respects_onElements _ fun xs ys hall => ?_
  have hempty : ys.isEmpty = xs.isEmpty := by
    simp only [Array.isEmpty, ← Array.length_toList, hall.length_eq]
  rw [hempty]
  exact yields_same _

/-- Making an array of a list respects values that are filled in. -/
theorem respects_listArray : Respects arrays listArray :=
  respects_onElements _ fun _ _ hall => yields_ok (.vector hall)

/-- Making a list of an array respects values that are filled in. -/
theorem respects_arrayList : Respects arrays arrayList :=
  respects_onElements _ fun _ _ hall => yields_ok (.list hall)

/-- Asking whether an option holds a value respects values that are filled in. -/
theorem respects_optionHolds (name : String) (wanted : Bool) :
    Respects arrays (optionHolds name wanted) := by
  intro args args' h
  refine (yields_takes h name 1).bind_eq fun _ => (yields_arg h name 0).bind fun v w hvw => ?_
  cases hvw with
  | present _ => exact yields_same _
  | absent => exact yields_same _
  | _ => exact yields_refuse _ _ _ _

end

/-! ## The tables -/

/-- The functions that look at the sizes of their arguments. -/
def readsShape : List String :=
  ["cat", "fill", "matrix", "max", "min", "promote", "scalar", "transpose", "vector"]

/-- The functions that tell a placeholder from the value it stands for. -/
def readsWhole : List String := ["diagonal", "listMember"]

/-- What a built-in function asks of its arguments: nothing, that their sizes are known, or that all
of them is. -/
def Tolerates (name : String) (f : Function) : Prop :=
  (∀ arrays, Respects arrays f) ∨ (name ∈ readsShape ∧ Respects false f) ∨ name ∈ readsWhole

/-- Every function of values of the base language asks no more of its arguments than the tables of
names say. -/
theorem tolerates_baseTable :
    ∀ entry ∈ baseTable, ∀ f, entry.2 = .ofValues f → Tolerates entry.1 f := by
  simp only [baseTable, special, List.forall_mem_cons, Rule.ofValues.injEq, reduceCtorEq,
    false_implies, implies_true, forall_eq', List.not_mem_nil, and_true, true_and]
  have hshape : ∀ {name : String} {f : Function}, Respects false f → name ∈ readsShape →
      Tolerates name f := fun h hname => .inr (.inl ⟨hname, h⟩)
  exact ⟨.inl fun _ => respects_literalIndex, .inl fun _ => respects_toText,
    .inl fun _ => respects_mapLeaf _ strict_absoluteLeaf, .inl fun _ => respects_mapReal _ _,
    .inl fun _ => respects_mapReal _ _, .inl fun _ => respects_mapReal _ _,
    .inl fun _ => respects_arcTangent2, hshape respects_cat (by decide),
    .inl fun _ => respects_mapReal _ _, .inl fun _ => respects_mapReal _ _,
    .inl fun _ => respects_mapReal _ _, .inl fun _ => respects_cross, .inr (.inr (by decide)),
    .inl fun _ => respects_mapReal _ _, .inl fun _ => respects_failed,
    hshape respects_fillArray (by decide), .inl fun _ => respects_mapReal _ _,
    .inl fun _ => respects_identityMatrix, .inl fun _ => respects_mapLeaf _ strict_integerLeaf,
    .inl fun _ => respects_linspace, .inl fun _ => respects_mapReal _ _,
    .inl fun _ => respects_mapReal _ _, hshape respects_matrixOf (by decide),
    hshape (respects_extremum _ _) (by decide), hshape (respects_extremum _ _) (by decide),
    .inl fun _ => respects_filledWith _ _, .inl fun _ => respects_outerProduct,
    .inl fun _ => respects_foldLeaves _ _, hshape respects_promote (by decide),
    hshape respects_scalar (by decide), .inl fun _ => respects_mapLeaf _ strict_signLeaf,
    .inl fun _ => respects_mapReal _ _, .inl fun _ => respects_mapReal _ _,
    .inl fun _ => respects_skew, .inl fun _ => respects_mapReal _ _,
    .inl fun _ => respects_foldLeaves _ _, .inl fun _ => respects_symmetric,
    .inl fun _ => respects_mapReal _ _, .inl fun _ => respects_mapReal _ _,
    hshape respects_transpose (by decide), hshape respects_vectorOf (by decide),
    .inl fun _ => respects_filledWith _ _⟩

/-- Every function of the extension asks no more of its arguments than the tables of names say. -/
theorem tolerates_extensionTable : ∀ entry ∈ extensionTable, Tolerates entry.1 entry.2 := by
  simp only [extensionTable, List.forall_mem_cons, List.not_mem_nil, false_implies, implies_true,
    and_true]
  exact ⟨.inl fun _ => respects_elementAt _, .inl fun _ => respects_lengthOf _,
    .inl fun _ => respects_arrayList, .inl fun _ => respects_onArg readsSame_boolArg _ _,
    .inl fun _ => respects_onArg readsSame_integerArg _ _,
    .inl fun _ => respects_onArgs readsSame_integerArg _ _,
    .inl fun _ => respects_onArgs readsSame_integerArg _ _,
    .inl fun _ => respects_onArg readsSame_integerArg _ _,
    .inl fun _ => respects_onArg readsSame_integerArg _ _,
    .inl fun _ => respects_onArg readsSame_integerArg _ _,
    .inl fun _ => respects_optionHolds _ _, .inl fun _ => respects_optionHolds _ _,
    .inl fun _ => respects_listAppend, .inl fun _ => respects_listArray,
    .inl fun _ => respects_listEmpty, .inl fun _ => respects_elementAt _,
    .inl fun _ => respects_listHead, .inl fun _ => respects_lengthOf _, .inr (.inr (by decide)),
    .inl fun _ => respects_listRest, .inl fun _ => respects_listReverse,
    .inl fun _ => respects_onArg readsSame_realArg _ _,
    .inl fun _ => respects_onArg readsSame_realArg _ _,
    .inl fun _ => respects_onArgs readsSame_stringArg _ _, .inl fun _ => respects_stringAppendList,
    .inl fun _ => respects_onArg readsSame_stringArg _ _,
    .inl fun _ => respects_onArgs readsSame_stringArg _ _,
    .inl fun _ => respects_onArgs readsSame_stringArg _ _,
    .inl fun _ => respects_stringGetStringChar,
    .inl fun _ => respects_onArg readsSame_stringArg _ _,
    .inl fun _ => respects_onArg readsSame_stringArg _ _,
    .inl fun _ => respects_onArg readsSame_stringArg _ _,
    .inl fun _ => respects_onArg readsSame_stringArg _ _⟩

/-- Every built-in function of the values of its arguments. -/
theorem tolerates_of_rule {name : String} {extended : Bool} {f : Function}
    (h : rule? name extended = some (.ofValues f)) : Tolerates name f := by
  rcases mem_of_rule h with hbase | ⟨g, hg, heq⟩
  · exact tolerates_baseTable _ hbase f rfl
  · cases heq
    exact tolerates_extensionTable _ hg

end ModelicaFold.Builtin
