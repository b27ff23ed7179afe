import ModelicaFold.Eval.Call
import ModelicaFold.Proofs.Failures.Ordinary
import ModelicaFold.Proofs.Scopes.Values

/-!
# Ordinary failures of built-in functions

Built-in functions and external functions with a known meaning fail for causes of their own
(`ordinary_of_rule`, `ordinary_of_external`). They read their arguments first; what is refused
there is refused in one of a few ways.
-/

namespace ModelicaFold.Builtin

open Outcome

/-- A function whose failures are ordinary. -/
def FailsOrdinarily (f : Function) : Prop := ∀ args, Ordinary (f args)

/-! ## Arguments -/

/-- A wrong number of arguments is an ordinary failure. -/
theorem ordinary_takesBetween {α : Type} (name : String) (least most : Nat) (args : List α) :
    Ordinary (takesBetween name least most args) :=
  (ordinary_ok _).ite ((ordinary_fail rfl).ite (ordinary_fail rfl))

/-- A number of arguments other than the one taken is an ordinary failure. -/
theorem ordinary_takes {α : Type} (name : String) (n : Nat) (args : List α) :
    Ordinary (takes name n args) :=
  ordinary_takesBetween name n n args

/-- An argument that is not there is an ordinary failure. -/
theorem ordinary_arg (name : String) (args : List Value) (i : Nat) : Ordinary (arg name args i) := by
  unfold arg
  split
  · exact ordinary_ok _
  · exact ordinary_fail rfl

/-- A way to read arguments that fails ordinarily. -/
def ReadsOrdinarily {α : Type} (read : String → List Value → Nat → Outcome α) : Prop :=
  ∀ name args i, Ordinary (read name args i)

/-- An argument that a reader does not accept is an ordinary failure. -/
theorem readsOrdinarily_readArg {α : Type} (read? : Value → Option α) (want : String) :
    ReadsOrdinarily (readArg read? want) := by
  intro name args i
  unfold readArg
  refine (ordinary_arg name args i).bind fun v => ?_
  split
  · exact ordinary_pure _
  · exact Value.ordinary_refuse _ _ _

/-- Integers are read with ordinary failures. -/
theorem readsOrdinarily_integerArg : ReadsOrdinarily integerArg := readsOrdinarily_readArg _ _

/-- Reals are read with ordinary failures. -/
theorem readsOrdinarily_realArg : ReadsOrdinarily realArg := readsOrdinarily_readArg _ _

/-- Booleans are read with ordinary failures. -/
theorem readsOrdinarily_boolArg : ReadsOrdinarily boolArg := readsOrdinarily_readArg _ _

/-- Strings are read with ordinary failures. -/
theorem readsOrdinarily_stringArg : ReadsOrdinarily stringArg := readsOrdinarily_readArg _ _

/-- Arrays and lists are read with ordinary failures. -/
theorem readsOrdinarily_elementsArg : ReadsOrdinarily elementsArg := readsOrdinarily_readArg _ _

/-- A size is read with ordinary failures, also where it is negative. -/
theorem readsOrdinarily_sizeArg : ReadsOrdinarily sizeArg := by
  intro name args i
  refine (readsOrdinarily_integerArg name args i).bind fun n => ?_
  exact (ordinary_fail rfl).ite (ordinary_pure _)

/-- An argument that may be left out is read as one that may not. -/
theorem ReadsOrdinarily.optionalArg {α : Type} {read : String → List Value → Nat → Outcome α}
    (h : ReadsOrdinarily read) (default : α) : ReadsOrdinarily (Builtin.optionalArg read default) :=
  fun name args i => (h name args i).ite (ordinary_ok _)

/-- The sizes from a position on are read with ordinary failures. -/
theorem ordinary_sizesFrom (name : String) (args : List Value) (i : Nat) :
    Ordinary (sizesFrom name args i) :=
  .mapM fun k _ => readsOrdinarily_sizeArg name args (i + k)

/-- A function of one argument fails ordinarily if it does on what is read. -/
theorem failsOrdinarily_onArg {α : Type} {read : String → List Value → Nat → Outcome α}
    (hread : ReadsOrdinarily read) (name : String) {f : α → Outcome Value}
    (hf : ∀ a, Ordinary (f a)) : FailsOrdinarily (onArg read name f) := fun args =>
  (ordinary_takes name 1 args).bind fun _ => (hread name args 0).bind hf

/-- A function of two arguments fails ordinarily if it does on what is read. -/
theorem failsOrdinarily_onArgs {α : Type} {read : String → List Value → Nat → Outcome α}
    (hread : ReadsOrdinarily read) (name : String) {f : α → α → Outcome Value}
    (hf : ∀ a b, Ordinary (f a b)) : FailsOrdinarily (onArgs read name f) := fun args =>
  (ordinary_takes name 2 args).bind fun _ =>
    (hread name args 0).bind fun a => (hread name args 1).bind fun b => hf a b

/-- A function of one argument that has a value for every argument it can read. -/
theorem failsOrdinarily_onArg_ok {α : Type} {read : String → List Value → Nat → Outcome α}
    (hread : ReadsOrdinarily read) (name : String) (f : α → Value) :
    FailsOrdinarily (onArg read name fun a => .ok (f a)) :=
  failsOrdinarily_onArg hread name fun a => ordinary_ok (f a)

/-- A function of two arguments that cannot fail on what is read fails ordinarily. -/
theorem failsOrdinarily_onArgs_ok {α : Type} {read : String → List Value → Nat → Outcome α}
    (hread : ReadsOrdinarily read) (name : String) (f : α → α → Value) :
    FailsOrdinarily (onArgs read name fun a b => .ok (f a b)) :=
  failsOrdinarily_onArgs hread name fun a b => ordinary_ok (f a b)

/-! ## Numeric functions -/

/-- A function on leaves fails ordinarily if it does on each leaf. -/
theorem failsOrdinarily_mapLeaf (name : String) {f : Value → Outcome Value}
    (hf : ∀ v, Ordinary (f v)) : FailsOrdinarily (mapLeaf name f) := fun args =>
  (ordinary_takes name 1 args).bind fun _ =>
    (ordinary_arg name args 0).bind fun v => Value.ordinary_mapLeaves hf v

/-- A function on Reals fails ordinarily if it does on each number. -/
theorem failsOrdinarily_mapReal (name : String) {f : Float → Outcome Float}
    (hf : ∀ x, Ordinary (f x)) : FailsOrdinarily (mapReal name f) := by
  refine failsOrdinarily_mapLeaf name fun leaf => ?_
  split
  · exact (hf _).map _
  · exact Value.ordinary_refuse _ _ _

/-- The square root of a negative number is an ordinary failure. -/
theorem ordinary_squareRoot (x : Float) : Ordinary (squareRoot x) :=
  (ordinary_fail rfl).ite (ordinary_ok _)

/-- A number that is not positive is an ordinary failure. -/
theorem ordinary_onPositive (name : String) (f : Float → Float) (x : Float) :
    Ordinary (onPositive name f x) :=
  (ordinary_ok _).ite (ordinary_fail rfl)

/-- A number outside the unit interval is an ordinary failure. -/
theorem ordinary_onUnit (name : String) (f : Float → Float) (x : Float) :
    Ordinary (onUnit name f x) :=
  (ordinary_ok _).ite (ordinary_fail rfl)

/-- A function defined on all Reals fails only in reading its argument. -/
theorem failsOrdinarily_total (name : String) (f : Float → Float) :
    FailsOrdinarily (mapReal name (total f)) :=
  failsOrdinarily_mapReal name fun x => ordinary_ok (f x)

/-- The arc tangent of two numbers fails ordinarily. -/
theorem failsOrdinarily_arcTangent2 : FailsOrdinarily arcTangent2 := fun args =>
  (ordinary_takes _ 2 args).bind fun _ =>
    (readsOrdinarily_realArg _ args 0).bind fun _ =>
      (readsOrdinarily_realArg _ args 1).bind fun _ => ordinary_pure _

/-- An absolute value fails ordinarily. -/
theorem ordinary_absoluteLeaf (v : Value) : Ordinary (absoluteLeaf v) := by
  unfold absoluteLeaf
  split
  · exact ordinary_inRange _ _
  · exact ordinary_ok _
  · exact Value.ordinary_refuse _ _ _

/-- A sign fails ordinarily. -/
theorem ordinary_signLeaf (v : Value) : Ordinary (signLeaf v) := by
  unfold signLeaf
  split
  · exact ordinary_ok _
  · exact ordinary_ok _
  · exact Value.ordinary_refuse _ _ _

/-- Rounding down to an Integer fails ordinarily. -/
theorem ordinary_integerLeaf (v : Value) : Ordinary (integerLeaf v) := by
  unfold integerLeaf
  split
  · exact ordinary_ok _
  · exact ordinary_wholeReal _ _
  · exact Value.ordinary_refuse _ _ _

/-- A value that is no number is an ordinary failure. -/
theorem ordinary_number (name : String) (v : Value) : Ordinary (number name v) := by
  unfold number
  split
  · exact ordinary_ok _
  · exact Value.ordinary_refuse _ _ _

/-- Integer division fails ordinarily. -/
theorem ordinary_integerDivide (x y : Value) : Ordinary (integerDivide x y) := by
  unfold integerDivide
  split
  · exact ordinary_inRange _ _
  · exact (ordinary_number "div" x).bind fun _ =>
      (ordinary_number "div" y).bind fun _ => ordinary_pure _

/-- The modulo of two numbers fails ordinarily. -/
theorem ordinary_modulo (x y : Value) : Ordinary (modulo x y) := by
  unfold modulo
  split
  · exact (ordinary_fail rfl).ite (ordinary_ok _)
  · exact (ordinary_number "mod" x).bind fun _ =>
      (ordinary_number "mod" y).bind fun _ => ordinary_pure _

/-- The remainder of two numbers fails ordinarily. -/
theorem ordinary_remainder (x y : Value) : Ordinary (remainder x y) := by
  unfold remainder
  split
  · exact (ordinary_fail rfl).ite (ordinary_ok _)
  · exact (ordinary_number "rem" x).bind fun _ =>
      (ordinary_number "rem" y).bind fun _ => ordinary_pure _

/-- Looking for the best value fails ordinarily, also where two of them cannot be compared. -/
theorem ordinary_best (name : String) (better : RelationOp) (champion : Value) (vs : List Value) :
    Ordinary (best name better champion vs) := by
  induction vs generalizing champion with
  | nil => exact ordinary_ok champion
  | cons v vs ih =>
    rw [best]
    split
    · exact ih v
    · exact ih champion
    · exact Value.ordinary_refuse _ _ _

/-- A minimum or maximum fails ordinarily. -/
theorem failsOrdinarily_extremum (name : String) (better : RelationOp) :
    FailsOrdinarily (extremum name better) := by
  intro args
  refine (ordinary_takesBetween name 1 2 args).bind fun _ => .ite ?_ ?_
  · refine (ordinary_arg name args 0).bind fun a => (ordinary_arg name args 1).bind fun b => ?_
    exact ordinary_best name better a [b]
  · refine (ordinary_arg name args 0).bind fun v => ?_
    generalize v.flatten = candidates
    cases candidates with
    | nil => exact ordinary_fail rfl
    | cons first others => exact ordinary_best name better first others

/-! ## Array functions -/

/-- A matrix that is not square is an ordinary failure. -/
theorem ordinary_squareRows (name : String) (m : Value) : Ordinary (squareRows name m) := by
  unfold squareRows
  split
  · exact Value.ordinary_refuse _ _ _
  · exact (ordinary_fail rfl).ite (ordinary_ok _)

/-- A vector that has not three components is an ordinary failure. -/
theorem ordinary_triple (name : String) (args : List Value) (i : Nat) :
    Ordinary (triple name args i) := by
  refine (readsOrdinarily_elementsArg name args i).bind fun elements => ?_
  split
  · exact ordinary_pure _
  · exact ordinary_fail rfl

/-- A diagonal matrix is made with ordinary failures. -/
theorem failsOrdinarily_diagonal : FailsOrdinarily diagonal := fun args =>
  (ordinary_takes _ 1 args).bind fun _ =>
    (readsOrdinarily_elementsArg _ args 0).bind fun _ => ordinary_pure _

/-- An identity matrix is made with ordinary failures. -/
theorem failsOrdinarily_identityMatrix : FailsOrdinarily identityMatrix := fun args =>
  (ordinary_takes _ 1 args).bind fun _ =>
    (readsOrdinarily_sizeArg _ args 0).bind fun _ => ordinary_pure _

/-- An array is filled with ordinary failures. -/
theorem failsOrdinarily_fillArray : FailsOrdinarily fillArray := fun args =>
  .ite (ordinary_fail rfl) ((ordinary_sizesFrom _ args 1).bind fun _ =>
    (ordinary_arg _ args 0).bind fun _ => ordinary_pure _)

/-- An array of one given value is made with ordinary failures. -/
theorem failsOrdinarily_filledWith (name : String) (v : Value) :
    FailsOrdinarily (filledWith name v) := fun args =>
  .ite (ordinary_fail rfl) ((ordinary_sizesFrom name args 0).bind fun _ => ordinary_pure _)

/-- Equidistant numbers are made with ordinary failures. -/
theorem failsOrdinarily_linspace : FailsOrdinarily linspace := by
  intro args
  refine (ordinary_takes _ 3 args).bind fun _ => ?_
  refine (readsOrdinarily_realArg _ args 0).bind fun _ => ?_
  refine (readsOrdinarily_realArg _ args 1).bind fun _ => ?_
  refine (readsOrdinarily_sizeArg _ args 2).bind fun _ => ?_
  exact (ordinary_fail rfl).ite (ordinary_pure _)

/-- Concatenation along a dimension fails ordinarily. -/
theorem failsOrdinarily_cat : FailsOrdinarily cat := fun args =>
  (readsOrdinarily_integerArg _ args 0).bind fun _ =>
    .ite (ordinary_fail rfl) (Value.ordinary_concat _ _)

/-- A sum or product of leaves fails ordinarily. -/
theorem failsOrdinarily_foldLeaves (name : String) (op : Arith) :
    FailsOrdinarily (foldLeaves name op) := fun args =>
  (ordinary_takes name 1 args).bind fun _ =>
    (ordinary_arg name args 0).bind fun _ => .foldlM (Value.ordinary_scalarArith op) _ _

/-- Appending dimensions fails ordinarily. -/
theorem failsOrdinarily_promote : FailsOrdinarily promote := fun args =>
  (ordinary_takes _ 2 args).bind fun _ =>
    (ordinary_arg _ args 0).bind fun _ =>
      (readsOrdinarily_sizeArg _ args 1).bind fun _ => (ordinary_fail rfl).ite (ordinary_pure _)

/-- Taking the only element fails ordinarily. -/
theorem failsOrdinarily_scalar : FailsOrdinarily scalar := fun args =>
  (ordinary_takes _ 1 args).bind fun _ =>
    (ordinary_arg _ args 0).bind fun _ => (ordinary_fail rfl).ite (ordinary_pure _)

/-- Making a vector fails ordinarily. -/
theorem failsOrdinarily_vectorOf : FailsOrdinarily vectorOf := fun args =>
  (ordinary_takes _ 1 args).bind fun _ =>
    (ordinary_arg _ args 0).bind fun _ => (ordinary_fail rfl).ite (ordinary_pure _)

/-- Making a matrix fails ordinarily. -/
theorem failsOrdinarily_matrixOf : FailsOrdinarily matrixOf := by
  intro args
  refine (ordinary_takes _ 1 args).bind fun _ => (ordinary_arg _ args 0).bind fun v => ?_
  split
  · exact ordinary_pure _
  · exact ordinary_pure _
  · exact ordinary_pure _
  · exact (ordinary_pure _).ite (ordinary_fail rfl)

/-- Transposing fails ordinarily. -/
theorem failsOrdinarily_transpose : FailsOrdinarily transpose := by
  intro args
  refine (ordinary_takes _ 1 args).bind fun _ => (ordinary_arg _ args 0).bind fun v => ?_
  split
  · exact ordinary_pure _
  · exact Value.ordinary_refuse _ _ _

/-- Making a matrix symmetric fails ordinarily. -/
theorem failsOrdinarily_symmetric : FailsOrdinarily symmetric := fun args =>
  (ordinary_takes _ 1 args).bind fun _ =>
    (ordinary_arg _ args 0).bind fun v =>
      (ordinary_squareRows _ v).bind fun _ => ordinary_pure _

/-- A determinant of two rows and columns fails ordinarily. -/
theorem ordinary_minor (a b c d : Value) : Ordinary (minor a b c d) :=
  (Value.ordinary_scalarArith .mul a d).bind fun ad =>
    (Value.ordinary_scalarArith .mul b c).bind fun bc => Value.ordinary_scalarArith .sub ad bc

/-- A cross product fails ordinarily. -/
theorem failsOrdinarily_cross : FailsOrdinarily cross := fun args =>
  (ordinary_takes _ 2 args).bind fun _ =>
    (ordinary_triple _ args 0).bind fun _ =>
      (ordinary_triple _ args 1).bind fun _ =>
        (ordinary_minor _ _ _ _).bind fun _ =>
          (ordinary_minor _ _ _ _).bind fun _ =>
            (ordinary_minor _ _ _ _).bind fun _ => ordinary_pure _

/-- A skew matrix is made with ordinary failures. -/
theorem failsOrdinarily_skew : FailsOrdinarily skew := fun args =>
  (ordinary_takes _ 1 args).bind fun _ =>
    (ordinary_triple _ args 0).bind fun _ =>
      (Value.ordinary_scalarArith .sub _ _).bind fun _ =>
        (Value.ordinary_scalarArith .sub _ _).bind fun _ =>
          (Value.ordinary_scalarArith .sub _ _).bind fun _ => ordinary_pure _

/-- An outer product fails ordinarily. -/
theorem failsOrdinarily_outerProduct : FailsOrdinarily outerProduct := fun args =>
  (ordinary_takes _ 2 args).bind fun _ =>
    (readsOrdinarily_elementsArg _ args 0).bind fun _ =>
      (readsOrdinarily_elementsArg _ args 1).bind fun _ =>
        (Ordinary.mapM fun _ _ => .mapM fun _ _ => Value.ordinary_scalarArith .mul _ _).bind
          fun _ => ordinary_pure _

/-! ## Texts -/

/-- Printing a value fails ordinarily. -/
theorem failsOrdinarily_toText : FailsOrdinarily toText := by
  intro args
  have hdigits : Ordinary (significantDigits args) := by
    unfold significantDigits
    split
    · exact ordinary_ok _
    · exact (ordinary_fail rfl).ite (ordinary_ok _)
    · exact ordinary_fail rfl
    · exact Value.ordinary_refuse _ _ _
  have hscalar : ∀ v, Ordinary (scalarText v args) := by
    intro v
    unfold scalarText
    split
    · exact hdigits.bind fun _ => ordinary_pure _
    · exact ordinary_ok _
    · exact ordinary_ok _
    · exact ordinary_ok _
    · exact ordinary_ok _
    · exact Value.ordinary_refuse _ _ _
  refine (ordinary_takesBetween _ 1 4 args).bind fun _ => ?_
  refine (ordinary_arg _ args 0).bind fun v => (hscalar v).bind fun _ => ?_
  refine (readsOrdinarily_integerArg.optionalArg 0 _ args _).bind fun _ => ?_
  exact (readsOrdinarily_boolArg.optionalArg true _ args _).bind fun _ => ordinary_pure _

/-- The position of an enumeration literal is found with ordinary failures. -/
theorem failsOrdinarily_literalIndex : FailsOrdinarily literalIndex := by
  intro args
  refine (ordinary_takes _ 1 args).bind fun _ => (ordinary_arg _ args 0).bind fun v => ?_
  split
  · exact ordinary_pure _
  · exact ordinary_pure _
  · exact Value.ordinary_refuse _ _ _

/-- The value that marks a failure is given with ordinary failures. -/
theorem failsOrdinarily_failed : FailsOrdinarily failed := fun args =>
  (ordinary_takes _ 0 args).bind fun _ => ordinary_pure _

/-! ## Characters, lists and options -/

/-- Truncating a Real fails ordinarily. -/
theorem failsOrdinarily_realInt : FailsOrdinarily realInt :=
  failsOrdinarily_onArg readsOrdinarily_realArg _ fun _ => ordinary_wholeReal _ _

/-- The absolute value of an Integer fails ordinarily. -/
theorem failsOrdinarily_intAbs : FailsOrdinarily intAbs :=
  failsOrdinarily_onArg readsOrdinarily_integerArg _ fun _ => ordinary_inRange _ _

/-- Joining a list of strings fails ordinarily. -/
theorem failsOrdinarily_stringAppendList : FailsOrdinarily stringAppendList := by
  refine failsOrdinarily_onArg readsOrdinarily_elementsArg _ fun parts => ?_
  refine (Ordinary.mapM fun v _ => ?_).bind fun _ => ordinary_pure _
  unfold stringPart
  split
  · exact ordinary_ok _
  · exact Value.ordinary_refuse _ _ _

/-- Reading an Integer from a string fails ordinarily. -/
theorem failsOrdinarily_stringInt : FailsOrdinarily stringInt := by
  refine failsOrdinarily_onArg readsOrdinarily_stringArg _ fun s => ?_
  simp only
  split
  · exact (ordinary_ok _).ite (ordinary_fail rfl)
  · exact ordinary_fail rfl

/-- Reading a Real from a string fails ordinarily. -/
theorem failsOrdinarily_stringReal : FailsOrdinarily stringReal := by
  refine failsOrdinarily_onArg readsOrdinarily_stringArg _ fun s => ?_
  split
  · exact ordinary_ok _
  · exact ordinary_fail rfl

/-- The code of a character fails ordinarily. -/
theorem failsOrdinarily_stringCharInt : FailsOrdinarily stringCharInt := by
  refine failsOrdinarily_onArg readsOrdinarily_stringArg _ fun s => ?_
  split
  · exact ordinary_ok _
  · exact ordinary_fail rfl

/-- The character of a code fails ordinarily. -/
theorem failsOrdinarily_intStringChar : FailsOrdinarily intStringChar :=
  failsOrdinarily_onArg readsOrdinarily_integerArg _ fun _ => (ordinary_ok _).ite (ordinary_fail rfl)

/-- The character at a position fails ordinarily. -/
theorem failsOrdinarily_stringGetStringChar : FailsOrdinarily stringGetStringChar := by
  intro args
  refine (ordinary_takes _ 2 args).bind fun _ => ?_
  refine (readsOrdinarily_stringArg _ args 0).bind fun s => ?_
  refine (readsOrdinarily_integerArg _ args 1).bind fun i => ?_
  split
  · exact ordinary_pure _
  · exact ordinary_fail rfl

/-- Looking for a member of a list fails ordinarily. -/
theorem failsOrdinarily_listMember : FailsOrdinarily listMember := fun args =>
  (ordinary_takes _ 2 args).bind fun _ =>
    (ordinary_arg _ args 0).bind fun _ =>
      (readsOrdinarily_elementsArg _ args 1).bind fun _ => ordinary_pure _

/-- The head of an empty list is an ordinary failure. -/
theorem failsOrdinarily_listHead : FailsOrdinarily listHead := by
  refine failsOrdinarily_onArg readsOrdinarily_elementsArg _ fun v => ?_
  split
  · exact ordinary_fail rfl
  · exact ordinary_ok _

/-- The rest of an empty list is an ordinary failure. -/
theorem failsOrdinarily_listRest : FailsOrdinarily listRest :=
  failsOrdinarily_onArg readsOrdinarily_elementsArg _ fun _ => (ordinary_fail rfl).ite (ordinary_ok _)

/-- An element that a list does not have is an ordinary failure. -/
theorem failsOrdinarily_elementAt (name : String) : FailsOrdinarily (elementAt name) := fun args =>
  (ordinary_takes name 2 args).bind fun _ =>
    (readsOrdinarily_elementsArg name args 0).bind fun elements =>
      (readsOrdinarily_integerArg name args 1).bind fun i => Value.ordinary_nth elements i

/-- Asking whether an option holds a value fails ordinarily. -/
theorem failsOrdinarily_optionHolds (name : String) (wanted : Bool) :
    FailsOrdinarily (optionHolds name wanted) := by
  intro args
  refine (ordinary_takes name 1 args).bind fun _ => (ordinary_arg name args 0).bind fun v => ?_
  split
  · exact ordinary_pure _
  · exact ordinary_pure _
  · exact Value.ordinary_refuse _ _ _

/-! ## The tables -/

/-- Every function of values in the table of the base language fails ordinarily. -/
theorem failsOrdinarily_baseTable :
    ∀ entry ∈ baseTable, ∀ f, entry.2 = .ofValues f → FailsOrdinarily f := by
  simp only [baseTable, special, List.forall_mem_cons, Rule.ofValues.injEq, reduceCtorEq,
    false_implies, implies_true, forall_eq', List.not_mem_nil, and_true, true_and]
  exact ⟨failsOrdinarily_literalIndex, failsOrdinarily_toText,
    failsOrdinarily_mapLeaf _ ordinary_absoluteLeaf,
    failsOrdinarily_mapReal _ (ordinary_onUnit _ _), failsOrdinarily_mapReal _ (ordinary_onUnit _ _),
    failsOrdinarily_total _ _, failsOrdinarily_arcTangent2, failsOrdinarily_cat,
    failsOrdinarily_total _ _, failsOrdinarily_total _ _, failsOrdinarily_total _ _,
    failsOrdinarily_cross, failsOrdinarily_diagonal, failsOrdinarily_total _ _,
    failsOrdinarily_failed, failsOrdinarily_fillArray, failsOrdinarily_total _ _,
    failsOrdinarily_identityMatrix, failsOrdinarily_mapLeaf _ ordinary_integerLeaf,
    failsOrdinarily_linspace, failsOrdinarily_mapReal _ (ordinary_onPositive _ _),
    failsOrdinarily_mapReal _ (ordinary_onPositive _ _), failsOrdinarily_matrixOf,
    failsOrdinarily_extremum _ _, failsOrdinarily_extremum _ _, failsOrdinarily_filledWith _ _,
    failsOrdinarily_outerProduct, failsOrdinarily_foldLeaves _ _, failsOrdinarily_promote,
    failsOrdinarily_scalar, failsOrdinarily_mapLeaf _ ordinary_signLeaf,
    failsOrdinarily_total _ _, failsOrdinarily_total _ _, failsOrdinarily_skew,
    failsOrdinarily_mapReal _ ordinary_squareRoot, failsOrdinarily_foldLeaves _ _,
    failsOrdinarily_symmetric, failsOrdinarily_total _ _, failsOrdinarily_total _ _,
    failsOrdinarily_transpose, failsOrdinarily_vectorOf, failsOrdinarily_filledWith _ _⟩

/-- Every function in the table of the extension fails ordinarily. -/
theorem failsOrdinarily_extensionTable :
    ∀ entry ∈ extensionTable, FailsOrdinarily entry.2 := by
  simp only [extensionTable, List.forall_mem_cons, List.not_mem_nil, false_implies, implies_true,
    and_true]
  exact ⟨failsOrdinarily_elementAt _, failsOrdinarily_onArg_ok readsOrdinarily_elementsArg _ _,
    failsOrdinarily_onArg_ok readsOrdinarily_elementsArg _ _,
    failsOrdinarily_onArg_ok readsOrdinarily_boolArg _ _, failsOrdinarily_intAbs,
    failsOrdinarily_onArgs_ok readsOrdinarily_integerArg _ _,
    failsOrdinarily_onArgs_ok readsOrdinarily_integerArg _ _,
    failsOrdinarily_onArg_ok readsOrdinarily_integerArg _ _,
    failsOrdinarily_onArg_ok readsOrdinarily_integerArg _ _, failsOrdinarily_intStringChar,
    failsOrdinarily_optionHolds _ _, failsOrdinarily_optionHolds _ _,
    failsOrdinarily_onArgs_ok readsOrdinarily_elementsArg _ _,
    failsOrdinarily_onArg_ok readsOrdinarily_elementsArg _ _,
    failsOrdinarily_onArg_ok readsOrdinarily_elementsArg _ _, failsOrdinarily_elementAt _,
    failsOrdinarily_listHead, failsOrdinarily_onArg_ok readsOrdinarily_elementsArg _ _,
    failsOrdinarily_listMember, failsOrdinarily_listRest,
    failsOrdinarily_onArg_ok readsOrdinarily_elementsArg _ _, failsOrdinarily_realInt,
    failsOrdinarily_onArg_ok readsOrdinarily_realArg _ _,
    failsOrdinarily_onArgs_ok readsOrdinarily_stringArg _ _, failsOrdinarily_stringAppendList,
    failsOrdinarily_stringCharInt, failsOrdinarily_onArgs_ok readsOrdinarily_stringArg _ _,
    failsOrdinarily_onArgs_ok readsOrdinarily_stringArg _ _, failsOrdinarily_stringGetStringChar,
    failsOrdinarily_stringInt, failsOrdinarily_onArg_ok readsOrdinarily_stringArg _ _,
    failsOrdinarily_onArg_ok readsOrdinarily_stringArg _ _, failsOrdinarily_stringReal⟩

/-- The rule of a built-in function stands in one of the tables. -/
theorem mem_of_rule {name : String} {extended : Bool} {rule : Rule}
    (h : rule? name extended = some rule) :
    (name, rule) ∈ baseTable ∨ ∃ f, (name, f) ∈ extensionTable ∧ rule = .ofValues f := by
  unfold rule? at h
  split at h
  · rename_i r hbase
    cases h
    exact .inl (mem_of_lookup_eq_some hbase)
  · by_cases hextended : extended = true
    · rw [if_pos hextended] at h
      obtain ⟨f, hf, rfl⟩ := Option.map_eq_some_iff.mp h
      exact .inr ⟨f, mem_of_lookup_eq_some hf, rfl⟩
    · rw [if_neg hextended] at h
      cases h

/-- Every built-in function of the values of its arguments. -/
theorem ordinary_of_rule {name : String} {extended : Bool} {f : Function}
    (h : rule? name extended = some (.ofValues f)) : FailsOrdinarily f := by
  rcases mem_of_rule h with hbase | ⟨g, hg, heq⟩
  · exact failsOrdinarily_baseTable _ hbase f rfl
  · cases heq
    exact failsOrdinarily_extensionTable _ hg

namespace External

/-- An offset outside a text is an ordinary failure. -/
theorem ordinary_offset (i : Int) (length : Nat) : Ordinary (offset i length) :=
  (ordinary_ok _).ite (ordinary_fail rfl)

/-- The arguments of a scanner are read with ordinary failures. -/
theorem ordinary_scanArgs (name : String) (args : List Value) : Ordinary (scanArgs name args) := by
  refine (ordinary_takesBetween name 1 3 args).bind fun _ => ?_
  refine (readsOrdinarily_stringArg name args 0).bind fun s => ?_
  refine (readsOrdinarily_integerArg.optionalArg 1 name args 1).bind fun position => ?_
  refine (readsOrdinarily_boolArg.optionalArg false name args 2).bind fun unsigned => ?_
  exact (ordinary_offset _ _).bind fun _ => ordinary_pure _

/-- Cutting out a part of a text fails ordinarily. -/
theorem failsOrdinarily_substring : FailsOrdinarily substring := by
  intro args
  refine (ordinary_takes _ 3 args).bind fun _ => ?_
  refine (readsOrdinarily_stringArg _ args 0).bind fun s => ?_
  refine (readsOrdinarily_integerArg _ args 1).bind fun start => ?_
  refine (readsOrdinarily_integerArg _ args 2).bind fun stop => .ite (ordinary_pure _) ?_
  refine (ordinary_offset _ _).bind fun first => ?_
  exact .ite (ordinary_pure _) (ordinary_fail rfl)

/-- Comparing two texts fails ordinarily. -/
theorem failsOrdinarily_compareStrings : FailsOrdinarily compareStrings := by
  intro args
  refine (ordinary_takesBetween _ 2 3 args).bind fun _ => ?_
  refine (readsOrdinarily_stringArg _ args 0).bind fun _ => ?_
  refine (readsOrdinarily_stringArg _ args 1).bind fun _ => ?_
  exact (readsOrdinarily_boolArg.optionalArg true _ args 2).bind fun _ => ordinary_pure _

/-- Skipping white space fails ordinarily. -/
theorem failsOrdinarily_skipWhiteSpace : FailsOrdinarily skipWhiteSpace := by
  intro args
  refine (ordinary_takesBetween _ 1 2 args).bind fun _ => ?_
  refine (readsOrdinarily_stringArg _ args 0).bind fun s => ?_
  refine (readsOrdinarily_integerArg.optionalArg 1 _ args 1).bind fun i => ?_
  exact (ordinary_offset _ _).bind fun _ => ordinary_pure _

/-- The length of a text is taken with ordinary failures. -/
theorem failsOrdinarily_length : FailsOrdinarily length := fun args =>
  (ordinary_takes _ 1 args).bind fun _ =>
    (readsOrdinarily_stringArg _ args 0).bind fun _ => ordinary_pure _

/-- The hash of a text is taken with ordinary failures. -/
theorem failsOrdinarily_hashString : FailsOrdinarily hashString := fun args =>
  (ordinary_takes _ 1 args).bind fun _ =>
    (readsOrdinarily_stringArg _ args 0).bind fun _ => ordinary_pure _

/-- Every external function with a known meaning fails ordinarily. -/
theorem failsOrdinarily_table : ∀ entry ∈ table, FailsOrdinarily entry.2 := by
  simp only [table, List.forall_mem_cons, List.not_mem_nil, false_implies, implies_true, and_true]
  exact ⟨failsOrdinarily_mapReal _ (ordinary_onUnit _ _),
    failsOrdinarily_mapReal _ (ordinary_onUnit _ _), failsOrdinarily_total _ _,
    failsOrdinarily_arcTangent2, failsOrdinarily_total _ _, failsOrdinarily_total _ _,
    failsOrdinarily_total _ _, failsOrdinarily_mapReal _ (ordinary_onPositive _ _),
    failsOrdinarily_mapReal _ (ordinary_onPositive _ _), failsOrdinarily_total _ _,
    failsOrdinarily_total _ _, failsOrdinarily_total _ _, failsOrdinarily_total _ _,
    failsOrdinarily_total _ _, failsOrdinarily_total _ _, failsOrdinarily_total _ _,
    failsOrdinarily_mapReal _ ordinary_squareRoot, failsOrdinarily_substring,
    failsOrdinarily_length, failsOrdinarily_compareStrings, failsOrdinarily_skipWhiteSpace,
    fun args => (ordinary_scanArgs _ args).bind fun _ => ordinary_pure _,
    fun args => (ordinary_scanArgs _ args).bind fun _ => ordinary_pure _,
    failsOrdinarily_hashString⟩

/-- Every external function with a known meaning. -/
theorem ordinary_of_external {env : Env} {path : Path} {f : Function}
    (h : function? env path = some f) : FailsOrdinarily f := by
  unfold function? at h
  split at h
  · obtain ⟨external, -, hlookup⟩ := Option.bind_eq_some_iff.mp h
    exact failsOrdinarily_table _ (mem_of_lookup_eq_some hlookup)
  · cases h

end External

end ModelicaFold.Builtin
