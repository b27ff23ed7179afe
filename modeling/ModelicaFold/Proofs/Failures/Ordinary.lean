import ModelicaFold.Eval.Construct
import ModelicaFold.Eval.Reduction
import ModelicaFold.Proofs.Shape.Leaves

/-!
# Ordinary failures

An operation on values that fails does so for a cause of its own: nobody has been told of the
failure, and it is not fatal. So whatever is known about a reported or a fatal failure comes from
evaluation and not from the operations. There is one lemma for each operation that a rule of
evaluation applies to values; the built-in functions follow in a module of their own.
-/

namespace ModelicaFold

namespace Outcome

variable {α β : Type}

/-- A failure, if there is one, is new and not fatal. -/
def Ordinary (o : Outcome α) : Prop :=
  ∀ f, o = .error f → ∃ c : Cause, f = Failure.of c ∧ c.isFatal = false

/-- A value is no failure. -/
theorem ordinary_ok (a : α) : Ordinary (.ok a) := by
  intro f h
  cases h

/-- A pure computation does not fail. -/
theorem ordinary_pure (a : α) : Ordinary (pure a : Outcome α) :=
  ordinary_ok a

/-- A cause that is not fatal makes an ordinary failure. -/
theorem ordinary_fail {c : Cause} (h : c.isFatal = false) : Ordinary (c.fail : Outcome α) := by
  intro f hf
  cases hf
  exact ⟨c, rfl, h⟩

namespace Ordinary

/-- A sequence fails ordinarily if both its parts do. -/
theorem bind {x : Outcome α} {k : α → Outcome β} (hx : Ordinary x) (hk : ∀ a, Ordinary (k a)) :
    Ordinary (x >>= k) := by
  cases x with
  | error f =>
    intro g hg
    cases hg
    exact hx f rfl
  | ok a => exact hk a

/-- A function applied to the result adds no failures. -/
theorem map {x : Outcome α} (hx : Ordinary x) (f : α → β) : Ordinary (x.map f) := by
  cases x with
  | error g =>
    intro g' hg
    cases hg
    exact hx g rfl
  | ok a => exact ordinary_ok (f a)

/-- A choice fails ordinarily if both its branches do. -/
theorem ite {c : Prop} [Decidable c] {x y : Outcome α} (hx : Ordinary x) (hy : Ordinary y) :
    Ordinary (if c then x else y) := by
  by_cases h : c
  · rwa [if_pos h]
  · rwa [if_neg h]

/-- Mapping a list fails ordinarily if it does on each item. -/
theorem mapM {f : α → Outcome β} {items : List α} (hf : ∀ a ∈ items, Ordinary (f a)) :
    Ordinary (items.mapM f) := by
  induction items with
  | nil => exact ordinary_pure []
  | cons a items ih =>
    obtain ⟨ha, hitems⟩ := List.forall_mem_cons.mp hf
    rw [List.mapM_cons]
    exact ha.bind fun b => (ih hitems).bind fun bs => ordinary_pure (b :: bs)

/-- Folding a list fails ordinarily if each step does. -/
theorem foldlM {f : β → α → Outcome β} (hf : ∀ b a, Ordinary (f b a)) (items : List α) (b : β) :
    Ordinary (items.foldlM f b) := by
  induction items generalizing b with
  | nil => exact ordinary_pure b
  | cons a items ih =>
    rw [List.foldlM_cons]
    exact (hf b a).bind fun b' => ih b'

end Ordinary

end Outcome

open Outcome

namespace Value

/-! ## Leaves -/

/-- The refusal of an operand. -/
theorem ordinary_refuse {α : Type} (what want : String) (v : Value) :
    Ordinary (refuse what want v : Outcome α) := by
  apply ordinary_fail
  unfold mismatch
  split <;> rfl

/-- Mapping the leaves of a value fails ordinarily if it does on each leaf. -/
theorem ordinary_mapLeaves {f : Value → Outcome Value} (hf : ∀ v, Ordinary (f v)) (v : Value) :
    Ordinary (v.mapLeaves f) := by
  induction v using arrayInduction with
  | leaf v hleaf =>
    rw [mapLeaves_leaf hleaf]
    exact hf v
  | array elements dims ih =>
    rw [Value.mapLeaves, mapAllLeaves_eq_mapM]
    exact (Ordinary.mapM ih).map _

/-- A combination of leaves of values of one shape. -/
theorem ordinary_zipLeaves {f : Value → Value → Outcome Value} (hf : ∀ v w, Ordinary (f v w))
    (v w : Value) {o : Outcome Value} (h : v.zipLeaves f w = some o) : Ordinary o := by
  induction v using arrayInduction generalizing w o with
  | leaf v hleaf =>
    rw [← zipLeaves_leaf hleaf h]
    exact hf v w
  | array elements dims ih =>
    cases w with
    | array others dims' =>
      obtain ⟨others⟩ := others
      rw [zipLeaves] at h
      split at h
      · obtain ⟨r, hr, rfl⟩ := Option.map_eq_some_iff.mp h
        cases r with
        | ok zipped => exact ordinary_ok _
        | error failure =>
          obtain ⟨v, hv, w, _, hvw⟩ := zipAllLeaves_eq_error hr
          have hpair : Ordinary (.error failure : Outcome Value) := ih v hv w hvw
          intro g hg
          cases hg
          exact hpair failure rfl
      · cases h
    | _ => cases h

/-- Shapes that differ are an ordinary failure. -/
theorem ordinary_orShape {zipped : Option (Outcome Value)}
    (h : ∀ o, zipped = some o → Ordinary o) (message : String) :
    Ordinary (orShape zipped message) := by
  cases zipped with
  | none => exact ordinary_fail rfl
  | some o => exact h o rfl

/-! ## Positions and fields -/

/-- A position that a list does not have is an ordinary failure. -/
theorem ordinary_nth {α : Type} (items : Array α) (i : Int) : Ordinary (nth items i) := by
  rw [nth_eq]
  cases nth? items.toList i with
  | none => exact ordinary_fail rfl
  | some a => exact ordinary_ok a

/-- A value that is no position is an ordinary failure. -/
theorem ordinary_position (v : Value) : Ordinary v.position := by
  cases v with
  | integer n => exact ordinary_ok n
  | enumeration path i => exact ordinary_ok i
  | bool b => exact ordinary_ok _
  | _ => exact ordinary_refuse _ _ _

/-- Selecting an element fails ordinarily. -/
theorem ordinary_select (v : Value) (i : Int) : Ordinary (v.select i) := by
  cases v with
  | array elements dims => exact ordinary_nth elements i
  | _ => exact ordinary_refuse _ _ _

/-- A position that an enumeration does not have is an ordinary failure. -/
theorem ordinary_literal (path : Path) (literals : List String) (i : Int) :
    Ordinary (literal path literals i) := by
  unfold literal
  split
  · exact ordinary_ok _
  · exact ordinary_fail rfl

/-- A field that a value does not have is an ordinary failure. -/
theorem ordinary_project (name : String) (v : Value) : Ordinary (v.project name) := by
  induction v using arrayInduction with
  | leaf v hleaf =>
    cases v with
    | array elements dims => cases hleaf
    | record path fields names index =>
      rw [project]
      split
      · exact ordinary_ok _
      · exact ordinary_fail rfl
    | _ => exact ordinary_refuse _ _ _
  | array elements dims ih =>
    cases elements with
    | nil => exact ordinary_ok _
    | cons v vs =>
      rw [project, projectAll_eq_mapM]
      exact (Ordinary.mapM ih).map arrayOf

/-! ## Arithmetic -/

end Value

/-- A result that is no word is an ordinary failure. -/
theorem ordinary_inRange (operation : String) (n : Int) : Ordinary (inRange operation n) := by
  unfold inRange
  exact (ordinary_ok _).ite (ordinary_fail rfl)

namespace Value

/-- Integer arithmetic fails ordinarily. -/
theorem ordinary_integerArith (op : Arith) (a b : Int) : Ordinary (integerArith op a b) := by
  cases op with
  | div => exact (ordinary_fail rfl).ite (ordinary_inRange _ _)
  | pow =>
    show Ordinary (integerPower a b)
    unfold integerPower
    refine .ite (ordinary_fail rfl) (.ite (ordinary_fail rfl) (.ite (ordinary_ok _) ?_))
    exact .ite (ordinary_fail rfl) (ordinary_inRange _ _)
  | _ => exact ordinary_inRange _ _

/-- Real arithmetic fails ordinarily. -/
theorem ordinary_realArith (op : Arith) (a b : Float) : Ordinary (realArith op a b) := by
  cases op with
  | pow => exact (ordinary_fail rfl).ite (ordinary_ok _)
  | _ => exact ordinary_ok _

/-- Arithmetic on scalars fails ordinarily. -/
theorem ordinary_scalarArith (op : Arith) (v w : Value) : Ordinary (scalarArith op v w) := by
  unfold scalarArith
  split
  · exact ordinary_integerArith op _ _
  · exact ordinary_realArith op _ _
  · exact (ordinary_ok _).ite (ordinary_fail rfl)
  · exact ordinary_fail rfl
  · exact ordinary_fail rfl
  · exact ordinary_fail rfl

/-- Negation fails ordinarily. -/
theorem ordinary_negate (v : Value) : Ordinary v.negate := by
  refine ordinary_mapLeaves (fun leaf => ?_) v
  unfold negateLeaf
  split
  · exact ordinary_inRange _ _
  · exact ordinary_ok _
  · exact ordinary_fail rfl
  · exact ordinary_fail rfl

/-- Concatenating strings fails ordinarily. -/
theorem ordinary_concatStrings (v w : Value) : Ordinary (concatStrings v w) := by
  have hleaves : ∀ v w, Ordinary (concatLeaves v w) := by
    intro v w
    unfold concatLeaves
    split
    · exact ordinary_ok _
    · exact ordinary_fail rfl
  unfold concatStrings
  refine .ite (ordinary_orShape (fun o ho => ?_) _) (hleaves v w)
  exact ordinary_zipLeaves hleaves v w ho

/-- A dot product fails ordinarily. -/
theorem ordinary_dotProduct (a b : List Value) : Ordinary (dotProduct a b) := by
  unfold dotProduct
  refine .ite (ordinary_fail rfl) (.foldlM (fun sum pair => ?_) _ _)
  exact (ordinary_scalarArith .mul _ _).bind fun product => ordinary_scalarArith .add sum product

/-- A value that is no vector is an ordinary failure. -/
theorem ordinary_vectorElements (v : Value) : Ordinary v.vectorElements := by
  unfold vectorElements
  split
  · exact ordinary_ok _
  · exact ordinary_fail rfl

/-- A value without rows is an ordinary failure. -/
theorem ordinary_matrixRows (m : Value) : Ordinary m.matrixRows := by
  unfold matrixRows
  split
  · exact ordinary_ok _
  · exact ordinary_fail rfl

/-- A value without columns is an ordinary failure. -/
theorem ordinary_matrixColumns (m : Value) : Ordinary m.matrixColumns := by
  unfold matrixColumns
  split
  · exact ordinary_ok _
  · exact ordinary_fail rfl

/-- A product of two vectors fails ordinarily. -/
theorem ordinary_scalarProduct (v w : Value) : Ordinary (scalarProduct v w) :=
  (ordinary_vectorElements v).bind fun a =>
    (ordinary_vectorElements w).bind fun b => ordinary_dotProduct a b

/-- A product of matrices fails ordinarily. -/
theorem ordinary_matrixProduct (v w : Value) : Ordinary (matrixProduct v w) := by
  unfold matrixProduct
  split
  · refine (ordinary_matrixRows v).bind fun rows => ?_
    refine (ordinary_vectorElements w).bind fun b => ?_
    exact (Ordinary.mapM fun row _ => ordinary_dotProduct row b).bind fun _ => ordinary_pure _
  · refine (ordinary_vectorElements v).bind fun a => ?_
    refine (ordinary_matrixColumns w).bind fun columns => ?_
    exact (Ordinary.mapM fun b _ => ordinary_dotProduct a b).bind fun _ => ordinary_pure _
  · refine (ordinary_matrixRows v).bind fun rows => ?_
    refine (ordinary_matrixColumns w).bind fun columns => ?_
    refine (Ordinary.mapM fun row _ => ?_).bind fun _ => ordinary_pure _
    exact Ordinary.mapM fun column _ => ordinary_dotProduct row column
  · exact ordinary_scalarProduct v w

/-- Repeated multiplication fails ordinarily. -/
theorem ordinary_powerFrom (acc base : Value) (n : Nat) : Ordinary (powerFrom acc base n) := by
  induction n using Nat.strongRecOn generalizing acc base with
  | ind n ih =>
    unfold powerFrom
    by_cases hn : n = 0
    · rw [if_pos hn]
      exact ordinary_ok acc
    · rw [if_neg hn]
      have hrest : ∀ acc, Ordinary
          (if n / 2 = 0 then .ok acc
            else do powerFrom acc (← matrixProduct base base) (n / 2)) := by
        intro acc
        refine .ite (ordinary_ok acc) ?_
        exact (ordinary_matrixProduct base base).bind fun square => ih _ (by omega) acc square
      exact .ite ((ordinary_matrixProduct acc base).bind hrest) ((ordinary_ok acc).bind hrest)

/-- A power of a matrix fails ordinarily. -/
theorem ordinary_matrixPower (v w : Value) : Ordinary (matrixPower v w) := by
  unfold matrixPower
  split
  · split
    · refine .ite (ordinary_fail rfl) (.ite (ordinary_fail rfl) ?_)
      exact ordinary_powerFrom _ _ _
    · exact ordinary_fail rfl
  · exact ordinary_fail rfl

/-- An operation on elements fails ordinarily. -/
theorem ordinary_elementwise (op : Arith) (operands : Operands) (v w : Value) :
    Ordinary (elementwise op operands v w) := by
  cases operands with
  | scalars => exact .ite (ordinary_fail rfl) (ordinary_scalarArith op v w)
  | arrays =>
    exact ordinary_orShape (fun o => ordinary_zipLeaves (ordinary_scalarArith op) v w) _
  | arrayScalar => exact ordinary_mapLeaves (fun a => ordinary_scalarArith op a w) v
  | scalarArray => exact ordinary_mapLeaves (fun b => ordinary_scalarArith op v b) w

/-- Every binary operator. -/
theorem ordinary_binary (op : BinaryOp) (v w : Value) : Ordinary (binary op v w) := by
  cases op with
  | arith op operands => exact ordinary_elementwise op operands v w
  | concat => exact ordinary_concatStrings v w
  | scalarProduct => exact ordinary_scalarProduct v w
  | matrixProduct => exact ordinary_matrixProduct v w
  | matrixPower => exact ordinary_matrixPower v w

/-! ## Logic and casts -/

/-- A conjunction or disjunction fails ordinarily. -/
theorem ordinary_logical (op : LogicalOp) (v w : Value) : Ordinary (logical op v w) := by
  have hleaves : ∀ v w, Ordinary (logicalLeaves op v w) := by
    intro v w
    unfold logicalLeaves
    split
    · exact ordinary_ok _
    · exact ordinary_refuse _ _ _
    · exact ordinary_refuse _ _ _
  exact ordinary_orShape (fun o => ordinary_zipLeaves hleaves v w) _

/-- A logical negation fails ordinarily. -/
theorem ordinary_logicalNot (v : Value) : Ordinary v.logicalNot := by
  refine ordinary_mapLeaves (fun leaf => ?_) v
  unfold notLeaf
  split
  · exact ordinary_ok _
  · exact ordinary_refuse _ _ _

end Value

/-- A whole Real that is no word is an ordinary failure. -/
theorem ordinary_wholeReal (operation : String) (x : Float) : Ordinary (wholeReal operation x) := by
  unfold wholeReal
  exact (ordinary_ok _).ite (ordinary_fail rfl)

namespace Value

/-- A cast of a leaf fails ordinarily. -/
theorem ordinary_castLeaf {ty : Ty} {convert : Value → Outcome Value}
    (h : castLeaf? ty = some convert) (v : Value) : Ordinary (convert v) := by
  unfold castLeaf? at h
  split at h
  · cases h
    unfold castRealLeaf
    split
    · exact ordinary_ok _
    · exact ordinary_ok _
    · exact ordinary_fail rfl
  · cases h
    unfold castIntegerLeaf
    split
    · exact ordinary_ok _
    · exact ordinary_wholeReal _ _
    · exact ordinary_fail rfl
  · cases h
    unfold castEnumerationLeaf
    split
    · exact ordinary_literal _ _ _
    · exact ordinary_ok _
    · exact ordinary_fail rfl
  · cases h

/-! ## Concatenation -/

/-- Parts that do not fit together are an ordinary failure. -/
theorem ordinary_joinable (k : Nat) (parts : List Value) : Ordinary (joinable k parts) := by
  unfold joinable
  split
  · exact ordinary_fail rfl
  · refine .ite (ordinary_fail rfl) ?_
    split
    · exact ordinary_fail rfl
    · exact ordinary_ok _

/-- Joining slices fails ordinarily if joining the parts of each does. -/
theorem ordinary_joinSlices {join : List Value → Outcome Value} (hjoin : ∀ vs, Ordinary (join vs))
    (n : Nat) (parts : List (List Value)) : Ordinary (joinSlices join n parts) := by
  induction n generalizing parts with
  | zero => exact ordinary_ok []
  | succ n ih =>
    have hfirst : ∀ elements, Ordinary (firstSlice elements) := by
      intro elements
      cases elements with
      | nil => exact ordinary_fail rfl
      | cons v vs => exact ordinary_ok v
    rw [joinSlices]
    refine (Ordinary.mapM fun elements _ => hfirst elements).bind fun slice => ?_
    refine (hjoin slice).bind fun joined => ?_
    exact (ih _).bind fun others => ordinary_pure (joined :: others)

/-- Concatenation fails ordinarily. -/
theorem ordinary_concat (k : Nat) (parts : List Value) : Ordinary (concat k parts) := by
  induction k using Nat.strongRecOn generalizing parts with
  | ind k ih =>
    match k with
    | 0 => exact ordinary_joinable 0 parts
    | 1 =>
      rw [concat]
      exact (ordinary_joinable 1 parts).bind fun first => ordinary_pure _
    | k + 2 =>
      rw [concat]
      refine (ordinary_joinable (k + 2) parts).bind fun first => ?_
      have hbelow := fun vs => ih (k + 1) (Nat.lt_succ_self _) vs
      refine (ordinary_joinSlices hbelow _ _).bind fun joined => ?_
      exact (ordinary_pure _).ite (ordinary_pure _)

/-! ## Ranges -/

/-- A range with too many elements is an ordinary failure. -/
theorem ordinary_rangeLength (n : Int) : Ordinary (rangeLength n) :=
  (ordinary_ok _).ite (ordinary_fail rfl)

/-- The step of a range is read with ordinary failures. -/
theorem ordinary_rangeStep {α : Type} (read? : Value → Option α) (one : α) (want : String)
    (step : Option Value) : Ordinary (rangeStep read? one want step) := by
  cases step with
  | none => exact ordinary_ok one
  | some v =>
    unfold rangeStep
    simp only
    split
    · exact ordinary_ok _
    · exact ordinary_refuse _ _ _

/-- The elements of a range are made with ordinary failures. -/
theorem ordinary_rangeElements (start : Value) (step : Option Value) (stop : Value) (ty : Ty) :
    Ordinary (rangeElements start step stop ty) := by
  unfold rangeElements
  split
  · refine (ordinary_rangeStep _ _ _ _).bind fun d => .ite (ordinary_fail rfl) ?_
    exact (ordinary_rangeLength _).bind fun n => ordinary_pure _
  · refine (ordinary_rangeStep _ _ _ _).bind fun d => .ite (ordinary_fail rfl) ?_
    refine .ite (ordinary_fail rfl) ?_
    exact (ordinary_rangeLength _).bind fun n => ordinary_pure _
  · exact ordinary_ok _
  · unfold enumerationRange
    split
    · rw [Array.mapM_eq_mapM_toList]
      exact (Ordinary.mapM fun i _ => ordinary_literal _ _ _).map _
    · exact (ordinary_ok _).ite (ordinary_fail rfl)
  · exact ordinary_fail rfl

/-! ## Folds -/

/-- A step of a reduction with a known name fails ordinarily. -/
theorem ordinary_foldNamed (name : String) (acc next : Value) :
    Ordinary (foldNamed name acc next) := by
  have hnumbers : ∀ op, Ordinary (foldNumbers op acc next) := by
    intro op
    unfold foldNumbers
    refine .ite (ordinary_orShape (fun o => ordinary_zipLeaves (ordinary_scalarArith op) _ _) _) ?_
    exact .ite (ordinary_fail rfl) (ordinary_scalarArith op _ _)
  have hextreme : ∀ keeps, Ordinary (foldExtreme name keeps acc next) := by
    intro keeps
    unfold foldExtreme
    split
    · exact ordinary_ok _
    · exact ordinary_fail rfl
  unfold foldNamed
  refine .ite (hnumbers .add) (.ite (hnumbers .mul) (.ite (hextreme _) (.ite (hextreme _) ?_)))
  exact ordinary_fail rfl

end Value

/-- Sequences of different lengths and too many combinations are ordinary failures. -/
theorem ordinary_bindingTuples {α : Type} (kind : IteratorKind) (sequences : List (List α)) :
    Ordinary (bindingTuples kind sequences) := by
  cases kind with
  | thread => exact .ite (ordinary_fail rfl) (ordinary_ok _)
  | combine =>
    unfold bindingTuples
    simp only
    split
    · exact (ordinary_ok _).ite (ordinary_fail rfl)
    · exact ordinary_fail rfl

/-- Placing values beside each other fails ordinarily. -/
theorem Steps.ordinary_rowBlock (values : List Value) : Ordinary (Steps.rowBlock values) :=
  (ordinary_ok _).ite (Value.ordinary_concat 2 _)

end ModelicaFold
