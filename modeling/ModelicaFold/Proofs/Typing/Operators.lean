import ModelicaFold.Proofs.Typing.Safe
import ModelicaFold.Proofs.Typing.Values
import ModelicaFold.Value.Convert
import ModelicaFold.Value.Logic
import ModelicaFold.Value.Range

/-!
# Operators on typed operands

On operands of their types the operators do not fail internally, and what they give has the type one
expects. A leaf that is a placeholder makes arithmetic, logic and casts fail as not constant; so
their results hold no placeholder at all. Ranges and concatenations of strings ask their operands for
values without placeholders.
-/

namespace ModelicaFold

open Outcome (Safe safe_fail)

namespace ScalarKind

/-- The kinds of numbers. -/
def IsNumber : ScalarKind → Prop
  | .integer => True
  | .real => True
  | _ => False

/-- The kinds that subscripts may have. -/
def IsPosition : ScalarKind → Prop
  | .integer => True
  | .boolean => True
  | .enumeration => True
  | _ => False

/-- The kinds that ranges may have, and whether with a step. -/
def HasRange : ScalarKind → Bool → Prop
  | .integer, _ => True
  | .real, _ => True
  | .boolean, stepped => stepped = false
  | .enumeration, stepped => stepped = false
  | .string, _ => False

end ScalarKind

/-- Numbers have arithmetic, and strings can be added. -/
def Arith.Accepts : Arith → ScalarKind → Prop
  | .add, .string => True
  | _, kind => kind.IsNumber

/-- Which ranks of operands an elementwise operator expects, and which rank its result has. -/
inductive Operands.Ranks : Operands → Nat → Nat → Nat → Prop where
  | scalars : Ranks .scalars 0 0 0
  | arrays (n : Nat) : Ranks .arrays n n n
  | arrayScalar (n : Nat) : Ranks .arrayScalar n 0 n
  | scalarArray (n : Nat) : Ranks .scalarArray 0 n n

/-- The kind of scalars that a cast to a type makes; nothing if it leaves values as they are. -/
def Ty.castKind? (ty : Ty) : Option ScalarKind :=
  match ty.elementType with
  | .real => some .real
  | .integer => some .integer
  | .enumeration _ _ => some .enumeration
  | _ => none

namespace Value

variable {d d' : Bool} {kind kind' : ScalarKind}

/-! ## Leaves -/

/-- A function of leaves takes scalars of one kind to scalars of another one, and refuses
placeholders as not constant. -/
structure MapsLeaves (f : Value → Outcome Value) (kind kind' : ScalarKind) : Prop where
  empty : ∀ scope name ty, f (.empty scope name ty) = Cause.notConstant.fail
  scalar : ∀ v, v.IsScalar kind → (f v).Safe (Fits false (.scalar kind'))

/-- A function combines scalars of the given kind into scalars of another one, and refuses
placeholders as not constant, on the sides where there may be any. -/
structure CombinesLeaves (f : Value → Value → Outcome Value) (d d' : Bool)
    (kind kind' : ScalarKind) : Prop where
  left : d = true → ∀ scope name ty w, f (.empty scope name ty) w = Cause.notConstant.fail
  right : d' = true → ∀ v scope name ty, v.IsScalar kind →
    f v (.empty scope name ty) = Cause.notConstant.fail
  scalar : ∀ v w, v.IsScalar kind → w.IsScalar kind → (f v w).Safe (Fits false (.scalar kind'))

/-- A function on leaves of one kind is safe on every scalar of the kind. -/
theorem MapsLeaves.apply {f : Value → Outcome Value} (hf : MapsLeaves f kind kind') {v : Value}
    (hv : v.Fits d (.scalar kind)) : (f v).Safe (Fits false (.scalar kind')) := by
  rcases hv.scalar_cases with ⟨-, scope, name, ty, rfl⟩ | hv
  · rw [hf.empty]
    exact safe_fail rfl
  · exact hf.scalar v hv

/-- A function on pairs of leaves of one kind is safe on every pair of scalars of the kind. -/
theorem CombinesLeaves.apply {f : Value → Value → Outcome Value}
    (hf : CombinesLeaves f d d' kind kind') {v w : Value} (hv : v.Fits d (.scalar kind))
    (hw : w.Fits d' (.scalar kind)) : (f v w).Safe (Fits false (.scalar kind')) := by
  rcases hv.scalar_cases with ⟨hd, scope, name, ty, rfl⟩ | hv
  · rw [hf.left hd]
    exact safe_fail rfl
  rcases hw.scalar_cases with ⟨hd', scope, name, ty, rfl⟩ | hw
  · rw [hf.right hd' v _ _ _ hv]
    exact safe_fail rfl
  · exact hf.scalar v w hv hw

/-- With one operand fixed a combination is a function of leaves. -/
theorem CombinesLeaves.mapsLeaves_left {f : Value → Value → Outcome Value}
    (hf : CombinesLeaves f true d' kind kind') {w : Value} (hw : w.Fits d' (.scalar kind)) :
    MapsLeaves (fun v => f v w) kind kind' where
  empty _ _ _ := hf.left rfl _ _ _ _
  scalar v hv := by
    rcases hw.scalar_cases with ⟨hd', scope, name, ty, rfl⟩ | hw
    · rw [hf.right hd' v _ _ _ hv]
      exact safe_fail rfl
    · exact hf.scalar v w hv hw

/-- A placeholder on the left is refused before the leaves on the right are looked at. -/
theorem CombinesLeaves.mapsLeaves_right {f : Value → Value → Outcome Value}
    (hf : CombinesLeaves f d true kind kind') {v : Value} (hv : v.Fits d (.scalar kind)) :
    MapsLeaves (f v) kind kind' := by
  rcases hv.scalar_cases with ⟨hd, scope, name, ty, rfl⟩ | hv
  · refine ⟨fun _ _ _ => hf.left hd _ _ _ _, fun w _ => ?_⟩
    rw [hf.left hd]
    exact safe_fail rfl
  · exact ⟨fun _ _ _ => hf.right rfl v _ _ _ hv, fun w hw => hf.scalar v w hv hw⟩

/-- A function on leaves of one kind is safe on every array of the kind. -/
theorem safe_mapLeaves {f : Value → Outcome Value} (hf : MapsLeaves f kind kind') {n : Nat}
    {v : Value} (hv : v.Fits d (.arrays n (.scalar kind))) :
    Safe (Fits false (.arrays n (.scalar kind'))) (v.mapLeaves f) := by
  induction n generalizing v with
  | zero =>
    rw [mapLeaves_leaf (Fits.isArray_eq_false hv)]
    exact hf.apply hv
  | succ n ih =>
    cases hv with
    | empty h =>
      show (f _).Safe _
      rw [hf.empty]
      exact safe_fail rfl
    | @array _ elements dims h =>
      obtain ⟨elements⟩ := elements
      rw [mapLeaves, mapAllLeaves_eq_mapM]
      have hmapped := Safe.mapM fun w hw => ih (h w hw)
      exact hmapped.map fun mapped hall => .array hall

/-- A combination of leaves of operands with one type. -/
theorem safe_zipLeaves {f : Value → Value → Outcome Value}
    (hf : CombinesLeaves f d d' kind kind') {n : Nat} {v w : Value}
    (hv : v.Fits d (.arrays n (.scalar kind))) (hw : w.Fits d' (.arrays n (.scalar kind)))
    {o : Outcome Value} (h : v.zipLeaves f w = some o) :
    o.Safe (Fits false (.arrays n (.scalar kind'))) := by
  induction n generalizing v w o with
  | zero =>
    rw [← zipLeaves_leaf (Fits.isArray_eq_false hv) h]
    exact hf.apply hv hw
  | succ n ih =>
    cases hv with
    | empty hd =>
      cases hw with
      | empty hd' =>
        cases h
        rw [hf.left hd]
        exact safe_fail rfl
      | array hws => cases h
    | @array _ vs dims hvs =>
      obtain ⟨vs⟩ := vs
      cases hw with
      | empty hd' => cases h
      | @array _ ws dims' hws =>
        obtain ⟨ws⟩ := ws
        rw [zipLeaves] at h
        split at h
        · rename_i hfit
          obtain ⟨r, hr, rfl⟩ := Option.map_eq_some_iff.mp h
          cases r with
          | ok zs =>
            refine .ok (.array fun z hz => ?_)
            obtain ⟨-, hpairs⟩ := zipAllLeaves_eq_ok hfit.2 hr
            obtain ⟨v, hv, w, hw, hvw⟩ := hpairs z hz
            exact (ih (hvs v hv) (hws w hw) hvw).of_ok
          | error failure =>
            obtain ⟨v, hv, w, hw, hvw⟩ := zipAllLeaves_eq_error hr
            exact .error (ih (hvs v hv) (hws w hw) hvw).of_error
        · cases h

/-- A mismatch of shapes is no internal failure. -/
theorem safe_orShape {P : Value → Prop} {zipped : Option (Outcome Value)}
    (h : ∀ o, zipped = some o → o.Safe P) (message : String) :
    (orShape zipped message).Safe P := by
  cases zipped with
  | none => exact safe_fail rfl
  | some o => exact h o rfl

/-! ## Arithmetic -/

end Value

open Value

/-- An exact result is an Integer or an overflow. -/
theorem safe_inRange (operation : String) (n : Int) :
    (inRange operation n).Safe (Fits false (.scalar .integer)) :=
  .ite (fun _ => .ok (.integer n)) fun _ => safe_fail rfl

/-- A whole Real becomes an Integer or overflows. -/
theorem safe_wholeReal (operation : String) (x : Float) :
    (wholeReal operation x).Safe (Fits false (.scalar .integer)) :=
  .ite (fun _ => .ok (.integer _)) fun _ => safe_fail rfl

namespace Value

variable {d d' : Bool} {kind kind' : ScalarKind}

/-- Integers are combined to Integers. -/
theorem safe_integerArith (op : Arith) (a b : Int) :
    (integerArith op a b).Safe (Fits false (.scalar .integer)) := by
  cases op with
  | div => exact .ite (fun _ => safe_fail rfl) fun _ => safe_inRange _ _
  | pow =>
    show (integerPower a b).Safe _
    refine .ite (fun _ => safe_fail rfl) fun _ => .ite (fun _ => safe_fail rfl) fun _ => ?_
    refine .ite (fun _ => .ok (.integer _)) fun _ => .ite (fun _ => safe_fail rfl) fun _ => ?_
    exact safe_inRange _ _
  | _ => exact safe_inRange _ _

/-- Reals are combined to Reals. -/
theorem safe_realArith (op : Arith) (a b : Float) :
    (realArith op a b).Safe (Fits false (.scalar .real)) := by
  cases op with
  | pow => exact .ite (fun _ => safe_fail rfl) fun _ => .ok (.real _)
  | _ => exact .ok (.real _)

/-- A function that combines Integers into Integers and Reals into Reals. -/
theorem combinesLeaves_numbers {f : Value → Value → Outcome Value} (h : kind.IsNumber)
    (hleft : ∀ scope name ty w, f (.empty scope name ty) w = Cause.notConstant.fail)
    (hright : ∀ v scope name ty, v.IsScalar .integer ∨ v.IsScalar .real →
      f v (.empty scope name ty) = Cause.notConstant.fail)
    (hinteger : ∀ a b, (f (.integer a) (.integer b)).Safe (Fits false (.scalar .integer)))
    (hreal : ∀ a b, (f (.real a) (.real b)).Safe (Fits false (.scalar .real))) :
    CombinesLeaves f true true kind kind where
  left _ := hleft
  right _ v scope name ty hv := by
    cases kind with
    | integer => exact hright v scope name ty (.inl hv)
    | real => exact hright v scope name ty (.inr hv)
    | _ => cases h
  scalar v w hv hw := by
    cases kind with
    | integer =>
      obtain ⟨a, rfl⟩ := hv
      obtain ⟨b, rfl⟩ := hw
      exact hinteger a b
    | real =>
      obtain ⟨a, rfl⟩ := hv
      obtain ⟨b, rfl⟩ := hw
      exact hreal a b
    | _ => cases h

/-- Arithmetic combines scalars of a kind that it accepts. -/
theorem combinesLeaves_scalarArith {op : Arith} (h : op.Accepts kind) :
    CombinesLeaves (scalarArith op) true true kind kind := by
  have hleft : ∀ scope name ty w,
      scalarArith op (.empty scope name ty) w = Cause.notConstant.fail := by
    intro scope name ty w
    cases w <;> rfl
  by_cases hkind : kind.IsNumber
  · refine combinesLeaves_numbers hkind hleft ?_ (safe_integerArith op) (safe_realArith op)
    rintro v scope name ty (⟨a, rfl⟩ | ⟨a, rfl⟩) <;> rfl
  · obtain ⟨rfl, rfl⟩ : op = .add ∧ kind = .string := by
      cases op <;> cases kind <;> simp_all [Arith.Accepts, ScalarKind.IsNumber]
    refine ⟨fun _ => hleft, fun _ v scope name ty hv => ?_, fun v w hv hw => ?_⟩
    · obtain ⟨a, rfl⟩ := hv
      rfl
    · obtain ⟨a, rfl⟩ := hv
      obtain ⟨b, rfl⟩ := hw
      exact .ok (.string _)

/-- Negation maps the scalars of a number kind. -/
theorem mapsLeaves_negateLeaf (h : kind.IsNumber) : MapsLeaves negateLeaf kind kind where
  empty _ _ _ := rfl
  scalar v hv := by
    cases kind with
    | integer =>
      obtain ⟨n, rfl⟩ := hv
      exact safe_inRange _ _
    | real =>
      obtain ⟨x, rfl⟩ := hv
      exact .ok (.real _)
    | _ => cases h

/-- An elementwise operator on operands of the ranks it expects. -/
theorem safe_elementwise {op : Arith} {operands : Operands} {n m r : Nat} {a b : Value}
    (hranks : operands.Ranks n m r) (hop : op.Accepts kind)
    (ha : a.Fits d (.arrays n (.scalar kind))) (hb : b.Fits d' (.arrays m (.scalar kind))) :
    (elementwise op operands a b).Safe (Fits false (.arrays r (.scalar kind))) := by
  have hcombine := combinesLeaves_scalarArith hop
  have weak : ∀ {c : Bool} {t : ValueType} {v : Value}, v.Fits c t → v.Fits true t :=
    fun h => h.weaken fun _ => rfl
  cases hranks with
  | scalars =>
    have hscalars : (a.isArray || b.isArray) = false := by
      rw [Fits.isArray_eq_false ha, Fits.isArray_eq_false hb]
      rfl
    rw [elementwise, if_neg (by simp [hscalars])]
    exact hcombine.apply (weak ha) (weak hb)
  | arrays n =>
    refine safe_orShape (fun o ho => ?_) _
    exact safe_zipLeaves hcombine (weak ha) (weak hb) ho
  | arrayScalar n => exact safe_mapLeaves (hcombine.mapsLeaves_left (weak hb)) ha
  | scalarArray n => exact safe_mapLeaves (hcombine.mapsLeaves_right (weak ha)) hb

/-- The negation of a number or of an array of numbers. -/
theorem safe_negate (h : kind.IsNumber) {n : Nat} {v : Value}
    (hv : v.Fits d (.arrays n (.scalar kind))) :
    v.negate.Safe (Fits false (.arrays n (.scalar kind))) :=
  safe_mapLeaves (mapsLeaves_negateLeaf h) hv

/-! ## Strings -/

/-- Concatenation combines strings. -/
theorem combinesLeaves_concatLeaves : CombinesLeaves concatLeaves false false .string .string where
  left hfalse := by cases hfalse
  right hfalse := by cases hfalse
  scalar v w hv hw := by
    obtain ⟨a, rfl⟩ := hv
    obtain ⟨b, rfl⟩ := hw
    exact .ok (.string _)

/-- Strings without placeholders, or arrays of them, are concatenated. -/
theorem safe_concatStrings {n : Nat} {a b : Value} (ha : a.Fits false (.arrays n (.scalar .string)))
    (hb : b.Fits false (.arrays n (.scalar .string))) :
    (concatStrings a b).Safe (Fits false (.arrays n (.scalar .string))) := by
  unfold concatStrings
  cases n with
  | zero =>
    rw [Fits.isArray_eq_false ha, Bool.false_and, if_neg Bool.false_ne_true]
    exact combinesLeaves_concatLeaves.apply ha hb
  | succ n =>
    refine .ite (fun _ => safe_orShape (fun o ho => ?_) _) fun hnot => ?_
    · exact safe_zipLeaves combinesLeaves_concatLeaves ha hb ho
    · cases ha with
      | empty hfalse => cases hfalse
      | array =>
        cases hb with
        | empty hfalse => cases hfalse
        | array => exact absurd rfl hnot

/-! ## Products -/

/-- A dot product of Integers is an Integer. -/
theorem safe_dotProduct {xs ys : List Value} (hxs : ∀ x ∈ xs, x.Fits false (.scalar .integer))
    (hys : ∀ y ∈ ys, y.Fits false (.scalar .integer)) :
    (dotProduct xs ys).Safe (Fits false (.scalar .integer)) := by
  have harith : ∀ op : Arith, op.Accepts .integer := fun op => by cases op <;> trivial
  have hmul := combinesLeaves_scalarArith (harith .mul)
  have hadd := combinesLeaves_scalarArith (harith .add)
  refine .ite (fun _ => safe_fail rfl) fun _ => .foldlM ?_ fun sum pair hpair hsum => ?_
  · cases xs with
    | nil => exact .integer 0
    | cons x xs =>
      obtain ⟨n, rfl⟩ := (hxs x List.mem_cons_self).isScalar
      exact .integer 0
  · obtain ⟨hx, hy⟩ := List.of_mem_zip hpair
    refine (hmul.apply (hxs _ hx).solid (hys _ hy).solid).bind fun product hproduct => ?_
    exact hadd.apply hsum.solid hproduct.solid

/-- The scalar product of two vectors of Integers. Over Reals it would be an Integer for empty
vectors. -/
theorem safe_scalarProduct {a b : Value} (ha : a.Fits false (.array (.scalar .integer)))
    (hb : b.Fits false (.array (.scalar .integer))) :
    (scalarProduct a b).Safe (Fits false (.scalar .integer)) := by
  cases ha with
  | empty hfalse => cases hfalse
  | array hxs =>
    cases hb with
    | empty hfalse => cases hfalse
    | array hys => exact safe_dotProduct hxs hys

/-! ## Logic -/

/-- A logical operator combines Booleans. -/
theorem combinesLeaves_logicalLeaves (op : LogicalOp) :
    CombinesLeaves (logicalLeaves op) true true .boolean .boolean where
  left _ _ _ _ w := by cases w <;> rfl
  right _ v _ _ _ hv := by
    obtain ⟨a, rfl⟩ := hv
    rfl
  scalar v w hv hw := by
    obtain ⟨a, rfl⟩ := hv
    obtain ⟨b, rfl⟩ := hw
    exact .ok (.bool _)

/-- Logical negation maps Booleans. -/
theorem mapsLeaves_notLeaf : MapsLeaves notLeaf .boolean .boolean where
  empty _ _ _ := rfl
  scalar v hv := by
    obtain ⟨b, rfl⟩ := hv
    exact .ok (.bool _)

/-- A conjunction or disjunction of Boolean arrays is safe. -/
theorem safe_logical (op : LogicalOp) {n : Nat} {a b : Value}
    (ha : a.Fits d (.arrays n (.scalar .boolean))) (hb : b.Fits d' (.arrays n (.scalar .boolean))) :
    (logical op a b).Safe (Fits false (.arrays n (.scalar .boolean))) := by
  refine safe_orShape (fun o ho => ?_) _
  have ha : a.Fits true (.arrays n (.scalar .boolean)) := ha.weaken fun _ => rfl
  have hb : b.Fits true (.arrays n (.scalar .boolean)) := hb.weaken fun _ => rfl
  exact safe_zipLeaves (combinesLeaves_logicalLeaves op) ha hb ho

/-- The logical negation of a Boolean array is safe. -/
theorem safe_logicalNot {n : Nat} {v : Value} (hv : v.Fits d (.arrays n (.scalar .boolean))) :
    v.logicalNot.Safe (Fits false (.arrays n (.scalar .boolean))) :=
  safe_mapLeaves mapsLeaves_notLeaf hv

/-- What the left operand of a logical operator decides is a Boolean of the operand's rank. -/
theorem fits_decided? {op : LogicalOp} {n : Nat} {a v : Value}
    (ha : a.Fits d (.arrays n (.scalar .boolean))) (h : decided? op a = some v) :
    v.Fits false (.arrays n (.scalar .boolean)) := by
  cases n with
  | zero =>
    unfold decided? at h
    split at h
    · cases h
      exact .bool false
    · cases h
      exact .bool true
    · cases h
  | succ n =>
    cases ha <;> cases op <;> cases h

/-! ## Casts -/

/-- A literal at any position is safe to make. -/
theorem safe_literal (path : Path) (literals : List String) (i : Int) :
    (literal path literals i).Safe (Fits false (.scalar .enumeration)) := by
  unfold literal
  split
  · exact .ok (.enumeration _ _)
  · exact safe_fail rfl

/-- What is cast to a number or to an enumeration is one, or the cast fails. -/
theorem mapsLeaves_castLeaf {ty : Ty} (h : ty.castKind? = some kind') :
    ∃ convert, castLeaf? ty = some convert ∧ MapsLeaves convert kind kind' := by
  unfold Ty.castKind? at h
  unfold castLeaf?
  generalize ty.elementType = element at h ⊢
  cases element with
  | real =>
    cases h
    refine ⟨castRealLeaf, rfl, fun _ _ _ => rfl, fun v _ => ?_⟩
    unfold castRealLeaf
    split
    · exact .ok (.real _)
    · exact .ok (.real _)
    · exact safe_fail rfl
  | integer =>
    cases h
    refine ⟨castIntegerLeaf, rfl, fun _ _ _ => rfl, fun v _ => ?_⟩
    unfold castIntegerLeaf
    split
    · exact .ok (.integer _)
    · exact safe_wholeReal _ _
    · exact safe_fail rfl
  | enumeration path literals =>
    cases h
    refine ⟨castEnumerationLeaf path literals, rfl, fun _ _ _ => rfl, fun v _ => ?_⟩
    unfold castEnumerationLeaf
    split
    · exact safe_literal _ _ _
    · exact .ok (.enumeration _ _)
    · exact safe_fail rfl
  | _ => cases h

/-- A type that casts to no scalar kind has no conversion of leaves. -/
theorem castLeaf?_eq_none {ty : Ty} (h : ty.castKind? = none) : castLeaf? ty = none := by
  unfold Ty.castKind? at h
  unfold castLeaf?
  generalize ty.elementType = element at h ⊢
  cases element <;> first | rfl | cases h

/-! ## Ranges -/

/-- A range with too many elements is no internal failure. -/
theorem safe_rangeLength (n : Int) : (rangeLength n).Safe fun _ => True :=
  .ite (fun _ => .ok trivial) fun _ => safe_fail rfl

/-- A step that is a placeholder is not constant. -/
theorem safe_rangeStep {α : Type} {read? : Value → Option α} (one : α) (want : String)
    (hread : ∀ v, v.IsScalar kind → ∃ a, read? v = some a)
    (hempty : ∀ scope name ty, read? (.empty scope name ty) = none) {step : Option Value}
    (hstep : ∀ v ∈ step, v.Fits d (.scalar kind)) :
    (rangeStep read? one want step).Safe fun _ => True := by
  cases step with
  | none => exact .ok trivial
  | some v =>
    rcases (hstep v rfl).scalar_cases with ⟨-, scope, name, ty, rfl⟩ | hv
    · simp only [rangeStep, hempty]
      exact safe_fail rfl
    · obtain ⟨a, ha⟩ := hread v hv
      simp only [rangeStep, ha]
      exact .ok trivial

/-- The elements of a table of scalars of one kind. -/
theorem fits_tabulated {f : Nat → Value} (hf : ∀ i, (f i).Fits false (.scalar kind)) (n : Nat) :
    ∀ v ∈ ((Array.range n).map f).toList, v.Fits false (.scalar kind) := by
  intro v hv
  rw [Array.toList_map] at hv
  obtain ⟨i, _, rfl⟩ := List.mem_map.mp hv
  exact hf i

/-- A range of Integers is safe to make. -/
theorem safe_integerRange (a step b : Int) :
    (integerRange a step b).Safe fun elements =>
      ∀ v ∈ elements.toList, v.Fits false (.scalar .integer) := by
  refine .ite (fun _ => safe_fail rfl) fun _ => ?_
  exact (safe_rangeLength _).bind fun n _ => .ok (fits_tabulated (fun i => .integer _) n)

/-- A range of Reals is safe to make. -/
theorem safe_realRange (a step b : Float) :
    (realRange a step b).Safe fun elements =>
      ∀ v ∈ elements.toList, v.Fits false (.scalar .real) := by
  refine .ite (fun _ => safe_fail rfl) fun _ => .ite (fun _ => safe_fail rfl) fun _ => ?_
  exact (safe_rangeLength _).bind fun n _ => .ok (fits_tabulated (fun i => .real _) n)

/-- A range of Booleans holds Booleans. -/
theorem fits_boolRange (a b : Bool) :
    ∀ v ∈ (boolRange a b).toList, v.Fits false (.scalar .boolean) := by
  intro v hv
  cases a <;> cases b <;> simp [boolRange] at hv
  · exact hv ▸ .bool _
  · rcases hv with rfl | rfl <;> exact .bool _
  · exact hv ▸ .bool _

/-- A range of enumeration literals is safe to make. -/
theorem safe_enumerationRange (ty : Ty) (a b : Int) :
    (enumerationRange ty a b).Safe fun elements =>
      ∀ v ∈ elements.toList, v.Fits false (.scalar .enumeration) := by
  unfold enumerationRange
  split
  · rename_i path literals
    have hliterals : ∀ k ∈ (Array.range (min (b - a + 1).toNat (literals.length + 1))).toList,
        Safe (Fits false (.scalar .enumeration)) (literal path literals (a + (k : Nat))) :=
      fun k _ => safe_literal path literals _
    rw [Array.mapM_eq_mapM_toList]
    exact (Safe.mapM hliterals).map fun elements hall => hall
  · exact .ite (fun _ => .ok fun v hv => absurd hv List.not_mem_nil) fun _ => safe_fail rfl

/-- The elements of a range whose bounds are no placeholders; its step may be one. -/
theorem safe_rangeElements {a b : Value} {step : Option Value} (ty : Ty)
    (hkind : kind.HasRange step.isSome) (ha : a.Fits false (.scalar kind))
    (hstep : ∀ v ∈ step, v.Fits d (.scalar kind)) (hb : b.Fits false (.scalar kind)) :
    (rangeElements a step b ty).Safe fun elements =>
      ∀ v ∈ elements.toList, v.Fits false (.scalar kind) := by
  have ha := ha.isScalar
  have hb := hb.isScalar
  cases kind with
  | string => cases hkind
  | integer =>
    obtain ⟨a, rfl⟩ := ha
    obtain ⟨b, rfl⟩ := hb
    have hread : ∀ v : Value, v.IsScalar .integer → ∃ n, v.integer? = some n := by
      rintro v ⟨n, rfl⟩
      exact ⟨n, rfl⟩
    have hone := safe_rangeStep 1 "Integer" hread (fun _ _ _ => rfl) hstep
    exact hone.bind fun step _ => safe_integerRange a step b
  | real =>
    obtain ⟨a, rfl⟩ := ha
    obtain ⟨b, rfl⟩ := hb
    have hread : ∀ v : Value, v.IsScalar .real → ∃ x, v.real? = some x := by
      rintro v ⟨x, rfl⟩
      exact ⟨x, rfl⟩
    have hone := safe_rangeStep 1.0 "Real" hread (fun _ _ _ => rfl) hstep
    exact hone.bind fun step _ => safe_realRange a step b
  | boolean =>
    obtain ⟨a, rfl⟩ := ha
    obtain ⟨b, rfl⟩ := hb
    obtain rfl : step = none := Option.isNone_iff_eq_none.mp (Option.isSome_eq_false_iff.mp hkind)
    exact .ok (fits_boolRange a b)
  | enumeration =>
    obtain ⟨_, a, rfl⟩ := ha
    obtain ⟨_, b, rfl⟩ := hb
    obtain rfl : step = none := Option.isNone_iff_eq_none.mp (Option.isSome_eq_false_iff.mp hkind)
    exact safe_enumerationRange ty a b

/-! ## Positions and fields -/

/-- A scalar of a position kind is safe to read as a position. -/
theorem safe_position (h : kind.IsPosition) {v : Value} (hv : v.Fits d (.scalar kind)) :
    v.position.Safe fun _ => True := by
  cases hv with
  | empty h => exact safe_fail rfl
  | integer n => exact .ok trivial
  | bool b => exact .ok trivial
  | enumeration path i => exact .ok trivial
  | _ => cases h

/-- An element is safe to select from an array and has its element type. -/
theorem safe_select {t : ValueType} {v : Value} (hv : v.Fits d (.array t)) (i : Int) :
    (v.select i).Safe (Fits d t) := by
  cases hv with
  | empty h => exact safe_fail rfl
  | @array _ elements dims h =>
    show (nth elements i).Safe _
    unfold nth
    split
    · rename_i item hitem
      split at hitem
      · have hmem : item ∈ elements := Array.mem_of_getElem? hitem
        exact .ok (h item (Array.mem_toList_iff.mpr hmem))
      · cases hitem
    · exact safe_fail rfl

/-- The field of a record, or of every record of an array. -/
theorem safe_project {names : List String} {ts : List ValueType} {t : ValueType} {name : String}
    {i : Nat} (hname : names.findIdx? (· == name) = some i) (ht : ts[i]? = some t) {n : Nat}
    {v : Value} (hv : v.Fits d (.arrays n (.record names ts))) :
    (v.project name).Safe (Fits d (.arrays n t)) := by
  induction n generalizing v with
  | zero =>
    cases hv with
    | empty h => exact safe_fail rfl
    | record h =>
      obtain ⟨w, hw, hfits⟩ := fits_getElem? h ht
      simp only [project, field?_record, hname, Option.bind_some, hw]
      exact .ok hfits
  | succ n ih =>
    cases hv with
    | empty h => exact safe_fail rfl
    | @array _ elements dims h =>
      obtain ⟨elements⟩ := elements
      cases elements with
      | nil => exact .ok (.array fun v hv => absurd hv List.not_mem_nil)
      | cons v vs =>
        rw [project, projectAll_eq_mapM]
        have hfields := Safe.mapM fun u hu => ih (h u hu)
        exact hfields.map fun ws hws => fits_arrayOf hws

end Value

end ModelicaFold
