import ModelicaFold.Proofs.Shape.Leaves

/-!
# Types of values

A type says of which kind a value and the values inside it are. Where an evaluation may defer
variables that have no value yet, placeholders stand for them, and a placeholder has every type;
`Value.Fits` is told whether there may be any.
-/

namespace ModelicaFold

/-- The kinds of scalars. -/
inductive ScalarKind where
  | integer
  | real
  | boolean
  | string
  | enumeration
deriving DecidableEq

/-- The types of values. -/
inductive ValueType where
  | scalar (kind : ScalarKind)
  | array (element : ValueType)
  | list (element : ValueType)
  | option (content : ValueType)
  | boxed (content : ValueType)
  | tuple (elements : List ValueType)
  /-- Records with fields of these names and types. -/
  | record (names : List String) (fields : List ValueType)

namespace ValueType

/-- Arrays nested `n` levels deep. -/
def arrays : Nat → ValueType → ValueType
  | 0, t => t
  | n + 1, t => .array (arrays n t)

/-- The type inside any number of boxes. -/
def unboxed : ValueType → ValueType
  | .boxed content => content.unboxed
  | other => other

end ValueType

namespace Value

/-- A value of a type. If `deferred` is true, a placeholder may stand for the value and for every
value inside it. -/
inductive Fits (deferred : Bool) : ValueType → Value → Prop where
  | empty (h : deferred = true) (t : ValueType) (scope name : String) (ty : Ty) :
      Fits deferred t (.empty scope name ty)
  | integer (n : Int) : Fits deferred (.scalar .integer) (.integer n)
  | real (x : Float) : Fits deferred (.scalar .real) (.real x)
  | bool (b : Bool) : Fits deferred (.scalar .boolean) (.bool b)
  | string (s : String) : Fits deferred (.scalar .string) (.string s)
  | enumeration (path : Path) (index : Int) :
      Fits deferred (.scalar .enumeration) (.enumeration path index)
  | array {t : ValueType} {elements : Array Value} {dims : List Nat}
      (h : ∀ v ∈ elements.toList, Fits deferred t v) : Fits deferred (.array t) (.array elements dims)
  | list {t : ValueType} {elements : Array Value}
      (h : ∀ v ∈ elements.toList, Fits deferred t v) : Fits deferred (.list t) (.list elements)
  | present {t : ValueType} {content : Value} (h : Fits deferred t content) :
      Fits deferred (.option t) (.present content)
  | absent {t : ValueType} : Fits deferred (.option t) .absent
  | boxed {t : ValueType} {content : Value} (h : Fits deferred t content) :
      Fits deferred (.boxed t) (.boxed content)
  | tuple {ts : List ValueType} {elements : List Value}
      (h : List.Forall₂ (Fits deferred) ts elements) : Fits deferred (.tuple ts) (.tuple elements)
  | record {names : List String} {ts : List ValueType} {path : Path} {fields : List Value}
      {index : Int} (h : List.Forall₂ (Fits deferred) ts fields) :
      Fits deferred (.record names ts) (.record path fields names index)

variable {d d' : Bool} {t : ValueType}

/-! ## Placeholders -/

mutual

/-- A value without placeholders fits where placeholders are allowed. -/
theorem Fits.weaken (hd : d = true → d' = true) : ∀ {t : ValueType} {v : Value}, v.Fits d t →
    v.Fits d' t
  | .scalar kind, v, h => by
    cases h with
    | empty h => exact .empty (hd h) _ _ _ _
    | integer n => exact .integer n
    | real x => exact .real x
    | bool b => exact .bool b
    | string s => exact .string s
    | enumeration path index => exact .enumeration path index
  | .array t, v, h => by
    cases h with
    | empty h => exact .empty (hd h) _ _ _ _
    | array h => exact .array fun w hw => Fits.weaken hd (h w hw)
  | .list t, v, h => by
    cases h with
    | empty h => exact .empty (hd h) _ _ _ _
    | list h => exact .list fun w hw => Fits.weaken hd (h w hw)
  | .option t, v, h => by
    cases h with
    | empty h => exact .empty (hd h) _ _ _ _
    | present h => exact .present (Fits.weaken hd h)
    | absent => exact .absent
  | .boxed t, v, h => by
    cases h with
    | empty h => exact .empty (hd h) _ _ _ _
    | boxed h => exact .boxed (Fits.weaken hd h)
  | .tuple ts, v, h => by
    cases h with
    | empty h => exact .empty (hd h) _ _ _ _
    | tuple h => exact .tuple (Fits.weakenAll hd h)
  | .record names ts, v, h => by
    cases h with
    | empty h => exact .empty (hd h) _ _ _ _
    | record h => exact .record (Fits.weakenAll hd h)

/-- Values that fit types fit them also where there may be more placeholders. -/
theorem Fits.weakenAll (hd : d = true → d' = true) : ∀ {ts : List ValueType} {vs : List Value},
    List.Forall₂ (Fits d) ts vs → List.Forall₂ (Fits d') ts vs
  | [], _, .nil => .nil
  | _ :: _, _, .cons h hs => .cons (Fits.weaken hd h) (Fits.weakenAll hd hs)

end

/-- A value that fits without placeholders fits in any case. -/
theorem Fits.solid {v : Value} (h : v.Fits false t) : v.Fits d t :=
  h.weaken fun hfalse => by cases hfalse

/-! ## Scalars -/

/-- The form of the scalars of a kind. -/
def IsScalar (v : Value) : ScalarKind → Prop
  | .integer => ∃ n, v = .integer n
  | .real => ∃ x, v = .real x
  | .boolean => ∃ b, v = .bool b
  | .string => ∃ s, v = .string s
  | .enumeration => ∃ path index, v = .enumeration path index

/-- A value of a scalar type is a placeholder or a scalar of the kind. -/
theorem Fits.scalar_cases {kind : ScalarKind} {v : Value} (h : v.Fits d (.scalar kind)) :
    (d = true ∧ ∃ scope name ty, v = .empty scope name ty) ∨ v.IsScalar kind := by
  cases h with
  | empty h => exact .inl ⟨h, _, _, _, rfl⟩
  | integer n => exact .inr ⟨n, rfl⟩
  | real x => exact .inr ⟨x, rfl⟩
  | bool b => exact .inr ⟨b, rfl⟩
  | string s => exact .inr ⟨s, rfl⟩
  | enumeration path index => exact .inr ⟨path, index, rfl⟩

/-- A value that fits a scalar type without placeholders is a scalar of its kind. -/
theorem Fits.isScalar {kind : ScalarKind} {v : Value} (h : v.Fits false (.scalar kind)) :
    v.IsScalar kind := by
  rcases h.scalar_cases with ⟨hfalse, -⟩ | h
  · cases hfalse
  · exact h

/-! ## Parts -/

/-- A value that fits a scalar type is no array. -/
theorem Fits.isArray_eq_false {kind : ScalarKind} {v : Value} (h : v.Fits d (.scalar kind)) :
    v.isArray = false := by
  cases h <;> rfl

/-- Values of one type make an array of it. -/
theorem fits_arrayOf {elements : List Value} (h : ∀ v ∈ elements, v.Fits d t) :
    (arrayOf elements).Fits d (.array t) :=
  .array h

/-- Values of one type make a list of it. -/
theorem fits_listOf {elements : List Value} (h : ∀ v ∈ elements, v.Fits d t) :
    (listOf elements).Fits d (.list t) :=
  .list h

/-- The leaves of nested arrays of scalars; a placeholder for an array is one of them. -/
theorem Fits.leaves {kind : ScalarKind} {n : Nat} {v : Value}
    (h : v.Fits d (.arrays n (.scalar kind))) : ∀ w ∈ v.flatten, w.Fits d (.scalar kind) := by
  induction n generalizing v with
  | zero =>
    have hleaf : v.isArray = false := Fits.isArray_eq_false h
    rw [flatten_leaf hleaf]
    exact fun w hw => List.mem_singleton.mp hw ▸ h
  | succ n ih =>
    cases h with
    | empty h => simpa [flatten] using Fits.empty h _ _ _ _
    | @array _ elements _ h =>
      obtain ⟨elements⟩ := elements
      intro w hw
      rw [flatten, flattenAll_eq_flatMap, List.mem_flatMap] at hw
      obtain ⟨v, hv, hw⟩ := hw
      exact ih (h v hv) w hw

/-- What is in a box fits what is in the type of the box. -/
theorem Fits.unboxed {v : Value} (h : v.Fits d t) : v.unboxed.Fits d t.unboxed := by
  induction v using Value.unboxed.induct generalizing t with
  | case1 content ih =>
    cases h with
    | @boxed t _ h => exact ih (t := t) h
  | case2 v hv =>
    rw [Value.unboxed]
    · cases h with
      | boxed h => exact absurd rfl (hv _)
      | empty h => exact .empty h _ _ _ _
      | integer n => exact .integer n
      | real x => exact .real x
      | bool b => exact .bool b
      | string s => exact .string s
      | enumeration path index => exact .enumeration path index
      | array h => exact .array h
      | list h => exact .list h
      | present h => exact .present h
      | absent => exact .absent
      | tuple h => exact .tuple h
      | record h => exact .record h
    · exact hv

/-- At every place of a list of types there is a value of the type. -/
theorem fits_getElem? {ts : List ValueType} {vs : List Value} (h : List.Forall₂ (Fits d) ts vs)
    {i : Nat} (ht : ts[i]? = some t) : ∃ v, vs[i]? = some v ∧ v.Fits d t := by
  obtain ⟨hi, rfl⟩ := List.getElem?_eq_some_iff.mp ht
  have hi' : i < vs.length := h.length_eq ▸ hi
  exact ⟨vs[i], List.getElem?_eq_getElem hi', List.Forall₂.get h hi hi'⟩

end Value

end ModelicaFold
