import ModelicaFold.Value.Basic

/-!
# Positions and fields

Positions count from one. A subscript is an Integer, an enumeration literal or a Boolean; it picks
an element of the outermost dimension.
-/

namespace ModelicaFold

/-- The item at a position counted from one. -/
def nth? {α : Type} (items : List α) (i : Int) : Option α :=
  if 1 ≤ i then items[(i - 1).toNat]? else none

/-- The item of a table at a position counted from one, or a failure that names the position. -/
def nth {α : Type} (items : Array α) (i : Int) : Outcome α :=
  match if 1 ≤ i then items[(i - 1).toNat]? else none with
  | some item => .ok item
  | none => (Cause.indexOutOfBounds i items.size).fail

/-- Tables and lists are counted alike. -/
theorem nth_eq {α : Type} (items : Array α) (i : Int) :
    nth items i =
      match nth? items.toList i with
      | some item => .ok item
      | none => (Cause.indexOutOfBounds i items.size).fail := by
  simp [nth, nth?]

/-- An item stands at a position counted from one if it stands at the offset before. -/
theorem nth?_eq_some_iff {α : Type} {items : List α} {i : Int} {a : α} :
    nth? items i = some a ↔ 1 ≤ i ∧ items[(i - 1).toNat]? = some a := by
  unfold nth?
  by_cases h : 1 ≤ i <;> simp [h]

namespace Value

/-- The position that a subscript denotes. -/
def position : Value → Outcome Int
  | .integer n => .ok n
  | .enumeration _ i => .ok i
  | .bool b => .ok (if b then 2 else 1)
  | other => refuse "subscript" "Integer" other

/-- The element at a position of the outermost dimension. -/
def select (v : Value) (i : Int) : Outcome Value :=
  match v with
  | .array elements _ => nth elements i
  | other => refuse "subscripted value" "array" other

/-- The literal of an enumeration at a position. -/
def literal (path : Path) (literals : List String) (i : Int) : Outcome Value :=
  match nth? literals i with
  | some name => .ok (.enumeration (path.join name) i)
  | none =>
    (Cause.invalidShape
      ("enumeration " ++ path.text ++ " has no literal with index " ++ toString i)).fail

mutual

/-- The field of a record, taken from every element of an array of records. -/
def project (name : String) : Value → Outcome Value
  | .record path fields names index =>
    match field? name (.record path fields names index) with
    | some v => .ok v
    | none => (Cause.internal ("record " ++ path.text ++ " has no field " ++ name)).fail
  | .array ⟨[]⟩ dims => .ok (.array #[] dims)
  | .array ⟨v :: vs⟩ _ => (projectAll name (v :: vs)).map arrayOf
  | other => refuse "field access" "record" other

def projectAll (name : String) : List Value → Outcome (List Value)
  | [] => .ok []
  | v :: vs =>
    match v.project name with
    | .error e => .error e
    | .ok w =>
      match projectAll name vs with
      | .error e => .error e
      | .ok ws => .ok (w :: ws)

end

/-- Projecting a list projects each of its values. -/
theorem projectAll_eq_mapM (name : String) (vs : List Value) :
    projectAll name vs = vs.mapM (project name) := by
  induction vs with
  | nil => rfl
  | cons v vs ih =>
    rw [projectAll, List.mapM_cons, ih]
    cases v.project name with
    | error e => rfl
    | ok w => cases vs.mapM (project name) <;> rfl

end Value

end ModelicaFold
