import ModelicaFold.Eval.Construct
import ModelicaFold.Eval.Dimension

/-!
# Renaming in expressions

`Expr.rename` replaces names where references begin. The identifiers that follow select fields, or
belong to a dotted declaration, and stay. The iterators of a reduction and the names of its fold
expression hide the names of the outside: each iterator in its own guard, all of them in the body, and
none in the sources. Sizes in declared types are renamed with the expression; quoted code is not.

A renamed type is taken for the same wherever a rule asks for its elements, for sizes that need no
evaluation, or for a cast.
-/

namespace ModelicaFold

/-- A replacement of names. -/
abbrev Renaming := String → String

namespace Renaming

/-- One name is replaced by another. -/
def single (old new : String) : Renaming := fun x => if x = old then new else x

/-- Names that are bound inside stay. -/
def shadow (ρ : Renaming) (bound : List String) : Renaming := fun x => if x ∈ bound then x else ρ x

/-- Hiding no names changes nothing. -/
theorem shadow_nil (ρ : Renaming) : ρ.shadow [] = ρ := by
  funext x
  exact if_neg List.not_mem_nil

end Renaming

/-! ## Expressions -/

mutual

def Dimension.rename (ρ : Renaming) : Dimension → Dimension
  | .known n => .known n
  | .enumeration path n => .enumeration path n
  | .boolean => .boolean
  | .computed size => .computed (size.rename ρ)
  | .unknown => .unknown

def Dimension.renameAll (ρ : Renaming) : List Dimension → List Dimension
  | [] => []
  | d :: ds => d.rename ρ :: Dimension.renameAll ρ ds

def Ty.rename (ρ : Renaming) : Ty → Ty
  | .integer => .integer
  | .real => .real
  | .boolean => .boolean
  | .string => .string
  | .enumeration path literals => .enumeration path literals
  | .array element dims => .array (element.rename ρ) (Dimension.renameAll ρ dims)
  | .record path => .record path
  | .tuple types => .tuple (Ty.renameAll ρ types)
  | .list element => .list (element.rename ρ)
  | .option element => .option (element.rename ρ)
  | .boxed element => .boxed (element.rename ρ)
  | .code => .code
  | .noReturn => .noReturn
  | .unknown => .unknown

def Ty.renameAll (ρ : Renaming) : List Ty → List Ty
  | [] => []
  | ty :: types => ty.rename ρ :: Ty.renameAll ρ types

def Subscript.rename (ρ : Renaming) : Subscript → Subscript
  | .whole => .whole
  | .slice indices => .slice (indices.rename ρ)
  | .index index => .index (index.rename ρ)

def Subscript.renameAll (ρ : Renaming) : List Subscript → List Subscript
  | [] => []
  | subscript :: more => subscript.rename ρ :: Subscript.renameAll ρ more

/-- The identifier stays, unless it is the first. -/
def RefPart.rename (ρ : Renaming) : RefPart → RefPart
  | .mk ident subscripts => .mk ident (Subscript.renameAll ρ subscripts)

def RefPart.renameAll (ρ : Renaming) : List RefPart → List RefPart
  | [] => []
  | part :: more => part.rename ρ :: RefPart.renameAll ρ more

def Iterator.rename (ρ : Renaming) : Iterator → Iterator
  | .mk name source none ty => .mk name (source.rename ρ) none (ty.rename ρ)
  | .mk name source (some guard) ty =>
    .mk name (source.rename ρ) (some (guard.rename (ρ.shadow [name]))) (ty.rename ρ)

def Iterator.renameAll (ρ : Renaming) : List Iterator → List Iterator
  | [] => []
  | it :: more => it.rename ρ :: Iterator.renameAll ρ more

def ReductionInfo.rename (ρ : Renaming) : ReductionInfo → ReductionInfo
  | .mk path kind ty default valueName resultName fold =>
    .mk path kind (ty.rename ρ) (Expr.renameOption ρ default) valueName resultName
      (Expr.renameOption (ρ.shadow [valueName, resultName]) fold)

def Expr.rename (ρ : Renaming) : Expr → Expr
  | .integer n => .integer n
  | .real x => .real x
  | .bool b => .bool b
  | .string s => .string s
  | .enumeration path index => .enumeration path index
  | .array ty scalar elements => .array (ty.rename ρ) scalar (Expr.renameAll ρ elements)
  | .matrix ty rows => .matrix (ty.rename ρ) (Expr.renameRows ρ rows)
  | .range ty start step stop =>
    .range (ty.rename ρ) (start.rename ρ) (Expr.renameOption ρ step) (stop.rename ρ)
  | .tuple elements => .tuple (Expr.renameAll ρ elements)
  | .cast ty operand => .cast (ty.rename ρ) (operand.rename ρ)
  | .reference parts ty =>
    .reference (match parts with
      | [] => []
      | .mk ident subscripts :: more =>
        .mk (ρ ident) (Subscript.renameAll ρ subscripts) :: RefPart.renameAll ρ more) (ty.rename ρ)
  | .binary lhs op rhs => .binary (lhs.rename ρ) op (rhs.rename ρ)
  | .unary op operand => .unary op (operand.rename ρ)
  | .logical lhs op rhs => .logical (lhs.rename ρ) op (rhs.rename ρ)
  | .logicalNot operand => .logicalNot (operand.rename ρ)
  | .relation lhs op rhs => .relation (lhs.rename ρ) op (rhs.rename ρ)
  | .conditional condition yes no =>
    .conditional (condition.rename ρ) (yes.rename ρ) (no.rename ρ)
  | .call path args ty builtin impure =>
    .call path (Expr.renameAll ρ args) (ty.rename ρ) builtin impure
  | .record path args fields => .record path (Expr.renameAll ρ args) fields
  | .unionRecord path index args fields => .unionRecord path index (Expr.renameAll ρ args) fields
  | .subscripted operand subscripts =>
    .subscripted (operand.rename ρ) (Subscript.renameAll ρ subscripts)
  | .component operand index => .component (operand.rename ρ) index
  | .field operand name => .field (operand.rename ρ) name
  | .size operand dim => .size (operand.rename ρ) (Expr.renameOption ρ dim)
  | .list elements => .list (Expr.renameAll ρ elements)
  | .cons head tail => .cons (head.rename ρ) (tail.rename ρ)
  | .present content => .present (content.rename ρ)
  | .absent => .absent
  | .boxed content => .boxed (content.rename ρ)
  | .unbox operand ty => .unbox (operand.rename ρ) (ty.rename ρ)
  | .reduction info body iterators =>
    .reduction (info.rename ρ) (body.rename (ρ.shadow (iterators.map Iterator.name)))
      (Iterator.renameAll ρ iterators)
  | .code fragment => .code fragment

def Expr.renameAll (ρ : Renaming) : List Expr → List Expr
  | [] => []
  | e :: es => e.rename ρ :: Expr.renameAll ρ es

def Expr.renameRows (ρ : Renaming) : List (List Expr) → List (List Expr)
  | [] => []
  | row :: rows => Expr.renameAll ρ row :: Expr.renameRows ρ rows

def Expr.renameOption (ρ : Renaming) : Option Expr → Option Expr
  | none => none
  | some e => some (e.rename ρ)

end

/-- The reference with its first identifier replaced. -/
def Reference.rename (ρ : Renaming) : Reference → Reference
  | [] => []
  | .mk ident subscripts :: more =>
    .mk (ρ ident) (subscripts.map (Subscript.rename ρ)) :: more.map (RefPart.rename ρ)

/-! ## Lists of parts -/

section

variable (ρ : Renaming)

/-- A list of expressions is renamed item by item. -/
@[simp] theorem Expr.renameAll_eq (es : List Expr) : Expr.renameAll ρ es = es.map (Expr.rename ρ) := by
  induction es with
  | nil => rfl
  | cons e es ih => rw [Expr.renameAll, ih, List.map_cons]

/-- Rows of expressions are renamed item by item. -/
@[simp] theorem Expr.renameRows_eq (rows : List (List Expr)) :
    Expr.renameRows ρ rows = rows.map (List.map (Expr.rename ρ)) := by
  induction rows with
  | nil => rfl
  | cons row rows ih => rw [Expr.renameRows, ih, Expr.renameAll_eq, List.map_cons]

/-- An optional expression is renamed if it is there. -/
@[simp] theorem Expr.renameOption_eq (o : Option Expr) :
    Expr.renameOption ρ o = o.map (Expr.rename ρ) := by
  cases o <;> rfl

/-- Dimensions are renamed one by one. -/
@[simp] theorem Dimension.renameAll_eq (dims : List Dimension) :
    Dimension.renameAll ρ dims = dims.map (Dimension.rename ρ) := by
  induction dims with
  | nil => rfl
  | cons d dims ih => rw [Dimension.renameAll, ih, List.map_cons]

/-- Subscripts are renamed one by one. -/
@[simp] theorem Subscript.renameAll_eq (subscripts : List Subscript) :
    Subscript.renameAll ρ subscripts = subscripts.map (Subscript.rename ρ) := by
  induction subscripts with
  | nil => rfl
  | cons subscript more ih => rw [Subscript.renameAll, ih, List.map_cons]

/-- The parts of a reference are renamed one by one. -/
@[simp] theorem RefPart.renameAll_eq (parts : List RefPart) :
    RefPart.renameAll ρ parts = parts.map (RefPart.rename ρ) := by
  induction parts with
  | nil => rfl
  | cons part more ih => rw [RefPart.renameAll, ih, List.map_cons]

/-- Iterators are renamed one by one. -/
@[simp] theorem Iterator.renameAll_eq (iterators : List Iterator) :
    Iterator.renameAll ρ iterators = iterators.map (Iterator.rename ρ) := by
  induction iterators with
  | nil => rfl
  | cons it more ih => rw [Iterator.renameAll, ih, List.map_cons]

/-- A reference is renamed at its first identifier, in its subscripts and in its type. -/
@[simp] theorem Expr.rename_reference (parts : Reference) (ty : Ty) :
    (Expr.reference parts ty).rename ρ = .reference (Reference.rename ρ parts) (ty.rename ρ) := by
  rcases parts with _ | ⟨⟨ident, subscripts⟩, more⟩
  · rfl
  · simp [Expr.rename, Reference.rename]

/-- A renamed expression is an Integer literal if it was the same one before. -/
theorem Expr.rename_eq_integer {e : Expr} {n : Int} : e.rename ρ = .integer n ↔ e = .integer n := by
  cases e with
  | reference parts ty => simp
  | _ => simp [Expr.rename]

/-! ## Iterators -/

/-- An iterator keeps its name. -/
@[simp] theorem Iterator.name_rename (it : Iterator) : (it.rename ρ).name = it.name := by
  obtain ⟨name, source, _ | guard, ty⟩ := it <;> rfl

/-- The source of an iterator is renamed on the outside. -/
@[simp] theorem Iterator.source_rename (it : Iterator) :
    (it.rename ρ).source = it.source.rename ρ := by
  obtain ⟨name, source, _ | guard, ty⟩ := it <;> rfl

/-- The guard of an iterator is renamed where the iterator hides its own name. -/
@[simp] theorem Iterator.guard_rename (it : Iterator) :
    (it.rename ρ).guard = it.guard.map (Expr.rename (ρ.shadow [it.name])) := by
  obtain ⟨name, source, _ | guard, ty⟩ := it <;> rfl

/-- The type of an iterator is renamed on the outside. -/
@[simp] theorem Iterator.ty_rename (it : Iterator) : (it.rename ρ).ty = it.ty.rename ρ := by
  obtain ⟨name, source, _ | guard, ty⟩ := it <;> rfl

/-! ## References -/

namespace Reference

/-- An empty reference is not changed. -/
@[simp] theorem rename_nil : rename ρ [] = [] := rfl

/-- The first identifier of a reference is renamed, and the subscripts of all parts. -/
@[simp] theorem rename_cons (part : RefPart) (more : Reference) :
    rename ρ (part :: more)
      = .mk (ρ part.ident) (part.subscripts.map (Subscript.rename ρ))
        :: more.map (RefPart.rename ρ) := by
  cases part
  rfl

/-- A renamed reference has as many parts as before. -/
@[simp] theorem length_rename (r : Reference) : (rename ρ r).length = r.length := by
  cases r <;> simp

/-- The first parts of a renamed reference are the first parts renamed. -/
theorem rename_take (r : Reference) (n : Nat) : (rename ρ r).take n = rename ρ (r.take n) := by
  cases r with
  | nil => simp
  | cons part more => cases n <;> simp [List.map_take]

/-- What follows the first part of a renamed reference keeps its identifiers. -/
theorem rename_drop (r : Reference) (n : Nat) :
    (rename ρ r).drop (n + 1) = (r.drop (n + 1)).map (RefPart.rename ρ) := by
  cases r <;> simp [List.map_drop]

end Reference

/-- A part that is not the first keeps its identifier. -/
@[simp] theorem RefPart.ident_rename (part : RefPart) : (part.rename ρ).ident = part.ident := by
  cases part
  rfl

/-- The subscripts of a part are renamed. -/
@[simp] theorem RefPart.subscripts_rename (part : RefPart) :
    (part.rename ρ).subscripts = part.subscripts.map (Subscript.rename ρ) := by
  cases part
  exact Subscript.renameAll_eq ρ _

/-- The subscripts of a renamed reference are its subscripts renamed. -/
theorem Reference.subscripts_rename (r : Reference) :
    Reference.subscripts (rename ρ r) = (Reference.subscripts r).map (Subscript.rename ρ) := by
  cases r with
  | nil => rfl
  | cons part more =>
    simp only [rename_cons, subscripts, List.flatMap_cons, List.map_append, List.flatMap_map,
      List.map_flatMap, RefPart.subscripts_rename]
    rfl

/-- Only the first identifier is replaced in the name of a reference. -/
theorem Reference.name_rename_cons (part : RefPart) (more : Reference) :
    name (rename ρ (part :: more)) = ".".intercalate (ρ part.ident :: more.map RefPart.ident) := by
  have hidents : (more.map (RefPart.rename ρ)).map RefPart.ident = more.map RefPart.ident := by
    rw [List.map_map]
    exact List.map_congr_left fun part _ => part.ident_rename ρ
  rw [rename_cons, name, List.map_cons, hidents, RefPart.ident]

/-! ## Types -/

/-- A size that needs no evaluation stays the same. -/
@[simp] theorem Dimension.staticSize_rename (d : Dimension) :
    (d.rename ρ).staticSize = d.staticSize := by
  cases d <;> rfl

namespace Ty

/-- The dimensions of a renamed type are its dimensions renamed. -/
@[simp] theorem dims_rename (ty : Ty) : (ty.rename ρ).dims = ty.dims.map (Dimension.rename ρ) := by
  cases ty <;> simp [Ty.rename, Ty.dims]

/-- The sizes of a type that need no evaluation stay the same. -/
@[simp] theorem staticDims_rename (ty : Ty) : (ty.rename ρ).staticDims = ty.staticDims := by
  simp only [staticDims, dims_rename, List.mapM_map, Function.comp_def, Dimension.staticSize_rename]

/-- The element type of a renamed type is its element type renamed. -/
theorem elementType_rename : ∀ ty : Ty, (ty.rename ρ).elementType = ty.elementType.rename ρ
  | .array element _ => elementType_rename element
  | .integer | .real | .boolean | .string | .enumeration _ _ | .record _ | .tuple _ | .list _
  | .option _ | .boxed _ | .code | .noReturn | .unknown => rfl

end Ty

/-- A renamed type casts leaves as before. -/
@[simp] theorem Value.castLeaf?_rename (ty : Ty) : castLeaf? (ty.rename ρ) = castLeaf? ty := by
  rw [castLeaf?, castLeaf?, Ty.elementType_rename]
  cases ty.elementType <;> rfl

/-- A renamed type has the same ranges. -/
@[simp] theorem Value.rangeElements_rename (start : Value) (step : Option Value) (stop : Value)
    (ty : Ty) : rangeElements start step stop (ty.rename ρ) = rangeElements start step stop ty := by
  have henumeration : ∀ a b, enumerationRange (ty.rename ρ) a b = enumerationRange ty a b := by
    intro a b
    cases ty <;> rfl
  simp only [rangeElements, henumeration]

/-- A renamed type makes the same arrays. -/
@[simp] theorem Steps.arrayOfType_rename (ty : Ty) (values : List Value) :
    arrayOfType (ty.rename ρ) values = arrayOfType ty values := by
  simp only [arrayOfType, Ty.staticDims_rename]

/-- The dimensions that a renamed expression announces are the announced ones renamed. -/
theorem Steps.announced_rename (e : Expr) :
    announced (e.rename ρ) = (announced e).map (Dimension.rename ρ) := by
  cases e <;> simp [Expr.rename, announced]

end

end ModelicaFold
