import Mathlib.Logic.Function.Iterate
import ModelicaFold.Eval.Rule
import ModelicaFold.Proofs.Memory.Declarations
import ModelicaFold.Proofs.Typing.Operators

/-!
# Types of expressions

`HasType τ env e d t` says that `e` has type `t` in an environment, and that its value may hold
placeholders only if `d` is true. An unbound variable has every type, with placeholders. Where an
operation tells a placeholder from a value of the wrong kind, its operands may hold placeholders;
the bounds of ranges, the operands of string concatenations and of products and what is folded by
name may not. There is no rule for what types alone do not keep from failing internally, which are
the products of matrices and matrices of blocks, nor for what the neighbouring phases decide, which
are calls of functions of the model and quoted code.

Bindings refer to each other freely, so their types are not derived but assumed: `τ` gives a type to
every key under which a value is remembered, and an environment is well typed if its bindings have
the types of their keys.
-/

namespace ModelicaFold

open Value (Fits)

/-- The types of the bindings that are remembered under keys, each with whether their values may
hold placeholders. -/
abbrev KeyTypes := String → Option (Bool × ValueType)

/-- The type of the elements that an iterator over values of a type runs through. -/
def ValueType.element? : ValueType → Option ValueType
  | .array t => some t
  | .list t => some t
  | _ => none

/-- A built-in function is safe on operands of some types, and its result holds no placeholder. -/
def Builtin.Function.Admits (f : Builtin.Function) (d : Bool) (ts : List ValueType)
    (t : ValueType) : Prop :=
  ∀ vs, List.Forall₂ (Fits d) ts vs → Outcome.Safe (Fits false t) (f vs)

/-- The type of one level of a gathered value. -/
def Gathering.wrap : Gathering → ValueType → ValueType
  | .array, t => .array t
  | _, t => .list t

/-- The type of gathered values of the body; boxes are stripped from the elements of arrays. -/
def Gathering.typeOf (g : Gathering) (rank : Nat) (t : ValueType) : ValueType :=
  g.wrap^[max 1 rank] (if g = .array then t.unboxed else t)

/-- The number of levels of what is gathered over some iterators. -/
def IteratorKind.rank (kind : IteratorKind) (iterators : Nat) : Nat :=
  match kind with
  | .combine => iterators
  | .thread => 1

/-- The types whose values can be folded by the name of a reduction. Reals are not among those that
have extremes, since a Real that is not a number is comparable to none. -/
inductive FoldsByName : String → ValueType → Prop where
  | sum {kind : ScalarKind} (n : Nat) (h : kind.IsNumber) : FoldsByName "sum" (.arrays n (.scalar kind))
  | product {kind : ScalarKind} (n : Nat) (h : kind.IsNumber) :
      FoldsByName "product" (.arrays n (.scalar kind))
  | max {kind : ScalarKind} (h : kind ≠ .real) : FoldsByName "max" (.scalar kind)
  | min {kind : ScalarKind} (h : kind ≠ .real) : FoldsByName "min" (.scalar kind)

mutual

/-- An expression has a type in an environment. -/
inductive HasType (τ : KeyTypes) : Env → Expr → Bool → ValueType → Prop where
  | integer {env d} (n : Int) : HasType τ env (.integer n) d (.scalar .integer)
  | real {env d} (x : Float) : HasType τ env (.real x) d (.scalar .real)
  | bool {env d} (b : Bool) : HasType τ env (.bool b) d (.scalar .boolean)
  | string {env d} (s : String) : HasType τ env (.string s) d (.scalar .string)
  | enumeration {env d} (path : Path) (index : Int) :
      HasType τ env (.enumeration path index) d (.scalar .enumeration)
  | array {env d t es} (ty : Ty) (scalar : Bool) (h : ∀ e ∈ es, HasType τ env e d t) :
      HasType τ env (.array ty scalar es) d (.array t)
  /-- Scalars side by side; blocks of arrays may turn out ragged. -/
  | matrix {env d kind rows} (ty : Ty)
      (h : ∀ row ∈ rows, ∀ e ∈ row, HasType τ env e d (.scalar kind)) :
      HasType τ env (.matrix ty rows) d (.arrays 2 (.scalar kind))
  /-- The step may be a placeholder, the bounds may not. -/
  | range {env d c kind start step stop} (ty : Ty) (hkind : kind.HasRange step.isSome)
      (hstart : HasType τ env start false (.scalar kind))
      (hstep : ∀ e ∈ step, HasType τ env e c (.scalar kind))
      (hstop : HasType τ env stop false (.scalar kind)) :
      HasType τ env (.range ty start step stop) d (.array (.scalar kind))
  | tuple {env d es ts} (hlength : es.length = ts.length)
      (h : ∀ p ∈ es.zip ts, HasType τ env p.1 d p.2) : HasType τ env (.tuple es) d (.tuple ts)
  | cast {env d c kind kind' n ty operand} (hkind : ty.castKind? = some kind')
      (h : HasType τ env operand c (.arrays n (.scalar kind))) :
      HasType τ env (.cast ty operand) d (.arrays n (.scalar kind'))
  | castOther {env d t ty operand} (hkind : ty.castKind? = none) (h : HasType τ env operand d t) :
      HasType τ env (.cast ty operand) d t
  | reference {env d t t₁ t₂ parts} (ty : Ty)
      (hvariable : VariableHasType τ env (Reference.name (env.splitReference parts).1) d t₁)
      (hsubscripts : SubscriptsPick τ env (Reference.subscripts (env.splitReference parts).1) t₁ t₂)
      (hfields : FieldsSelect τ env (env.splitReference parts).2 t₂ t) :
      HasType τ env (.reference parts ty) d t
  | arith {env d c c' kind op operands n m r lhs rhs} (hranks : operands.Ranks n m r)
      (hop : op.Accepts kind) (hlhs : HasType τ env lhs c (.arrays n (.scalar kind)))
      (hrhs : HasType τ env rhs c' (.arrays m (.scalar kind))) :
      HasType τ env (.binary lhs (.arith op operands) rhs) d (.arrays r (.scalar kind))
  | concat {env d n lhs rhs} (hlhs : HasType τ env lhs false (.arrays n (.scalar .string)))
      (hrhs : HasType τ env rhs false (.arrays n (.scalar .string))) :
      HasType τ env (.binary lhs .concat rhs) d (.arrays n (.scalar .string))
  /-- The scalar product of vectors of Integers. -/
  | scalarProduct {env d lhs rhs} (hlhs : HasType τ env lhs false (.array (.scalar .integer)))
      (hrhs : HasType τ env rhs false (.array (.scalar .integer))) :
      HasType τ env (.binary lhs .scalarProduct rhs) d (.scalar .integer)
  | unary {env d c kind n operand} (op : UnaryOp) (hkind : kind.IsNumber)
      (h : HasType τ env operand c (.arrays n (.scalar kind))) :
      HasType τ env (.unary op operand) d (.arrays n (.scalar kind))
  | logical {env d c c' n lhs rhs} (op : LogicalOp)
      (hlhs : HasType τ env lhs c (.arrays n (.scalar .boolean)))
      (hrhs : HasType τ env rhs c' (.arrays n (.scalar .boolean))) :
      HasType τ env (.logical lhs op rhs) d (.arrays n (.scalar .boolean))
  | logicalNot {env d c n operand} (h : HasType τ env operand c (.arrays n (.scalar .boolean))) :
      HasType τ env (.logicalNot operand) d (.arrays n (.scalar .boolean))
  | relation {env d c c' t t' lhs rhs} (op : RelationOp) (hlhs : HasType τ env lhs c t)
      (hrhs : HasType τ env rhs c' t') : HasType τ env (.relation lhs op rhs) d (.scalar .boolean)
  | conditional {env d c t condition yes no}
      (hcondition : HasType τ env condition c (.scalar .boolean)) (hyes : HasType τ env yes d t)
      (hno : HasType τ env no d t) : HasType τ env (.conditional condition yes no) d t
  /-- A built-in function of values. -/
  | builtin {env d c t ts path args f} (ty : Ty) (impure : Bool)
      (hrule : Builtin.baseTable.lookup path.last = some (.ofValues f)) (hf : f.Admits c ts t)
      (hlength : args.length = ts.length) (h : ∀ p ∈ args.zip ts, HasType τ env p.1 c p.2) :
      HasType τ env (.call path args ty true impure) d t
  | noEvent {env d t path e} (ty : Ty) (impure : Bool) (hname : path.last = "noEvent")
      (h : HasType τ env e d t) : HasType τ env (.call path [e] ty true impure) d t
  | smooth {env d t path order e} (ty : Ty) (impure : Bool) (hname : path.last = "smooth")
      (h : HasType τ env e d t) : HasType τ env (.call path [order, e] ty true impure) d t
  /-- A quotient of two numbers of one kind. -/
  | quotient {env d c c' kind path x y} (ty : Ty) (impure : Bool)
      (hname : path.last = "div" ∨ path.last = "mod" ∨ path.last = "rem") (hkind : kind.IsNumber)
      (hx : HasType τ env x c (.scalar kind)) (hy : HasType τ env y c' (.scalar kind)) :
      HasType τ env (.call path [x, y] ty true impure) d (.scalar kind)
  | record {env d ts args} (path : Path) (names : List String) (hlength : args.length = ts.length)
      (h : ∀ p ∈ args.zip ts, HasType τ env p.1 d p.2) :
      HasType τ env (.record path args names) d (.record names ts)
  | unionRecord {env d ts args} (path : Path) (index : Int) (names : List String)
      (hlength : args.length = ts.length) (h : ∀ p ∈ args.zip ts, HasType τ env p.1 d p.2) :
      HasType τ env (.unionRecord path index args names) d (.record names ts)
  | subscripted {env d t t' operand subscripts} (h : HasType τ env operand d t)
      (hsubscripts : SubscriptsPick τ env subscripts t t') :
      HasType τ env (.subscripted operand subscripts) d t'
  | component {env d t ts operand} {index : Nat} (hindex : nth? ts index = some t)
      (h : HasType τ env operand d (.tuple ts)) : HasType τ env (.component operand index) d t
  | field {env d t ts names n i operand name} (hname : names.findIdx? (· == name) = some i)
      (ht : ts[i]? = some t) (h : HasType τ env operand d (.arrays n (.record names ts))) :
      HasType τ env (.field operand name) d (.arrays n t)
  /-- The declared dimensions of a reference are asked first. -/
  | sizes {env d c c' t operand}
      (hdims : ∀ e, .computed e ∈ Steps.announced operand → HasType τ env e c (.scalar .integer))
      (h : HasType τ env operand c' t) :
      HasType τ env (.size operand none) d (.array (.scalar .integer))
  | size {env d b c c' t operand dim}
      (hdims : ∀ e, .computed e ∈ Steps.announced operand → HasType τ env e c (.scalar .integer))
      (h : HasType τ env operand c' t) (hdim : HasType τ env dim b (.scalar .integer)) :
      HasType τ env (.size operand (some dim)) d (.scalar .integer)
  | list {env d t es} (h : ∀ e ∈ es, HasType τ env e d t) : HasType τ env (.list es) d (.list t)
  | cons {env d t head tail} (hhead : HasType τ env head d t) (htail : HasType τ env tail d (.list t)) :
      HasType τ env (.cons head tail) d (.list t)
  | present {env d t content} (h : HasType τ env content d t) :
      HasType τ env (.present content) d (.option t)
  | absent {env d t} : HasType τ env .absent d (.option t)
  | boxed {env d t content} (h : HasType τ env content d t) :
      HasType τ env (.boxed content) d (.boxed t)
  | unbox {env d t operand} (ty : Ty) (h : HasType τ env operand d (.boxed t)) :
      HasType τ env (.unbox operand ty) d t
  /-- A reduction with a default: without one its value may be a failure. -/
  | reduction {env d b c t t' elements info body iterators default}
      (hiterators : IteratorsRange τ env iterators c elements)
      (hbody : ∀ vs, List.Forall₂ (Fits c) elements vs →
        HasType τ (env.bindTuple iterators vs) body b t)
      (hdefault : info.default = some default) (h : HasType τ env default d t')
      (hresult : ReductionGives τ env info iterators.length b t d t') :
      HasType τ env (.reduction info body iterators) d t'

/-- The variable called `name` has a type in an environment. -/
inductive VariableHasType (τ : KeyTypes) : Env → String → Bool → ValueType → Prop where
  | undeclared {env name d t} (h : env.lookup name = none) : VariableHasType τ env name d t
  | value {env name d t found v} (hfound : env.lookup name = some found)
      (hbinding : found.declared.binding = .value v) (h : v.Fits d t) :
      VariableHasType τ env name d t
  /-- The placeholder of an unbound variable has every type. -/
  | unbound {env name t found} (hfound : env.lookup name = some found)
      (hbinding : found.declared.binding = .unbound)
      (hclass : env.defaultedRecord? found.declared.ty = none) : VariableHasType τ env name true t
  | defaults {env name d ts found r} (hfound : env.lookup name = some found)
      (hbinding : found.declared.binding = .unbound)
      (hclass : env.defaultedRecord? found.declared.ty = some r)
      (h : DefaultsHaveTypes τ (env.push r.path.text .classScope) r.fields d ts) :
      VariableHasType τ env name d (.record (r.fields.map (·.name)) ts)
  | expression {env name d c t found e variability cached} (hfound : env.lookup name = some found)
      (hbinding : found.declared.binding = .expression e variability cached)
      (hkey : τ (Context.key found.scope name) = some (c, t)) (hd : c = true → d = true) :
      VariableHasType τ env name d t

/-- The defaults of fields have types in an environment to which the fields before are added. -/
inductive DefaultsHaveTypes (τ : KeyTypes) : Env → List FieldDecl → Bool → List ValueType → Prop where
  | nil {env d} : DefaultsHaveTypes τ env [] d []
  | cons {env d t ts field more default} (hdefault : field.default = some default)
      (h : HasType τ env default d t)
      (hmore : ∀ v, v.Fits d t →
        DefaultsHaveTypes τ (env.define field.name (.ofValue field.ty v)) more d ts) :
      DefaultsHaveTypes τ env (field :: more) d (t :: ts)

/-- Subscripts pick a part of the second type from a value of the first one. -/
inductive SubscriptsPick (τ : KeyTypes) : Env → List Subscript → ValueType → ValueType → Prop where
  | nil {env t} : SubscriptsPick τ env [] t t
  | index {env c kind t t' e more} (hkind : kind.IsPosition) (h : HasType τ env e c (.scalar kind))
      (hmore : SubscriptsPick τ env more t t') : SubscriptsPick τ env (.index e :: more) (.array t) t'
  | slice {env c kind n t t' e more} (hkind : kind.IsPosition)
      (h : HasType τ env e c (.arrays n (.scalar kind))) (hmore : SubscriptsPick τ env more t t') :
      SubscriptsPick τ env (.slice e :: more) (.array t) (.array t')
  | whole {env t t' more} (hmore : SubscriptsPick τ env more t t') :
      SubscriptsPick τ env (.whole :: more) (.array t) (.array t')

/-- The identifiers of a reference select a field of the second type from a value of the first
one. -/
inductive FieldsSelect (τ : KeyTypes) : Env → Reference → ValueType → ValueType → Prop where
  | nil {env t} : FieldsSelect τ env [] t t
  | cons {env t t₁ t₂ ts names n i part more}
      (hname : names.findIdx? (· == RefPart.ident part) = some i) (ht : ts[i]? = some t₁)
      (hsubscripts : SubscriptsPick τ env part.subscripts (.arrays n t₁) t₂)
      (hmore : FieldsSelect τ env more t₂ t) :
      FieldsSelect τ env (part :: more) (.arrays n (.record names ts)) t

/-- Iterators run through values of some types. A guard may turn out not to be Boolean. -/
inductive IteratorsRange (τ : KeyTypes) : Env → List Iterator → Bool → List ValueType → Prop where
  | nil {env c} : IteratorsRange τ env [] c []
  | cons {env b c t ts source it more} (hsource : HasType τ env it.source c source)
      (helement : source.element? = some t)
      (hguard : ∀ guard ∈ it.guard, ∀ v, v.Fits c t →
        HasType τ (env.bindIterators [(it.name, it.ty, v)]) guard b (.scalar .boolean))
      (hmore : IteratorsRange τ env more c ts) : IteratorsRange τ env (it :: more) c (t :: ts)

/-- What a reduction over a number of iterators makes of values of the body. -/
inductive ReductionGives (τ : KeyTypes) :
    Env → ReductionInfo → Nat → Bool → ValueType → Bool → ValueType → Prop where
  | gather {env info n d t} (h : Gathering.ofName info.path.last ≠ .fold) :
      ReductionGives τ env info n d t d
        ((Gathering.ofName info.path.last).typeOf (info.kind.rank n) t)
  | fold {env info n d t fold} (h : Gathering.ofName info.path.last = .fold)
      (hfold : info.fold = some fold)
      (hstep : ∀ acc next : Value, acc.Fits d t → next.Fits d t →
        HasType τ (env.bindIterators [(info.valueName, info.ty, next), (info.resultName, info.ty, acc)])
          fold d t) :
      ReductionGives τ env info n d t d t
  /-- What is folded by name holds no placeholder. -/
  | named {env info n d t} (hfold : info.fold = none) (h : FoldsByName info.path.last t) :
      ReductionGives τ env info n false t d t

end

/-- Every binding to an expression, and the value that is known for it from before, has the type
of its key. -/
def Env.WellTyped (τ : KeyTypes) (start : Env) : Prop :=
  ∀ ⦃scope : Env⦄ ⦃name declared e variability cached d t⦄, scope.frames <:+ start.frames →
    scope.innermost.vars.lookup name = some declared →
    declared.binding = .expression e variability cached → τ (scope.key name) = some (d, t) →
    HasType τ scope e d t ∧ ∀ v ∈ cached, v.Fits d t

/-- What is remembered under a key has its type. -/
def Context.WellTyped (τ : KeyTypes) (ctx : Context) : Prop :=
  ∀ ⦃key v d t⦄, ctx.constant? key = some v → τ key = some (d, t) → v.Fits d t

end ModelicaFold
