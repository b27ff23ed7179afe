import ModelicaFold.Syntax.Expr

/-!
# Direct subexpressions and references

`Expr.children` lists the direct subexpressions in the order they are visited. `Expr.refersTo` asks
whether a name occurs in an expression outside the reductions that bind it; a binding in which its
own name occurs cannot be evaluated.
-/

namespace ModelicaFold

/-- The expression inside a subscript. -/
def Subscript.expr? : Subscript → Option Expr
  | .whole => none
  | .slice indices => some indices
  | .index i => some i

/-- The direct subexpressions of an expression, in visiting order. Annotated types and quoted code
hold none, and of a reduction neither the default nor the fold expression counts. -/
def Expr.children : Expr → List Expr
  | .integer _ => []
  | .real _ => []
  | .bool _ => []
  | .string _ => []
  | .enumeration _ _ => []
  | .code _ => []
  | .absent => []
  | .array _ _ elements => elements
  | .tuple elements => elements
  | .list elements => elements
  | .call _ args _ _ _ => args
  | .record _ args _ => args
  | .unionRecord _ _ args _ => args
  | .matrix _ rows => rows.flatten
  | .range _ start step stop => start :: step.toList ++ [stop]
  | .cast _ operand => [operand]
  | .component operand _ => [operand]
  | .field operand _ => [operand]
  | .boxed content => [content]
  | .unbox operand _ => [operand]
  | .logicalNot operand => [operand]
  | .unary _ operand => [operand]
  | .present content => [content]
  | .reference parts _ => (Reference.subscripts parts).filterMap Subscript.expr?
  | .binary lhs _ rhs => [lhs, rhs]
  | .logical lhs _ rhs => [lhs, rhs]
  | .relation lhs _ rhs => [lhs, rhs]
  | .cons head tail => [head, tail]
  | .conditional condition yes no => [condition, yes, no]
  | .subscripted operand subscripts => operand :: subscripts.filterMap Subscript.expr?
  | .size operand dim => operand :: dim.toList
  | .reduction _ body iterators =>
    iterators.flatMap (fun it => it.source :: it.guard.toList) ++ [body]

mutual

/-- Whether `name` occurs as the name of a reference. An iterator called `name` hides it in the
body and in the guards of its reduction, though not in the sources. -/
def Expr.refersTo (name : String) : Expr → Bool
  | .integer _ => false
  | .real _ => false
  | .bool _ => false
  | .string _ => false
  | .enumeration _ _ => false
  | .code _ => false
  | .absent => false
  | .array _ _ elements => Expr.anyRefersTo name elements
  | .tuple elements => Expr.anyRefersTo name elements
  | .list elements => Expr.anyRefersTo name elements
  | .call _ args _ _ _ => Expr.anyRefersTo name args
  | .record _ args _ => Expr.anyRefersTo name args
  | .unionRecord _ _ args _ => Expr.anyRefersTo name args
  | .matrix _ rows => Expr.anyRowRefersTo name rows
  | .range _ start none stop => start.refersTo name || stop.refersTo name
  | .range _ start (some step) stop =>
    start.refersTo name || step.refersTo name || stop.refersTo name
  | .cast _ operand => operand.refersTo name
  | .component operand _ => operand.refersTo name
  | .field operand _ => operand.refersTo name
  | .boxed content => content.refersTo name
  | .unbox operand _ => operand.refersTo name
  | .logicalNot operand => operand.refersTo name
  | .unary _ operand => operand.refersTo name
  | .present content => content.refersTo name
  | .reference parts _ => Reference.name parts == name || RefPart.anyRefersTo name parts
  | .binary lhs _ rhs => lhs.refersTo name || rhs.refersTo name
  | .logical lhs _ rhs => lhs.refersTo name || rhs.refersTo name
  | .relation lhs _ rhs => lhs.refersTo name || rhs.refersTo name
  | .cons head tail => head.refersTo name || tail.refersTo name
  | .conditional condition yes no =>
    condition.refersTo name || yes.refersTo name || no.refersTo name
  | .subscripted operand subscripts =>
    operand.refersTo name || Subscript.anyRefersTo name subscripts
  | .size operand none => operand.refersTo name
  | .size operand (some dim) => operand.refersTo name || dim.refersTo name
  | .reduction _ body iterators =>
    Iterator.anySourceRefersTo name iterators ||
      !iterators.any (fun it => it.name == name) &&
        (body.refersTo name || Iterator.anyGuardRefersTo name iterators)

def Expr.anyRefersTo (name : String) : List Expr → Bool
  | [] => false
  | e :: es => e.refersTo name || Expr.anyRefersTo name es

def Expr.anyRowRefersTo (name : String) : List (List Expr) → Bool
  | [] => false
  | row :: rows => Expr.anyRefersTo name row || Expr.anyRowRefersTo name rows

def Subscript.anyRefersTo (name : String) : List Subscript → Bool
  | [] => false
  | .whole :: more => Subscript.anyRefersTo name more
  | .slice indices :: more => indices.refersTo name || Subscript.anyRefersTo name more
  | .index index :: more => index.refersTo name || Subscript.anyRefersTo name more

def RefPart.anyRefersTo (name : String) : List RefPart → Bool
  | [] => false
  | .mk _ subscripts :: more =>
    Subscript.anyRefersTo name subscripts || RefPart.anyRefersTo name more

def Iterator.anySourceRefersTo (name : String) : List Iterator → Bool
  | [] => false
  | .mk _ source _ _ :: more => source.refersTo name || Iterator.anySourceRefersTo name more

def Iterator.anyGuardRefersTo (name : String) : List Iterator → Bool
  | [] => false
  | .mk _ _ none _ :: more => Iterator.anyGuardRefersTo name more
  | .mk _ _ (some guard) _ :: more => guard.refersTo name || Iterator.anyGuardRefersTo name more

end

end ModelicaFold
