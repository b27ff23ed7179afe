import ModelicaFold.Syntax.Expr

/-!
# Written expressions

Expressions, types, dimensions and references are written in the notation of the modelling
language. Diagnostics quote them, and folding hands printed text to its caller.
-/

namespace ModelicaFold

mutual

/-- The written form of a dimension. -/
def Dimension.text : Dimension → String
  | .known n => toString n
  | .enumeration path _ => path.text
  | .boolean => "Boolean"
  | .computed size => size.text
  | .unknown => ":"

def Dimension.texts : List Dimension → List String
  | [] => []
  | d :: ds => d.text :: Dimension.texts ds

/-- The written form of a type. -/
def Ty.text : Ty → String
  | .integer => "Integer"
  | .real => "Real"
  | .boolean => "Boolean"
  | .string => "String"
  | .enumeration path _ => path.text
  | .record path => path.text
  | .array element dims => element.text ++ "[" ++ Text.commaSeparated (Dimension.texts dims) ++ "]"
  | .tuple types => "(" ++ Text.commaSeparated (Ty.texts types) ++ ")"
  | .list element => "list<" ++ element.text ++ ">"
  | .option element => "Option<" ++ element.text ++ ">"
  | .boxed element => "#" ++ element.text
  | .code => "Code"
  | .noReturn => "#NORETURN#"
  | .unknown => "?"

def Ty.texts : List Ty → List String
  | [] => []
  | t :: ts => t.text :: Ty.texts ts

/-- The written form of a subscript. -/
def Subscript.text : Subscript → String
  | .whole => ":"
  | .slice indices => indices.text
  | .index index => index.text

def Subscript.texts : List Subscript → List String
  | [] => []
  | s :: ss => s.text :: Subscript.texts ss

/-- The written form of one identifier of a reference. -/
def RefPart.text : RefPart → String
  | .mk ident subscripts =>
    if subscripts.isEmpty then ident
    else ident ++ "[" ++ Text.commaSeparated (Subscript.texts subscripts) ++ "]"

def RefPart.texts : List RefPart → List String
  | [] => []
  | p :: ps => p.text :: RefPart.texts ps

/-- The written form of an iterator clause. -/
def Iterator.text : Iterator → String
  | .mk name source none _ => name ++ " in " ++ source.text
  | .mk name source (some guard) _ => name ++ " in " ++ source.text ++ " guard " ++ guard.text

def Iterator.texts : List Iterator → List String
  | [] => []
  | it :: its => it.text :: Iterator.texts its

/-- The written form of an expression. -/
def Expr.text : Expr → String
  | .integer n => toString n
  | .real x => Decimal.literal x
  | .bool b => boolText b
  | .string s => stringText s
  | .enumeration path _ => path.text
  | .array _ _ elements => braced (Expr.texts elements)
  | .list elements => braced (Expr.texts elements)
  | .matrix _ rows => matrixText (Expr.rowTexts rows)
  | .range _ start none stop => start.text ++ ":" ++ stop.text
  | .range _ start (some step) stop => start.text ++ ":" ++ step.text ++ ":" ++ stop.text
  | .tuple elements => "(" ++ Text.commaSeparated (Expr.texts elements) ++ ")"
  | .cast ty operand => ty.text ++ "(" ++ operand.text ++ ")"
  | .reference parts _ => ".".intercalate (RefPart.texts parts)
  | .binary lhs op rhs => "(" ++ lhs.text ++ " " ++ op.symbol ++ " " ++ rhs.text ++ ")"
  | .unary _ operand => "(-" ++ operand.text ++ ")"
  | .logical lhs op rhs => "(" ++ lhs.text ++ " " ++ op.symbol ++ " " ++ rhs.text ++ ")"
  | .logicalNot operand => "(not " ++ operand.text ++ ")"
  | .relation lhs op rhs => "(" ++ lhs.text ++ " " ++ op.symbol ++ " " ++ rhs.text ++ ")"
  | .conditional condition yes no =>
    "if " ++ condition.text ++ " then " ++ yes.text ++ " else " ++ no.text
  | .call path args _ _ _ => path.text ++ "(" ++ Text.commaSeparated (Expr.texts args) ++ ")"
  | .record path args _ => path.text ++ "(" ++ Text.commaSeparated (Expr.texts args) ++ ")"
  | .unionRecord path _ args _ => path.text ++ "(" ++ Text.commaSeparated (Expr.texts args) ++ ")"
  | .subscripted operand subscripts =>
    operand.text ++ "[" ++ Text.commaSeparated (Subscript.texts subscripts) ++ "]"
  | .component operand index => operand.text ++ "[" ++ toString index ++ "]"
  | .field operand name => operand.text ++ "." ++ name
  | .size operand none => "size(" ++ operand.text ++ ")"
  | .size operand (some dim) => "size(" ++ operand.text ++ ", " ++ dim.text ++ ")"
  | .cons head tail => head.text ++ " :: " ++ tail.text
  | .present content => "SOME(" ++ content.text ++ ")"
  | .absent => "NONE()"
  | .boxed content => content.text
  | .unbox operand _ => operand.text
  | .reduction (.mk path _ _ _ _ _ _) body iterators =>
    path.text ++ "(" ++ body.text ++ " for "
      ++ Text.commaSeparated (Iterator.texts iterators) ++ ")"
  | .code fragment => "$Code(" ++ fragment.text ++ ")"

def Expr.texts : List Expr → List String
  | [] => []
  | e :: es => e.text :: Expr.texts es

def Expr.rowTexts : List (List Expr) → List (List String)
  | [] => []
  | row :: rows => Expr.texts row :: Expr.rowTexts rows

end

/-- The written form of a reference. -/
def Reference.text (r : Reference) : String :=
  ".".intercalate (r.map RefPart.text)

end ModelicaFold
