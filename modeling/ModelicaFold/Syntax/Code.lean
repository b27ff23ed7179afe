import ModelicaFold.Decimal.Written
import ModelicaFold.Syntax.Operator
import ModelicaFold.Syntax.Path

/-!
# Quoted code

`Code` is an expression before types are known, as it stands between `$Code(` and `)`. Evaluation
only replaces the marked parts of it; this module prints it.
-/

namespace ModelicaFold

/-- An untyped expression. -/
inductive Code where
  | integer (n : Int)
  | real (x : Float)
  | string (s : String)
  | bool (b : Bool)
  | reference (path : Path) (subscripts : List Code)
  | binary (lhs : Code) (op : CodeOp) (rhs : Code)
  | unary (op : CodeOp) (operand : Code)
  | logical (lhs : Code) (op : CodeOp) (rhs : Code)
  | logicalUnary (op : CodeOp) (operand : Code)
  | relation (lhs : Code) (op : CodeOp) (rhs : Code)
  | conditional (condition yes : Code) (elseIfs : List (Code × Code)) (no : Code)
  | call (function : Path) (args : List Code) (named : List (String × Code))
  | array (elements : List Code)
  | matrix (rows : List (List Code))
  | range (start : Code) (step : Option Code) (stop : Code)
  | tuple (elements : List Code)
  | list (elements : List Code)
  /-- The word `end` inside a subscript. -/
  | last

/-- What can be quoted: an expression, or the name of a type or of a component. -/
inductive Fragment where
  | expression (code : Code)
  | typeName (path : Path)
  | componentName (path : Path)

/-- A truth value as it is written. -/
def boolText (b : Bool) : String :=
  if b then "true" else "false"

/-- A string literal; its characters stand as they are. -/
def stringText (s : String) : String :=
  "\"" ++ s ++ "\""

/-- Items between braces. -/
def braced (items : List String) : String :=
  "\x7b" ++ Text.commaSeparated items ++ "\x7d"

/-- Rows between square brackets. -/
def matrixText (rows : List (List String)) : String :=
  "[" ++ "; ".intercalate (rows.map Text.commaSeparated) ++ "]"

namespace Code

mutual

/-- The written form of quoted code. -/
def text : Code → String
  | .integer n => toString n
  | .real x => Decimal.literal x
  | .string s => stringText s
  | .bool b => boolText b
  | .reference path subscripts =>
    if subscripts.isEmpty then path.text
    else path.text ++ "[" ++ Text.commaSeparated (texts subscripts) ++ "]"
  | .binary lhs op rhs => lhs.text ++ " " ++ op.symbol ++ " " ++ rhs.text
  | .logical lhs op rhs => lhs.text ++ " " ++ op.symbol ++ " " ++ rhs.text
  | .relation lhs op rhs => lhs.text ++ " " ++ op.symbol ++ " " ++ rhs.text
  | .unary op operand => op.symbol ++ operand.text
  | .logicalUnary op operand => op.symbol ++ " " ++ operand.text
  | .conditional condition yes elseIfs no =>
    "if " ++ condition.text ++ " then " ++ yes.text ++ String.join (branchTexts elseIfs)
      ++ " else " ++ no.text
  | .call function args named =>
    function.text ++ "(" ++ Text.commaSeparated (texts args ++ namedTexts named) ++ ")"
  | .array elements => braced (texts elements)
  | .list elements => braced (texts elements)
  | .matrix rows => matrixText (rowTexts rows)
  | .range start none stop => start.text ++ ":" ++ stop.text
  | .range start (some step) stop => start.text ++ ":" ++ step.text ++ ":" ++ stop.text
  | .tuple elements => "(" ++ Text.commaSeparated (texts elements) ++ ")"
  | .last => "end"

def texts : List Code → List String
  | [] => []
  | c :: cs => c.text :: texts cs

def rowTexts : List (List Code) → List (List String)
  | [] => []
  | row :: rows => texts row :: rowTexts rows

def branchTexts : List (Code × Code) → List String
  | [] => []
  | (condition, yes) :: more =>
    (" elseif " ++ condition.text ++ " then " ++ yes.text) :: branchTexts more

def namedTexts : List (String × Code) → List String
  | [] => []
  | (name, arg) :: more => (name ++ " = " ++ arg.text) :: namedTexts more

end

end Code

/-- The written form of a fragment. -/
def Fragment.text : Fragment → String
  | .expression code => code.text
  | .typeName path => path.text
  | .componentName path => path.text

end ModelicaFold
