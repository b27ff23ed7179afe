import ModelicaFold.Builtin.Arrays
import ModelicaFold.Builtin.Collections
import ModelicaFold.Builtin.External
import ModelicaFold.Builtin.Strings
import ModelicaFold.Eval.Dimension

/-!
# Calls

A call is tried as a built-in function, as a function of the model, and as an impure function,
which is never constant. A function of the model that is external with a known meaning is evaluated
here, and otherwise, or if that fails, its executor is asked; the arguments are evaluated once.
-/

namespace ModelicaFold

namespace Steps

/-! ## Built-in functions of expressions -/

/-- The operands of a quotient; a divisor that is zero is reported with the operands as they are
written. -/
def quotientOperands (s : Steps) (req : Request) (name : String) (zero : String → String → Cause)
    (args : List Expr) : EvalM (Value × Value) := do
  Builtin.takes name 2 args
  match args with
  | [x, y] =>
    let a ← s.eval req x
    let b ← s.eval req y
    if b.isZero then EvalM.fail (zero x.text y.text) else return (a, b)
  | _ => EvalM.fail (.internal ("`" ++ name ++ "` takes 2 arguments"))

/-- A quotient of two numbers. -/
def quotient (name : String) (zero : String → String → Cause)
    (divide : Value → Value → Outcome Value) (s : Steps) (req : Request) (args : List Expr) :
    EvalM Value := do
  let (a, b) ← s.quotientOperands req name zero args
  EvalM.ofOutcome (divide a b)

/-- The only argument of a call, where there has to be one. -/
def onlyArg (name : String) (args : List Expr) (rule : Expr → EvalM Value) : EvalM Value := do
  Builtin.takes name 1 args
  match args with
  | e :: _ => rule e
  | [] => EvalM.fail .notConstant

/-- Evaluates its argument in a context without events. -/
def noEvent (s : Steps) (req : Request) (args : List Expr) : EvalM Value :=
  onlyArg "noEvent" args (s.eval req)

/-- Its second argument, whatever the order of smoothness. -/
def smooth (s : Steps) (req : Request) (args : List Expr) : EvalM Value := do
  Builtin.takes "smooth" 2 args
  match args with
  | _ :: e :: _ => s.eval req e
  | _ => EvalM.fail .notConstant

/-- The number of dimensions of its argument. -/
def ndims (s : Steps) (req : Request) (args : List Expr) : EvalM Value :=
  onlyArg "ndims" args (s.rank req)

/-- The sizes of its argument, or one of them. -/
def sizeCall (s : Steps) (req : Request) (args : List Expr) : EvalM Value := do
  Builtin.takesBetween "size" 1 2 args
  match args with
  | e :: more => s.size req e more.head?
  | [] => EvalM.fail .notConstant

/-- Prints its argument. -/
def print (s : Steps) (req : Request) (args : List Expr) : EvalM Value :=
  onlyArg "print" args fun e => do
    match (← s.eval req e).unboxed with
    | .string text =>
      EvalM.modifyLog (·.print text)
      return .noReturn
    | other => EvalM.fail (other.mismatch "print" "String")

/-- Evaluates its first argument after simplification. -/
def simplified (ev : Evaluator) (s : Steps) (req : Request) (args : List Expr) :
    EvalM Value := do
  Builtin.takesBetween "simplify" 1 2 args
  match args with
  | e :: _ => s.eval req (ev.simplify e)
  | [] => EvalM.fail .notConstant

end Steps

namespace Builtin

/-- How a built-in function is evaluated. -/
inductive Rule where
  /-- From the values of its arguments. -/
  | ofValues (f : Function)
  /-- From its arguments as expressions. -/
  | ofExprs (f : Evaluator → Steps → Request → List Expr → EvalM Value)

/-- A function of expressions that does not need the collaborators. -/
def special (f : Steps → Request → List Expr → EvalM Value) : Rule := .ofExprs fun _ => f

/-- The built-in functions of the base language, by name. -/
def baseTable : List (String × Rule) := [
  ("Integer", .ofValues literalIndex),
  ("String", .ofValues toText),
  ("abs", .ofValues (mapLeaf "abs" absoluteLeaf)),
  ("acos", .ofValues (mapReal "acos" (onUnit "acos" Float.acos))),
  ("asin", .ofValues (mapReal "asin" (onUnit "asin" Float.asin))),
  ("atan", .ofValues (mapReal "atan" (total Float.atan))),
  ("atan2", .ofValues arcTangent2),
  ("cat", .ofValues cat),
  ("ceil", .ofValues (mapReal "ceil" (total Float.ceil))),
  ("cos", .ofValues (mapReal "cos" (total Float.cos))),
  ("cosh", .ofValues (mapReal "cosh" (total Float.cosh))),
  ("cross", .ofValues cross),
  ("diagonal", .ofValues diagonal),
  ("div", special (Steps.quotient "div" .divisionByZero integerDivide)),
  ("exp", .ofValues (mapReal "exp" (total Float.exp))),
  ("fail", .ofValues failed),
  ("fill", .ofValues fillArray),
  ("floor", .ofValues (mapReal "floor" (total Float.floor))),
  ("identity", .ofValues identityMatrix),
  ("integer", .ofValues (mapLeaf "integer" integerLeaf)),
  ("linspace", .ofValues linspace),
  ("log", .ofValues (mapReal "log" (onPositive "log" Float.log))),
  ("log10", .ofValues (mapReal "log10" (onPositive "log10" Float.log10))),
  ("matrix", .ofValues matrixOf),
  ("max", .ofValues (extremum "max" .greater)),
  ("min", .ofValues (extremum "min" .less)),
  ("mod", special (Steps.quotient "mod" .moduloByZero modulo)),
  ("ndims", special Steps.ndims),
  ("noEvent", special Steps.noEvent),
  ("ones", .ofValues (filledWith "ones" (.integer 1))),
  ("outerProduct", .ofValues outerProduct),
  ("print", special Steps.print),
  ("product", .ofValues (foldLeaves "product" .mul)),
  ("promote", .ofValues promote),
  ("rem", special (Steps.quotient "rem" .moduloByZero remainder)),
  ("scalar", .ofValues scalar),
  ("sign", .ofValues (mapLeaf "sign" signLeaf)),
  ("simplify", .ofExprs Steps.simplified),
  ("sin", .ofValues (mapReal "sin" (total Float.sin))),
  ("sinh", .ofValues (mapReal "sinh" (total Float.sinh))),
  ("size", special Steps.sizeCall),
  ("skew", .ofValues skew),
  ("smooth", special Steps.smooth),
  ("sqrt", .ofValues (mapReal "sqrt" squareRoot)),
  ("sum", .ofValues (foldLeaves "sum" .add)),
  ("symmetric", .ofValues symmetric),
  ("tan", .ofValues (mapReal "tan" (total Float.tan))),
  ("tanh", .ofValues (mapReal "tanh" (total Float.tanh))),
  ("transpose", .ofValues transpose),
  ("vector", .ofValues vectorOf),
  ("zeros", .ofValues (filledWith "zeros" (.integer 0)))]

/-- The built-in functions of the meta-programming extension, by name. -/
def extensionTable : List (String × Function) := [
  ("arrayGet", elementAt "arrayGet"),
  ("arrayLength", lengthOf "arrayLength"),
  ("arrayList", arrayList),
  ("boolString", boolString),
  ("intAbs", intAbs),
  ("intMax", intMax),
  ("intMin", intMin),
  ("intReal", intReal),
  ("intString", intString),
  ("intStringChar", intStringChar),
  ("isNone", optionHolds "isNone" false),
  ("isSome", optionHolds "isSome" true),
  ("listAppend", listAppend),
  ("listArray", listArray),
  ("listEmpty", listEmpty),
  ("listGet", elementAt "listGet"),
  ("listHead", listHead),
  ("listLength", lengthOf "listLength"),
  ("listMember", listMember),
  ("listRest", listRest),
  ("listReverse", listReverse),
  ("realInt", realInt),
  ("realString", realString),
  ("stringAppend", stringAppend),
  ("stringAppendList", stringAppendList),
  ("stringCharInt", stringCharInt),
  ("stringCompare", stringCompare),
  ("stringEq", stringEq),
  ("stringGetStringChar", stringGetStringChar),
  ("stringInt", stringInt),
  ("stringLength", stringLength),
  ("stringListStringChar", stringListStringChar),
  ("stringReal", stringReal)]

/-- The names of the built-in functions of the base language. -/
def baseNames : List String := baseTable.map (·.1)

/-- The names of the built-in functions of the extension. -/
def extensionNames : List String := extensionTable.map (·.1)

/-- The rule of a built-in function; those of the extension only where it is enabled. -/
def rule? (name : String) (extended : Bool) : Option Rule :=
  match baseTable.lookup name with
  | some r => some r
  | none => if extended then (extensionTable.lookup name).map .ofValues else none

end Builtin

namespace Steps

/-! ## Calls -/

/-- Applies the rule of a built-in function. -/
def applyRule (s : Steps) (ev : Evaluator) (req : Request) (args : List Expr) :
    Builtin.Rule → EvalM Value
  | .ofValues f => do
    let values ← s.evalAll req args
    EvalM.ofOutcome (f values)
  | .ofExprs f => f ev s req args

/-- A call of a built-in function. -/
def callBuiltin (s : Steps) (ev : Evaluator) (req : Request) (args : List Expr)
    (r : Builtin.Rule) : EvalM Value := do
  EvalM.count fun c => { c with builtinCalls := c.builtinCalls + 1 }
  s.applyRule ev req args r

/-- Asks the executor of functions. Evaluation that it starts counts on from the depth of the
call. -/
def delegate (s : Steps) (ev : Evaluator) (req : Request) (call : Expr) (values : List Value) :
    EvalM Value := do
  EvalM.count fun c => { c with functionCalls := c.functionCalls + 1 }
  let reenter : Reentry := fun env e mode reporting =>
    (s.evalInner ⟨env, mode, reporting⟩ e).reporting reporting
  ev.call reenter req.env call values req.mode

/-- The values of arguments, whose failures are reported one by one. -/
def arguments (s : Steps) (req : Request) (args : List Expr) : EvalM (List Value) :=
  args.mapM fun arg => (s.eval req arg).reporting req.reporting

/-- A call of a function of the model. If both its known meaning and its executor fail, the more
telling failure is kept; a fatal one always is. -/
def callFunction (s : Steps) (ev : Evaluator) (req : Request) (call : Expr) (path : Path)
    (args : List Expr) : EvalM Value := do
  let values ← s.arguments req args
  match Builtin.External.function? req.env path with
  | none => s.delegate ev req call values
  | some f =>
    EvalM.count fun c => { c with builtinCalls := c.builtinCalls + 1 }
    match f values with
    | .ok v => return v
    | .error known =>
      match ← (s.delegate ev req call values).attempt with
      | .ok v => return v
      | .error f =>
        if f.cause.isFatal then EvalM.throw f else EvalM.throw (EvalM.moreTelling known f)

/-- The expression that a call `smooth(0, e)` stands for. -/
def smoothZero? (path : Path) (args : List Expr) (builtin : Bool) : Option Expr :=
  match args with
  | [.integer 0, e] => if builtin && path.last == "smooth" then some e else none
  | _ => none

/-- A call. `call` is the call itself as an expression. -/
def call (s : Steps) (ev : Evaluator) (req : Request) (call : Expr) (path : Path)
    (args : List Expr) (builtin impure : Bool) : EvalM Value :=
  match smoothZero? path args builtin with
  | some e => s.eval req e
  | none =>
    EvalM.firstMatch [
      if builtin then
        (Builtin.rule? path.last ev.config.flags.metamodelica).map (s.callBuiltin ev req args)
      else none,
      if builtin || impure then none else some (s.callFunction ev req call path args),
      if impure then some (EvalM.fail .notConstant) else none]

end Steps

end ModelicaFold
