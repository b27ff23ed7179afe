import ModelicaFold.Builtin.Argument
import ModelicaFold.Value.Compare
import ModelicaFold.Value.Convert

/-!
# Numeric functions

Functions of one real apply to every element of an array. `integerDivide`, `modulo` and `remainder`
expect a divisor that is not zero.
-/

namespace ModelicaFold.Builtin

/-! ## Functions of one real -/

/-- A function of a real that may refuse its argument, on every leaf of the only argument. -/
def mapReal (name : String) (f : Float → Outcome Float) : Function := fun args => do
  takes name 1 args
  (← arg name args 0).mapLeaves fun leaf =>
    match leaf.number? with
    | some x => (f x).map .real
    | none => Value.refuse name "Real" leaf

/-- A function that is defined everywhere. -/
def total (f : Float → Float) (x : Float) : Outcome Float := .ok (f x)

/-- The square root; there is none below zero. -/
def squareRoot (x : Float) : Outcome Float :=
  if x < 0.0 then (Cause.negativeRoot x).fail else .ok x.sqrt

/-- A function of positive reals. -/
def onPositive (name : String) (f : Float → Float) (x : Float) : Outcome Float :=
  if 0.0 < x then .ok (f x)
  else (Cause.invalidArgument name (Decimal.plain x ++ " is not positive")).fail

/-- A function of the reals from -1 to 1. -/
def onUnit (name : String) (f : Float → Float) (x : Float) : Outcome Float :=
  if -1.0 ≤ x && x ≤ 1.0 then .ok (f x)
  else (Cause.invalidArgument name (Decimal.plain x ++ " is outside [-1, 1]")).fail

/-- The angle of the point with the two coordinates, the second one first. -/
def arcTangent2 : Function := fun args => do
  takes "atan2" 2 args
  let y ← realArg "atan2" args 0
  let x ← realArg "atan2" args 1
  return .real (y.atan2 x)

/-! ## Functions of numbers -/

/-- A function on every leaf of the only argument. -/
def mapLeaf (name : String) (f : Value → Outcome Value) : Function := fun args => do
  takes name 1 args
  (← arg name args 0).mapLeaves f

/-- The magnitude of an Integer in range. -/
def magnitude (name : String) (n : Int) : Outcome Value :=
  inRange name n.natAbs

def absoluteLeaf : Value → Outcome Value
  | .integer n => magnitude "abs" n
  | .real x => .ok (.real x.abs)
  | other => Value.refuse "abs" "Integer or Real" other

/-- The sign of a Real; a Real that is not a number has none. -/
def realSign (x : Float) : Int :=
  if 0.0 < x then 1 else if x < 0.0 then -1 else 0

def signLeaf : Value → Outcome Value
  | .integer n => .ok (.integer n.sign)
  | .real x => .ok (.integer (realSign x))
  | other => Value.refuse "sign" "Integer or Real" other

/-- The largest Integer not above a number. -/
def integerLeaf : Value → Outcome Value
  | .integer n => .ok (.integer n)
  | .real x => wholeReal "integer" x.floor
  | other => Value.refuse "integer" "Real" other

/-! ## Quotients -/

/-- A number operand. -/
def number (name : String) (v : Value) : Outcome Float :=
  match v.number? with
  | some x => .ok x
  | none => Value.refuse name "Integer or Real" v

/-- The quotient truncated toward zero. -/
def integerDivide (x y : Value) : Outcome Value :=
  match x, y with
  | .integer a, .integer b => inRange "div" (a.tdiv b)
  | _, _ => do
    return .real (Decimal.truncate ((← number "div" x) / (← number "div" y)))

/-- `x` less the multiple of `y` by the quotient rounded down; it has the sign of `y`. The quotient
of the smallest Integer by -1 is out of range, which counts here as well. -/
def modulo (x y : Value) : Outcome Value :=
  match x, y with
  | .integer a, .integer b =>
    if maxInteger < a.tdiv b then (Cause.integerOverflow "mod").fail else .ok (.integer (a.fmod b))
  | _, _ => do
    let a ← number "mod" x
    let b ← number "mod" y
    return .real (a - (a / b).floor * b)

/-- `x` less the multiple of `y` by the truncated quotient; it has the sign of `x`. -/
def remainder (x y : Value) : Outcome Value :=
  match x, y with
  | .integer a, .integer b =>
    if maxInteger < a.tdiv b then (Cause.integerOverflow "rem").fail else .ok (.integer (a.tmod b))
  | _, _ => do
    return .real (Decimal.remainder (← number "rem" x) (← number "rem" y))

/-! ## Extremes -/

/-- The value that none of the others is better than, the first of them; a value that cannot be
compared with the best so far is refused. -/
def best (name : String) (better : RelationOp) : Value → List Value → Outcome Value
  | champion, [] => .ok champion
  | champion, v :: vs =>
    match Value.relate? v better champion with
    | some true => best name better v vs
    | some false => best name better champion vs
    | none => Value.refuse name champion.kind v

/-- The extreme of two arguments or of the elements of one. -/
def extremum (name : String) (better : RelationOp) : Function := fun args => do
  takesBetween name 1 2 args
  let candidates ←
    if args.length = 2 then do
      let a ← arg name args 0
      let b ← arg name args 1
      pure [a, b]
    else do pure (← arg name args 0).flatten
  match candidates with
  | [] => (Cause.invalidArgument name "array is empty").fail
  | first :: others => best name better first others

end ModelicaFold.Builtin
