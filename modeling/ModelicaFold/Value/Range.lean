import ModelicaFold.Value.Arithmetic
import ModelicaFold.Value.Index
import ModelicaFold.Word

/-!
# Ranges

`start:step:stop` over Integers, Reals, Booleans and enumeration literals. A range longer than
`maxRangeLength` is refused before any element is built.
-/

namespace ModelicaFold

/-- A longer range is refused. -/
def maxRangeLength : Nat := 10000000

/-- A number of elements that is not refused; a negative one is zero. -/
def rangeLength (n : Int) : Outcome Nat :=
  if n.toNat ≤ maxRangeLength then .ok n.toNat
  else (Cause.iterationLimit maxRangeLength).fail

namespace Value

/-- The step of a range, one if there is none; `read?` reads a step of the right kind. -/
def rangeStep {α : Type} (read? : Value → Option α) (one : α) (want : String) :
    Option Value → Outcome α
  | none => .ok one
  | some v =>
    match read? v with
    | some step => .ok step
    | none => refuse "range step" want v

/-- The refusal of a step of zero. -/
def zeroStep {α : Type} : Outcome α :=
  (Cause.invalidArgument "range" "step must not be zero").fail

/-- An Integer range. The number of elements comes from the quotient that leaves a non-negative
remainder, so with a negative step that does not divide the distance the last element lies beyond
`b`. -/
def integerRange (a step b : Int) : Outcome (Array Value) := do
  if step = 0 then zeroStep
  else
    let n ← rangeLength ((b - a) / step + 1)
    return (Array.range n).map fun (i : Nat) => .integer (wrapInteger (a + i * step))

/-- The tolerance on the number of elements of a Real range. -/
def realRangeTolerance : Float := 1e-10

/-- A Real range. -/
def realRange (a step b : Float) : Outcome (Array Value) := do
  if step == 0.0 then zeroStep
  else
    let count := ((b - a) / step + realRangeTolerance).floor + 1.0
    if !count.isFinite then (Cause.invalidArgument "range" "bounds are not finite").fail
    else
      let capped := if count < Float.ofNat (maxRangeLength + 1) then count
        else Float.ofNat (maxRangeLength + 1)
      let n ← rangeLength (if 0.0 < capped then (capped.toUInt64.toNat : Int) else 0)
      return (Array.range n).map fun (i : Nat) => .real (a + Float.ofNat i * step)

/-- A Boolean range. -/
def boolRange (a b : Bool) : Array Value :=
  match a, b with
  | false, true => #[.bool false, .bool true]
  | true, false => #[]
  | x, _ => #[.bool x]

/-- A range of the literals of an enumeration. It ends at the first position without a literal, so
no more positions are looked at than there are literals, and one. -/
def enumerationRange (ty : Ty) (a b : Int) : Outcome (Array Value) :=
  match ty with
  | .enumeration path literals =>
    (Array.range (min (b - a + 1).toNat (literals.length + 1))).mapM fun (i : Nat) =>
      literal path literals (a + i)
  | _ => if b < a then .ok #[] else Cause.notConstant.fail

/-- The elements of a range whose elements have type `ty`. -/
def rangeElements (start : Value) (step : Option Value) (stop : Value) (ty : Ty) :
    Outcome (Array Value) :=
  match start, step, stop with
  | .integer a, step, .integer b => do
    integerRange a (← rangeStep integer? 1 "Integer" step) b
  | .real a, step, .real b => do
    realRange a (← rangeStep real? 1.0 "Real" step) b
  | .bool a, none, .bool b => .ok (boolRange a b)
  | .enumeration _ a, none, .enumeration _ b => enumerationRange ty a b
  | a, _, b => (Cause.internal ("range over " ++ a.kind ++ " and " ++ b.kind)).fail

end Value

end ModelicaFold
