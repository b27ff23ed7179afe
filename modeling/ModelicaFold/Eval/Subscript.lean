import ModelicaFold.Eval.Evaluator
import ModelicaFold.Value.Index
import ModelicaFold.Value.Leaves

/-!
# Subscripts

Subscripts apply to an evaluated array from the outermost dimension inwards. An index picks one
element, a slice several, and `:` keeps all; what follows a slice or `:` applies to every element
kept.
-/

namespace ModelicaFold.Steps

/-- The first of the sizes that an array carries. It is read without a test, so that an array
without sizes is a crash; the evaluation goes on with zero. -/
def firstSize : List Nat → EvalM Nat
  | n :: _ => return n
  | [] => do
    EvalM.crash
    return 0

/-- Applies subscripts to a value. -/
def applySubscripts (s : Steps) (req : Request) : List Subscript → Value → EvalM Value
  | [], v => return v
  | .index e :: rest, v => do
    let i ← s.eval req e
    let element ← v.select (← i.position)
    s.applySubscripts req rest element
  | .slice e :: rest, v => do
    let indices ← s.eval req e
    let picked ← indices.flatten.mapM fun (i : Value) => do
      let element ← v.select (← i.position)
      s.applySubscripts req rest element
    return Value.arrayOf picked
  | .whole :: rest, v =>
    if rest.isEmpty then return v
    else
      match v with
      | .array elements dims =>
        if elements.isEmpty then return .array #[] [← firstSize dims]
        else
          return Value.arrayOf
            (← elements.toList.mapM fun element => s.applySubscripts req rest element)
      | other => s.applySubscripts req rest other

end ModelicaFold.Steps
