import ModelicaFold.Eval.Evaluator
import ModelicaFold.Syntax.Print
import ModelicaFold.Value.Arithmetic
import ModelicaFold.Value.Index

/-!
# Sizes

The size of a declared dimension, and the sizes of an expression. The declared type of a reference
is asked first, so that the sizes of an array are known even where its elements are not.
-/

namespace ModelicaFold.Steps

/-- The size of a declared dimension. -/
def dimension (s : Steps) (req : Request) : Dimension → EvalM Nat
  | .known n => return n
  | .enumeration _ n => return n
  | .boolean => return 2
  | .computed e => do
    match ← (s.evalInner req e).attempt with
    | .ok (.integer n) =>
      if n < 0 then
        EvalM.fail (.invalidArgument "dimension" ("negative size " ++ toString n))
      else return n.toNat
    | .error f =>
      if f.cause.isFatal then EvalM.throw f else EvalM.fail (.dimensionNotKnown e.text)
    | _ => EvalM.fail (.dimensionNotKnown e.text)
  | .unknown => EvalM.fail (.dimensionNotKnown ":")

/-- The dimensions that the declared type of a reference announces. -/
def announced : Expr → List Dimension
  | .reference _ ty => ty.dims
  | _ => []

/-- The sizes of an array that is evaluated for them, after its declared type did not tell. -/
def evaluatedSizes (s : Steps) (req : Request) (e : Expr) : EvalM (List Nat) := do
  match ← (s.eval req e).attempt with
  | .ok (.array _ dims) => return dims
  | .error f =>
    if f.cause.isFatal then EvalM.throw f else EvalM.fail (.dimensionNotKnown e.text)
  | _ => EvalM.fail (.dimensionNotKnown e.text)

/-- The sizes of an expression; a scalar has none. -/
def sizes (s : Steps) (req : Request) (e : Expr) : EvalM (List Nat) := do
  match announced e with
  | [] => return (← s.eval req e).dims
  | dims =>
    match ← (dims.mapM (s.dimension req)).attempt with
    | .ok sizes => return sizes
    | .error f => if f.cause.isFatal then EvalM.throw f else s.evaluatedSizes req e

/-- A size as a value. -/
def sizeValue (n : Nat) : Outcome Value := inRange "size" n

/-- `size(e)` and `size(e, k)`. -/
def size (s : Steps) (req : Request) (e : Expr) (dim : Option Expr) : EvalM Value := do
  let dims ← s.sizes req e
  match dim with
  | none => return Value.arrayOf (← (dims.mapM sizeValue : Outcome (List Value)))
  | some dim =>
    let v ← s.eval req dim
    match v with
    | .integer k =>
      match nth? dims k with
      | some n => sizeValue n
      | none =>
        EvalM.fail (.invalidArgument "size"
          ("dimension " ++ toString k ++ " out of range for rank " ++ toString dims.length))
    | other => EvalM.fail (other.mismatch "size dimension" "Integer")

/-- The number of dimensions of an expression. -/
def rank (s : Steps) (req : Request) (e : Expr) : EvalM Value := do
  return .integer (← s.sizes req e).length

end ModelicaFold.Steps
