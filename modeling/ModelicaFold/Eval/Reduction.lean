import ModelicaFold.Eval.Evaluator
import ModelicaFold.Syntax.Print
import ModelicaFold.Value.Arithmetic
import ModelicaFold.Value.Compare
import ModelicaFold.Word

/-!
# Reductions

Every iterator has a sequence of values, the elements of its source that pass its guard. The
sequences are put together into binding tuples, the body is evaluated once for each, and the values
are gathered into nested arrays or lists or folded. Without any tuple a reduction has its default
value, or fails as a value.
-/

namespace ModelicaFold

/-! ## Binding tuples -/

/-- More binding tuples than this are refused. -/
def maxIterations : Nat := 100000

/-- The number of combinations of sequences of the given lengths, as far as it fits into 64
bits. -/
def combinationCount (lengths : List Nat) : Option Nat :=
  lengths.foldlM (fun n m => if n * m < wordCount then some (n * m) else none) 1

/-- All combinations of one item of each sequence, the first sequence varying fastest. Where a
sequence is empty, those after it are not looked at. -/
def combinations {α : Type} : List (List α) → List (List α)
  | [] => [[]]
  | [] :: _ => []
  | items :: more => (combinations more).flatMap fun rest => items.map (· :: rest)

/-- An empty sequence needs no rule of its own. -/
theorem combinations_cons {α : Type} (items : List α) (more : List (List α)) :
    combinations (items :: more)
      = (combinations more).flatMap fun rest => items.map (· :: rest) := by
  cases items with
  | nil => simp [combinations]
  | cons item items => rfl

/-- The first items of the sequences, their second items and so on, `n` times. -/
def lockstep {α : Type} : Nat → List (List α) → List (List α)
  | 0, _ => []
  | n + 1, sequences => sequences.filterMap List.head? :: lockstep n (sequences.map List.tail)

/-- The binding tuples of iterators over the given sequences. -/
def bindingTuples {α : Type} (kind : IteratorKind) (sequences : List (List α)) :
    Outcome (List (List α)) :=
  let lengths := sequences.map List.length
  match kind with
  | .thread =>
    let n := lengths.headD 0
    if lengths.any (· ≠ n) then
      (Cause.invalidShape
        ("threaded reduction iterators have different lengths " ++ Text.bracketed lengths)).fail
    else .ok (lockstep n sequences)
  | .combine =>
    match combinationCount lengths with
    | some n =>
      if n ≤ maxIterations then .ok (combinations sequences)
      else (Cause.iterationLimit maxIterations).fail
    | none => (Cause.iterationLimit maxIterations).fail

/-- The name of the scopes that bind iterators. -/
def iteratorScopeName : String := "$reduction"

/-- A scope of iterators in which variables have the given types and values. -/
def Env.bindIterators (env : Env) (bindings : List (String × Ty × Value)) : Env :=
  bindings.foldl (fun env (name, ty, v) => env.define name (.ofValue ty v))
    (env.push iteratorScopeName .iteratorScope)

/-- The scope in which a body is evaluated for a binding tuple. -/
def Env.bindTuple (env : Env) (iterators : List Iterator) (values : List Value) : Env :=
  env.bindIterators ((iterators.zip values).map fun (it, v) => (it.name, it.ty, v))

/-! ## Gathering and folding -/

/-- What becomes of the values of the body. -/
inductive Gathering where
  | array
  | list
  | reversedList
  /-- They are folded. -/
  | fold
deriving DecidableEq

/-- The gathering that the name of a reduction asks for. -/
def Gathering.ofName (name : String) : Gathering :=
  if name = "array" then .array
  else if name = "list" then .list
  else if name = "listReverse" then .reversedList
  else .fold

/-- The nested array or list of the values of the body. -/
def Gathering.gather (g : Gathering) (values : List Value) (shape : List Nat) : Value :=
  match g with
  | .array => Value.nest Value.arrayOf (values.map Value.unboxed) shape
  | .list => Value.nest Value.listOf values shape
  | .reversedList => Value.nest Value.listOf values.reverse shape
  | .fold => .fail

namespace Value

/-- The sum or product of the result so far and the next value, leaf by leaf for arrays. -/
def foldNumbers (op : Arith) (acc next : Value) : Outcome Value :=
  if acc.isArray || next.isArray then
    orShape (acc.zipLeaves (scalarArith op) next)
      ("reduction over arrays of sizes " ++ Text.bracketed acc.dims ++ " and "
        ++ Text.bracketed next.dims)
  else if acc.number?.isNone then
    (Cause.internal
      ("reduction accumulator is " ++ acc.kind ++ ", expected a number")).fail
  else scalarArith op acc next

/-- The result so far, or the next value if it is better. -/
def foldExtreme (name : String) (keeps : RelationOp) (acc next : Value) : Outcome Value :=
  match relate? acc keeps next with
  | some keep => .ok (if keep then acc else next)
  | none =>
    (Cause.internal
      ("`" ++ name ++ "` reduction over " ++ acc.kind ++ " and " ++ next.kind)).fail

/-- A fold by name alone. -/
def foldNamed (name : String) (acc next : Value) : Outcome Value :=
  if name = "sum" then foldNumbers .add acc next
  else if name = "product" then foldNumbers .mul acc next
  else if name = "max" then foldExtreme name .greaterEq acc next
  else if name = "min" then foldExtreme name .lessEq acc next
  else (Cause.internal ("reduction `" ++ name ++ "` has no fold expression")).fail

end Value

namespace Steps

/-! ## Sequences -/

/-- Whether a value passes a guard. -/
def passes (s : Steps) (req : Request) (name : String) (ty : Ty) (guard : Expr) (v : Value) :
    EvalM Bool := do
  match ← s.evalInner (req.within (req.env.bindIterators [(name, ty, v)])) guard with
  | .bool b => return b
  | _ => EvalM.fail (.guardNotBoolean guard.text)

/-- The values of an iterator. -/
def sequence (s : Steps) (req : Request) (it : Iterator) : EvalM (List Value) := do
  let source ← s.eval req it.source
  match source.elements? with
  | none => EvalM.fail (source.mismatch "reduction iterator" "array or list")
  | some candidates =>
    match it.guard with
    | none => return candidates.toList
    | some guard => candidates.toList.filterM (s.passes req it.name it.ty guard)

/-! ## Values of the body -/

/-- The value of the body for one binding tuple. -/
def bodyValue (s : Steps) (req : Request) (iterators : List Iterator) (body : Expr)
    (values : List Value) : EvalM Value :=
  s.eval (req.within (req.env.bindTuple iterators values)) body

/-- One step of a fold, by the fold expression if there is one. -/
def foldStep (s : Steps) (req : Request) (info : ReductionInfo) (acc next : Value) :
    EvalM Value :=
  match info.fold with
  | none => EvalM.ofOutcome (Value.foldNamed info.path.last acc next)
  | some fold =>
    s.evalInner
      (req.within
        (req.env.bindIterators [(info.valueName, info.ty, next), (info.resultName, info.ty, acc)]))
      fold

/-- The value of a reduction. -/
def reduction (s : Steps) (req : Request) (info : ReductionInfo) (body : Expr)
    (iterators : List Iterator) : EvalM Value := do
  let sequences ← iterators.mapM (s.sequence req)
  match ← (bindingTuples info.kind sequences : Outcome (List (List Value))) with
  | [] =>
    match info.default with
    | some default => s.eval req default
    | none => return .fail
  | tuples@(first :: others) =>
    match Gathering.ofName info.path.last with
    | .fold => do
      let acc ← s.bodyValue req iterators body first
      others.foldlM
        (fun acc tuple => do s.foldStep req info acc (← s.bodyValue req iterators body tuple)) acc
    | gathering => do
      let values ← tuples.mapM (s.bodyValue req iterators body)
      let shape :=
        match info.kind with
        | .combine => (sequences.map List.length).reverse
        | .thread => [tuples.length]
      return gathering.gather values shape

end Steps

end ModelicaFold
