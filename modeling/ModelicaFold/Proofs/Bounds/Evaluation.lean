import ModelicaFold.Proofs.Bounds.Scanners
import ModelicaFold.Proofs.Bounds.Tuples
import ModelicaFold.Proofs.Runs.Entry

/-!
# Evaluation with direct accesses

The rules of evaluation that read sizes, identifiers or arguments at offsets, or that call what
does. Where such a read leaves its bounds there is a fault. One read has no test before it: `:` with
subscripts after it keeps the first size of an array without elements, whatever sizes the array
carries. All other rules are those of `Steps.rule`.
-/

namespace ModelicaFold.Direct

/-! ## Constructors and operators -/

/-- A matrix constructor. -/
def matrix (fault : Fault) (s : Steps) (req : Request) (rows : List (List Expr)) :
    EvalM Value := do
  let blocks ← rows.mapM fun row => do
    let values ← s.evalAll req row
    EvalM.ofAccess fault (rowBlock values)
  if blocks.isEmpty then return .array #[] [0, 0] else EvalM.ofAccess fault (concat 1 blocks)

/-- A range. -/
def range (fault : Fault) (s : Steps) (req : Request) (ty : Ty) (start : Expr)
    (step : Option Expr) (stop : Expr) : EvalM Value := do
  let a ← s.eval req start
  let d ← step.mapM (s.eval req)
  let b ← s.eval req stop
  let elements ← EvalM.ofAccess fault (rangeElements a d b ty.elementType)
  return .array elements [elements.size]

/-- A binary operator. -/
def operation (fault : Fault) (s : Steps) (req : Request) (lhs : Expr) (op : BinaryOp)
    (rhs : Expr) : EvalM Value := do
  let a ← s.eval req lhs
  let b ← s.eval req rhs
  if op.isDivision && b.hasZero then EvalM.fail (.divisionByZero lhs.text rhs.text)
  else EvalM.ofAccess fault (binary op a b)

/-! ## Subscripts and references -/

/-- Applies subscripts to a value. -/
def applySubscripts (fault : Fault) (s : Steps) (req : Request) :
    List Subscript → Value → EvalM Value
  | [], v => return v
  | .index e :: rest, v => do
    let i ← s.eval req e
    let element ← v.select (← i.position)
    applySubscripts fault s req rest element
  | .slice e :: rest, v => do
    let indices ← s.eval req e
    let picked ← indices.flatten.mapM fun (i : Value) => do
      let element ← v.select (← i.position)
      applySubscripts fault s req rest element
    return Value.arrayOf picked
  | .whole :: rest, v =>
    if rest.isEmpty then return v
    else
      match v with
      | .array elements dims =>
        if elements.isEmpty then do
          let n ← EvalM.ofAccess fault (Access.item dims 0)
          return .array #[] [n]
        else
          return Value.arrayOf
            (← elements.toList.mapM fun element => applySubscripts fault s req rest element)
      | other => applySubscripts fault s req rest other

/-- The number of identifiers of the longest prefix that is declared, among prefixes of at most `n`
identifiers. -/
def declaredPrefix (env : Env) (r : Reference) : Nat → Access (Option Nat)
  | 0 => pure none
  | n + 1 => do
    let before ← Access.slice r 0 (n + 1)
    if (env.lookup (Reference.name before)).isSome then pure (some (n + 1))
    else declaredPrefix env r n

/-- The declared part of a reference and the fields selected from it. -/
def splitReference (env : Env) (r : Reference) : Access (Reference × Reference) := do
  match ← declaredPrefix env r r.length with
  | some n => do
    let declared ← Access.slice r 0 n
    let fields ← Access.slice r n r.length
    return (declared, fields)
  | none => return (r, [])

/-- A prefix that is found is one of those that are tried. -/
theorem declaredPrefix_inBounds (env : Env) {r : Reference} {n : Nat} (hn : n ≤ r.length) :
    (declaredPrefix env r n).InBounds (pure (env.declaredPrefix r n))
      ∧ ∀ k, env.declaredPrefix r n = some k → k ≤ r.length := by
  induction n with
  | zero => exact ⟨rfl, nofun⟩
  | succ n ih =>
    obtain ⟨hbounds, hle⟩ := ih (Nat.le_of_succ_le hn)
    have hslice : Access.slice r 0 (n + 1) = pure (r.take (n + 1)) :=
      Access.slice_eq (Nat.zero_le _) hn
    rw [declaredPrefix, hslice, Env.declaredPrefix]
    by_cases hfound : (env.lookup (Reference.name (r.take (n + 1)))).isSome = true
    · rw [if_pos hfound]
      refine ⟨.read rfl ?_, fun k hk => ?_⟩
      · rw [if_pos hfound]
        rfl
      · cases hk
        exact hn
    · rw [if_neg hfound]
      refine ⟨.read rfl ?_, hle⟩
      rw [if_neg hfound]
      exact hbounds

/-- A reference is split in bounds. -/
theorem splitReference_inBounds (env : Env) (r : Reference) :
    (splitReference env r).InBounds (pure (env.splitReference r)) := by
  obtain ⟨hdeclared, hle⟩ := declaredPrefix_inBounds env (Nat.le_refl r.length)
  refine .read hdeclared ?_
  unfold Env.splitReference
  cases hfound : env.declaredPrefix r r.length with
  | none => rfl
  | some n =>
    have hn := hle n hfound
    exact .read (Access.slice_eq (Nat.zero_le n) hn) (.read (Access.slice_length hn) rfl)

/-- Selects fields one after the other, each with its subscripts. -/
def selectFields (fault : Fault) (s : Steps) (req : Request) : Reference → Value → EvalM Value
  | [], v => return v
  | part :: more, v => do
    let field ← v.project part.ident
    let picked ← applySubscripts fault s req part.subscripts field
    selectFields fault s req more picked

/-- The value of a reference; `ty` is the type it is annotated with. -/
def reference (fault : Fault) (s : Steps) (ev : Evaluator) (req : Request) (r : Reference)
    (ty : Ty) : EvalM Value := do
  EvalM.count fun c => { c with references := c.references + 1 }
  let (declared, fields) ← EvalM.ofAccess fault (splitReference req.env r)
  let v ← s.readVariable ev req (Reference.name declared) (if fields.isEmpty then ty else .unknown)
  let v ← applySubscripts fault s req (Reference.subscripts declared) v
  selectFields fault s req fields v

/-! ## Reductions -/

/-- The value of a reduction. -/
def reduction (fault : Fault) (s : Steps) (req : Request) (info : ReductionInfo) (body : Expr)
    (iterators : List Iterator) : EvalM Value := do
  let sequences ← iterators.mapM (s.sequence req)
  match ← EvalM.ofAccess fault (bindingTuples info.kind sequences) with
  | [] =>
    match info.default with
    | some default => s.eval req default
    | none => return .fail
  | tuples@(first :: others) =>
    match Gathering.ofName info.path.last with
    | .fold => do
      let acc ← s.bodyValue req iterators body first
      others.foldlM
        (fun acc tuple => do s.foldStep req info acc (← s.bodyValue req iterators body tuple)) acc
    | gathering => do
      let values ← tuples.mapM (s.bodyValue req iterators body)
      let shape :=
        match info.kind with
        | .combine => (sequences.map List.length).reverse
        | .thread => [tuples.length]
      return gathering.gather values shape

/-! ## Functions of expressions -/

/-- A function that is given its arguments as expressions. -/
abbrev Form := Evaluator → Steps → Request → List Expr → EvalM Value

/-- A quotient of two numbers. The operands are read for the report of a divisor that is zero. -/
def quotient (fault : Fault) (name : String) (zero : String → String → Cause)
    (divide : Value → Value → Outcome Value) : Form := fun _ s req args => do
  Builtin.takes name 2 args
  match ← s.evalAll req args with
  | [a, b] =>
    if b.isZero then do
      let x ← EvalM.ofAccess fault (Access.item args 0)
      let y ← EvalM.ofAccess fault (Access.item args 1)
      EvalM.fail (zero x.text y.text)
    else EvalM.ofOutcome (divide a b)
  | _ => EvalM.fail (.internal ("`" ++ name ++ "` takes 2 arguments"))

/-- A function of the argument at an offset, where there have to be so many arguments. -/
def argument (fault : Fault) (name : String) (least most i : Nat)
    (rule : Evaluator → Steps → Request → Expr → EvalM Value) : Form :=
  fun ev s req args => do
    Builtin.takesBetween name least most args
    let e ← EvalM.ofAccess fault (Access.item args i)
    rule ev s req e

/-- The sizes of its argument, or one of them. -/
def sizeCall (fault : Fault) : Form := fun _ s req args => do
  Builtin.takesBetween "size" 1 2 args
  let e ← EvalM.ofAccess fault (Access.item args 0)
  s.size req e args[1]?

/-- Prints the value of an expression. -/
def printed (s : Steps) (req : Request) (e : Expr) : EvalM Value := do
  match (← s.eval req e).unboxed with
  | .string text =>
    EvalM.modifyLog (·.print text)
    return .noReturn
  | other => EvalM.fail (other.mismatch "print" "String")

/-- The functions of expressions that read their arguments at offsets, by name. -/
def forms (fault : Fault) : List (String × Form) := [
  ("div", quotient fault "div" .divisionByZero Builtin.integerDivide),
  ("mod", quotient fault "mod" .moduloByZero Builtin.modulo),
  ("ndims", argument fault "ndims" 1 1 0 fun _ s => s.rank),
  ("noEvent", argument fault "noEvent" 1 1 0 fun _ s => s.eval),
  ("print", argument fault "print" 1 1 0 fun _ s => printed s),
  ("rem", quotient fault "rem" .moduloByZero Builtin.remainder),
  ("simplify", argument fault "simplify" 1 2 0 fun ev s req e => s.eval req (ev.simplify e)),
  ("size", sizeCall fault),
  ("smooth", argument fault "smooth" 2 2 1 fun _ s => s.eval)]

/-! ## Functions of values -/

/-- The functions of values that read them at offsets, by name. -/
def functions : List (String × Function) := [
  ("cat", cat),
  ("cross", cross),
  ("diagonal", diagonal),
  ("matrix", matrixOf),
  ("skew", skew),
  ("symmetric", symmetric),
  ("transpose", transpose)]

/-- The external functions that read texts at offsets, by external name. -/
def scanners : List (String × Function) := [
  ("ModelicaStrings_substring", External.substring),
  ("ModelicaStrings_skipWhiteSpace", External.skipWhiteSpace),
  ("ModelicaStrings_scanInteger", External.scanInteger),
  ("ModelicaStrings_scanReal", External.scanReal)]

/-- The meaning of an external name. -/
def external? (name : String) : Option Function :=
  match scanners.lookup name with
  | some f => some f
  | none => (Builtin.External.table.lookup name).map fun f args => Access.of (f args)

/-- The meaning of the function at a path, if it is external with a known name. -/
def function? (env : Env) (path : Path) : Option Function :=
  match env.lookupClass path with
  | some (.function f) => f.external?.bind fun external => external? external.name
  | _ => none

/-! ## Calls -/

/-- Applies the rule of the built-in function with a name. -/
def applyRule (fault : Fault) (s : Steps) (ev : Evaluator) (req : Request) (name : String)
    (args : List Expr) (r : Builtin.Rule) : EvalM Value :=
  match functions.lookup name, (forms fault).lookup name with
  | some f, _ => do
    let values ← s.evalAll req args
    EvalM.ofAccess fault (f values)
  | none, some f => f ev s req args
  | none, none => s.applyRule ev req args r

/-- A call of a built-in function. -/
def callBuiltin (fault : Fault) (s : Steps) (ev : Evaluator) (req : Request) (name : String)
    (args : List Expr) (r : Builtin.Rule) : EvalM Value := do
  EvalM.count fun c => { c with builtinCalls := c.builtinCalls + 1 }
  applyRule fault s ev req name args r

/-- The outcome of an external function as a value of its own. -/
def answer (fault : Fault) (x : Access Value) : EvalM (Outcome Value) :=
  match x.run with
  | some o => return o
  | none => fault (Outcome Value)

/-- A call of a function of the model. -/
def callFunction (fault : Fault) (s : Steps) (ev : Evaluator) (req : Request) (call : Expr)
    (path : Path) (args : List Expr) : EvalM Value := do
  let values ← s.arguments req args
  match function? req.env path with
  | none => s.delegate ev req call values
  | some f =>
    EvalM.count fun c => { c with builtinCalls := c.builtinCalls + 1 }
    match ← answer fault (f values) with
    | .ok v => return v
    | .error known =>
      match ← (s.delegate ev req call values).attempt with
      | .ok v => return v
      | .error f =>
        if f.cause.isFatal then EvalM.throw f else EvalM.throw (EvalM.moreTelling known f)

/-- A call. `call` is the call itself as an expression. -/
def call (fault : Fault) (s : Steps) (ev : Evaluator) (req : Request) (call : Expr) (path : Path)
    (args : List Expr) (builtin impure : Bool) : EvalM Value :=
  match Steps.smoothZero? path args builtin with
  | some e => s.eval req e
  | none =>
    EvalM.firstMatch [
      if builtin then
        (Builtin.rule? path.last ev.config.flags.metamodelica).map
          (callBuiltin fault s ev req path.last args)
      else none,
      if builtin || impure then none else some (callFunction fault s ev req call path args),
      if impure then some (EvalM.fail .notConstant) else none]

/-! ## Steps -/

/-- The value of an expression by the rule for its form. -/
def rule (fault : Fault) (s : Steps) (ev : Evaluator) (req : Request) (e : Expr) : EvalM Value :=
  match e with
  | .matrix _ rows => matrix fault s req rows
  | .range ty start step stop => range fault s req ty start step stop
  | .reference parts ty => reference fault s ev req parts ty
  | .binary lhs op rhs => operation fault s req lhs op rhs
  | .call path args _ builtin impure => call fault s ev req e path args builtin impure
  | .subscripted operand subscripts => do
    let v ← s.eval req operand
    applySubscripts fault s req subscripts v
  | .reduction info body iterators => reduction fault s req info body iterators
  | _ => s.rule ev req e

/-- The steps with a number of levels left. -/
def steps (fault : Fault) (ev : Evaluator) : Nat → Steps
  | 0 => ⟨fun _ _ _ => ev.refuse, fun _ _ => ev.refuse⟩
  | n + 1 =>
    { evalAfter := fun k req e =>
        match k with
        | 0 => do
          EvalM.count fun c => { c with expressions := c.expressions + 1 }
          rule fault (steps fault ev n) ev req e
        | k + 1 => (steps fault ev n).evalAfter k req e
      splice := fun req code => (steps fault ev n).spliceParts ev req code }

/-- The steps at the start of an evaluation. -/
def start (fault : Fault) (ev : Evaluator) : Steps := steps fault ev (ev.config.recursionLimit + 1)

/-- Asks an evaluator. -/
def run (fault : Fault) (ev : Evaluator) : (entry : Entry) → EvalM entry.Result
  | .expression req e => ((start fault ev).eval req e).reporting req.reporting
  | .expressions req es => es.mapM fun e => ((start fault ev).eval req e).reporting req.reporting
  | .reference req parts =>
    (reference fault (start fault ev) ev req parts .unknown).reporting req.reporting
  | .dimension req d =>
    EvalM.reporting req.reporting do
      let n ← (start fault ev).dimension req d
      EvalM.ofOutcome (inRange "dimension size" n)
  | .quoted req code => ((start fault ev).splice req code).reporting req.reporting

end ModelicaFold.Direct
