import ModelicaFold.Eval.Subscript
import ModelicaFold.Syntax.Print
import ModelicaFold.Syntax.Subterms

/-!
# References

A reference is resolved by its name without subscripts. If that name is not declared, the longest
declared prefix is read and the other identifiers select fields; the subscripts of an identifier
apply as soon as its value is known. A binding is evaluated in the environment its declaration
sees, and its value is remembered.
-/

namespace ModelicaFold

/-- The number of identifiers of the longest prefix that is declared, among prefixes of at most `n`
identifiers. -/
def Env.declaredPrefix (env : Env) (r : Reference) : Nat → Option Nat
  | 0 => none
  | n + 1 =>
    if (env.lookup (Reference.name (r.take (n + 1)))).isSome then some (n + 1)
    else env.declaredPrefix r n

/-- The declared part of a reference and the fields selected from it; without a declared prefix the
whole reference. -/
def Env.splitReference (env : Env) (r : Reference) : Reference × Reference :=
  match env.declaredPrefix r r.length with
  | some n => (r.take n, r.drop n)
  | none => (r, [])

/-- Whether a binding of some variability may be evaluated for a reference: constants and
parameters always, others in implicit mode and around iterators. -/
def Request.mayRead (req : Request) (found : Found) (v : Variability) : Bool :=
  v.isEvaluable || req.mode.readsVariables || found.isIterator || req.env.inIteratorScope

/-- The record class of a type, if all its fields have defaults. -/
def Env.defaultedRecord? (env : Env) (ty : Ty) : Option RecordClass :=
  match ty with
  | .record path =>
    match env.lookupClass path with
    | some (.record r) => if r.fields.all (·.default.isSome) then some r else none
    | _ => none
  | _ => none

namespace Steps

/-- The values of fields from their defaults, in an environment to which each is added. -/
def defaults (s : Steps) (req : Request) : Env → List FieldDecl → EvalM (List Value)
  | _, [] => return []
  | env, field :: more =>
    match field.default with
    | none => EvalM.fail .notConstant
    | some default => do
      let v ← s.evalInner (req.within env) default
      let vs ← s.defaults req (env.define field.name (.ofValue field.ty v)) more
      return v :: vs

/-- The record whose fields all have their defaults. -/
def defaultRecord (s : Steps) (req : Request) (r : RecordClass) : EvalM Value := do
  let fields ← s.defaults req (req.env.push r.path.text .classScope) r.fields
  return .record r.path fields (r.fields.map (·.name)) (-1)

/-- The value of a variable without a binding. -/
def unbound (s : Steps) (ev : Evaluator) (req : Request) (found : Found) (name : String)
    (ty : Ty) : EvalM Value :=
  let v := found.declared
  if !v.variability.isEvaluable && !req.mode.readsVariables then EvalM.fail .notConstant
  else
    match req.env.defaultedRecord? v.ty with
    | some r => s.defaultRecord req r
    | none =>
      let declared := if v.ty.isUnknown then ty else v.ty
      if ev.config.flags.deferUnbound && !declared.isUnknown then
        return .empty found.scope name declared
      else if req.mode.reportsUnbound then EvalM.fail (.unbound name)
      else EvalM.fail .notConstant

/-- The value of a binding expression, which is remembered unless it binds an iterator. A binding
in which the variable itself occurs has no value. -/
def force (s : Steps) (req : Request) (found : Found) (name : String) (e : Expr) :
    EvalM Value := do
  let key := Context.key found.scope name
  let ctx ← EvalM.getContext
  match if found.isIterator then none else ctx.constant? key with
  | some v => return v
  | none =>
    if e.refersTo name then EvalM.fail .notConstant
    else
      let v ← s.eval (req.within found.env) e
      if !found.isIterator then EvalM.modifyContext fun ctx => ctx.remember key v
      return v

/-- The value of the variable called `name`; `ty` is the type a reference to it is annotated
with. -/
def readVariable (s : Steps) (ev : Evaluator) (req : Request) (name : String) (ty : Ty) :
    EvalM Value :=
  match req.env.lookup name with
  | none => EvalM.fail .notConstant
  | some found =>
    match found.declared.binding with
    | .value v => return v
    | .unbound => s.unbound ev req found name ty
    | .expression e variability cached =>
      if !req.mayRead found variability then EvalM.fail .notConstant
      else
        match cached with
        | some v => return v
        | none => s.force req found name e

/-- Selects fields one after the other, each with its subscripts. -/
def selectFields (s : Steps) (req : Request) : Reference → Value → EvalM Value
  | [], v => return v
  | part :: more, v => do
    let field ← v.project part.ident
    let picked ← s.applySubscripts req part.subscripts field
    s.selectFields req more picked

/-- The value of a reference; `ty` is the type it is annotated with. -/
def reference (s : Steps) (ev : Evaluator) (req : Request) (r : Reference) (ty : Ty) :
    EvalM Value := do
  EvalM.count fun c => { c with references := c.references + 1 }
  let (declared, fields) := req.env.splitReference r
  let v ← s.readVariable ev req (Reference.name declared) (if fields.isEmpty then ty else .unknown)
  let v ← s.applySubscripts req (Reference.subscripts declared) v
  s.selectFields req fields v

end Steps

end ModelicaFold
