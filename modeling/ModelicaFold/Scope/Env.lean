import ModelicaFold.Scope.Declaration

/-!
# Environments

An environment is a chain of frames, the innermost first. Pushing a frame leaves the frames below
as they are. A lookup finds the innermost declaration of an exact name and also gives the
environment that this declaration sees, in which its binding is evaluated.
-/

namespace ModelicaFold

inductive ScopeKind where
  | classScope
  | functionScope
  /-- The scope of the iterators of a reduction. -/
  | iteratorScope
deriving DecidableEq

/-- One scope. A later entry for a name stands before an earlier one and hides it. -/
structure Frame where
  name : String
  kind : ScopeKind
  vars : List (String × Variable)
  classes : List (String × ClassDef)

def Frame.empty (name : String) (kind : ScopeKind) : Frame := ⟨name, kind, [], []⟩

/-- A chain of scopes, never empty. -/
structure Env where
  innermost : Frame
  outer : List Frame

/-- A variable, the name of the scope that declares it, whether that is a scope of iterators, and
the environment the declaration sees. -/
structure Found where
  declared : Variable
  scope : String
  isIterator : Bool
  env : Env

namespace Env

/-- The environment with one empty top-level scope. -/
def empty : Env := ⟨.empty "" .classScope, []⟩

/-- A new innermost scope. -/
def push (env : Env) (name : String) (kind : ScopeKind) : Env :=
  ⟨.empty name kind, env.innermost :: env.outer⟩

/-- Declares a variable in the innermost scope. -/
def define (env : Env) (name : String) (v : Variable) : Env :=
  { env with innermost := { env.innermost with vars := (name, v) :: env.innermost.vars } }

/-- Declares a class in the innermost scope, under its full name. -/
def defineClass (env : Env) (c : ClassDef) : Env :=
  { env with
    innermost := { env.innermost with classes := (c.path.text, c) :: env.innermost.classes } }

/-- The innermost declaration of a variable among a frame and the frames outside it. -/
def findVariable (name : String) (frame : Frame) : List Frame → Option Found
  | [] =>
    (frame.vars.lookup name).map fun v =>
      ⟨v, frame.name, frame.kind == .iteratorScope, ⟨frame, []⟩⟩
  | next :: more =>
    match frame.vars.lookup name with
    | some v => some ⟨v, frame.name, frame.kind == .iteratorScope, ⟨frame, next :: more⟩⟩
    | none => findVariable name next more

/-- The innermost declaration of a variable. -/
def lookup (env : Env) (name : String) : Option Found :=
  findVariable name env.innermost env.outer

/-- The innermost declaration of a class. -/
def lookupClass (env : Env) (path : Path) : Option ClassDef :=
  let name := path.text
  (env.innermost :: env.outer).findSome? fun frame => frame.classes.lookup name

/-- Whether the innermost scope is one of iterators. -/
def inIteratorScope (env : Env) : Bool := env.innermost.kind == .iteratorScope

/-- The name of the innermost scope. -/
def scopeName (env : Env) : String := env.innermost.name

end Env

end ModelicaFold
