import ModelicaFold.Value.Index

/-!
# Arguments of built-in functions

A built-in function counts its arguments first and then reads each with boxes stripped. A wrong
number or kind of arguments should have been ruled out before and is an internal failure.
-/

namespace ModelicaFold.Builtin

/-- A function of evaluated arguments. -/
abbrev Function := List Value → Outcome Value

/-- Refuses any number of arguments but those from `least` to `most`. -/
def takesBetween {α : Type} (name : String) (least most : Nat) (args : List α) : Outcome Unit :=
  if least ≤ args.length ∧ args.length ≤ most then .ok ()
  else if least = most then
    (Cause.internal
      ("`" ++ name ++ "` takes " ++ toString least ++ " argument(s), got "
        ++ toString args.length)).fail
  else
    (Cause.internal
      ("`" ++ name ++ "` takes " ++ toString least ++ " to " ++ toString most
        ++ " arguments, got " ++ toString args.length)).fail

/-- Refuses any number of arguments but `n`. -/
def takes {α : Type} (name : String) (n : Nat) (args : List α) : Outcome Unit :=
  takesBetween name n n args

/-- How an argument is called in messages; arguments are counted from one there. -/
def ordinal (name : String) (i : Nat) : String :=
  "argument " ++ toString (i + 1) ++ " of `" ++ name ++ "`"

/-- The argument at offset `i`, with any box stripped. -/
def arg (name : String) (args : List Value) (i : Nat) : Outcome Value :=
  match args[i]? with
  | some v => .ok v.unboxed
  | none => (Cause.internal ("`" ++ name ++ "` is missing " ++ ordinal name i)).fail

/-- The argument at offset `i` as what `read?` reads. -/
def readArg {α : Type} (read? : Value → Option α) (want name : String) (args : List Value)
    (i : Nat) : Outcome α := do
  let v ← arg name args i
  match read? v with
  | some a => return a
  | none => Value.refuse (ordinal name i) want v

def integerArg (name : String) (args : List Value) (i : Nat) : Outcome Int :=
  readArg Value.integer? "Integer" name args i

/-- A Real argument; an Integer is widened. -/
def realArg (name : String) (args : List Value) (i : Nat) : Outcome Float :=
  readArg Value.number? "Real" name args i

def boolArg (name : String) (args : List Value) (i : Nat) : Outcome Bool :=
  readArg Value.bool? "Boolean" name args i

def stringArg (name : String) (args : List Value) (i : Nat) : Outcome String :=
  readArg Value.string? "String" name args i

/-- The elements of an array or list argument. -/
def elementsArg (name : String) (args : List Value) (i : Nat) : Outcome (Array Value) :=
  readArg Value.elements? "array or list" name args i

/-- An Integer argument used as a size. -/
def sizeArg (name : String) (args : List Value) (i : Nat) : Outcome Nat := do
  let n ← integerArg name args i
  if n < 0 then
    (Cause.invalidArgument name ("size " ++ toString n ++ " must not be negative")).fail
  else return n.toNat

/-- An argument that may be left out. -/
def optionalArg {α : Type} (read : String → List Value → Nat → Outcome α) (default : α)
    (name : String) (args : List Value) (i : Nat) : Outcome α :=
  if i < args.length then read name args i else .ok default

end ModelicaFold.Builtin
