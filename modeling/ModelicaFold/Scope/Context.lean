import ModelicaFold.Scope.Declaration

/-!
# The evaluation context

The context remembers the value of every binding that has been evaluated, under the name of its
scope and its own, and holds the functions a call may reach. What is remembered first stays.
-/

namespace ModelicaFold

/-- The functions available to calls, by their full names. -/
structure FunctionTable where
  entries : List (String × FunctionClass)

namespace FunctionTable

def empty : FunctionTable := ⟨[]⟩

/-- Adds a function; one of the same name is replaced. -/
def insert (t : FunctionTable) (f : FunctionClass) : FunctionTable :=
  ⟨(f.path.text, f) :: t.entries.filter (·.1 ≠ f.path.text)⟩

def get? (t : FunctionTable) (path : Path) : Option FunctionClass :=
  t.entries.lookup path.text

def size (t : FunctionTable) : Nat := t.entries.length

end FunctionTable

/-- The values remembered so far and the functions. -/
structure Context where
  constants : List (String × Value)
  functions : FunctionTable

namespace Context

def empty : Context := ⟨[], .empty⟩

/-- A context that remembers nothing yet. -/
def ofFunctions (functions : FunctionTable) : Context := ⟨[], functions⟩

/-- The name under which the value of a variable is remembered. -/
def key (scope name : String) : String :=
  if scope = "" then name else scope ++ "." ++ name

def constant? (c : Context) (key : String) : Option Value := c.constants.lookup key

/-- Remembers a value, unless there is one under this name already. -/
def remember (c : Context) (key : String) (v : Value) : Context :=
  match c.constant? key with
  | some _ => c
  | none => { c with constants := (key, v) :: c.constants }

/-- The number of remembered values. -/
def constantCount (c : Context) : Nat := c.constants.length

def addFunction (c : Context) (f : FunctionClass) : Context :=
  { c with functions := c.functions.insert f }

/-- What has been remembered stays as it is. -/
theorem constant?_remember_of_some {c : Context} {k key : String} {v w : Value}
    (h : c.constant? k = some w) : (c.remember key v).constant? k = some w := by
  unfold remember
  split
  · exact h
  · rename_i hkey
    simp only [constant?, List.lookup_cons]
    by_cases hk : k = key
    · subst hk
      rw [h] at hkey
      cases hkey
    · have : (k == key) = false := by simpa using hk
      rw [this]
      exact h

end Context

end ModelicaFold
