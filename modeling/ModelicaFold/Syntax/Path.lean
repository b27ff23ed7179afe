import ModelicaFold.Text.Split

/-!
# Qualified names

A path is a dotted name such as `Modelica.Math.sin`; it has at least one segment. Reading drops
empty segments, and a text without any other is the path of one empty identifier.
-/

namespace ModelicaFold

/-- A qualified name: its first segment and the segments after it. -/
structure Path where
  first : String
  rest : List String
deriving DecidableEq

namespace Path

/-- The path of a single identifier. -/
def ident (name : String) : Path := ⟨name, []⟩

/-- The path of some segments; without any, the empty identifier. -/
def ofSegments : List String → Path
  | [] => ident ""
  | first :: rest => ⟨first, rest⟩

/-- Reads a dotted text, dropping empty segments. -/
def parse (dotted : String) : Path :=
  ofSegments ((Text.pieces '.' dotted).filter (· ≠ ""))

def segments (p : Path) : List String := p.first :: p.rest

/-- The last identifier: `sin` of `Modelica.Math.sin`. -/
def last (p : Path) : String :=
  p.rest.getLastD p.first

/-- Whether the path is a single identifier. -/
def isIdent (p : Path) : Bool := p.rest.isEmpty

/-- The path of `name` inside `p`. -/
def join (p : Path) (name : String) : Path := ⟨p.first, p.rest ++ [name]⟩

/-- Everything but the last identifier; a single identifier has no parent. -/
def parent? (p : Path) : Option Path :=
  if p.isIdent then none else some ⟨p.first, p.rest.dropLast⟩

/-- The dotted text of a path. -/
def text (p : Path) : String := ".".intercalate p.segments

end Path

end ModelicaFold
