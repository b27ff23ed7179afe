/-!
# Character properties given by ranges

A property of characters that a standard fixes is a table of code point ranges, first and last
code point included.
-/

namespace ModelicaFold.Text

/-- Whether the code point of `c` lies in one of the ranges. -/
def inRanges (table : List (Nat × Nat)) (c : Char) : Bool :=
  table.any fun (first, last) => first ≤ c.toNat && c.toNat ≤ last

end ModelicaFold.Text
