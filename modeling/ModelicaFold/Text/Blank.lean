import ModelicaFold.Text.Ranges

/-!
# Blanks

A blank is a character with the Unicode property White_Space. Numbers are read and strings are
scanned with blanks skipped in this sense.
-/

namespace ModelicaFold.Text

/-- The code points of the Unicode property White_Space. -/
def blankRanges : List (Nat × Nat) := [
  (0x9, 0xD), (0x20, 0x20), (0x85, 0x85), (0xA0, 0xA0), (0x1680, 0x1680), (0x2000, 0x200A),
  (0x2028, 0x2029), (0x202F, 0x202F), (0x205F, 0x205F), (0x3000, 0x3000)]

/-- Whether `c` is a blank. -/
def isBlank (c : Char) : Bool :=
  inRanges blankRanges c

/-- The text without the blanks at either end. -/
def trim (cs : List Char) : List Char :=
  (((cs.dropWhile isBlank).reverse).dropWhile isBlank).reverse

end ModelicaFold.Text
