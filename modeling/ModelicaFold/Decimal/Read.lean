import ModelicaFold.Decimal.Binary

/-!
# Numbers read from text

The grammar of written numbers: an Integer is an optional sign and ASCII digits; a Real is an
optional sign and a decimal with an optional exponent, or one of the names of infinity and of the
value that is not a number, in any case. A decimal reads as the double nearest to it.
-/

namespace ModelicaFold.Decimal

/-- Whether a character is one of the ten ASCII digits. -/
def isDigit (c : Char) : Bool :=
  '0' ≤ c && c ≤ '9'

/-- The value of one digit. -/
def digitValue (c : Char) : Nat :=
  c.toNat - '0'.toNat

/-- The value of a sequence of digits. -/
def digitsValue (cs : List Char) : Nat :=
  cs.foldl (fun n c => 10 * n + digitValue c) 0

/-- The natural that a non-empty sequence of digits denotes. -/
def natural? (cs : List Char) : Option Nat :=
  if cs.isEmpty || !cs.all isDigit then none else some (digitsValue cs)

/-- Whether a text starts with a minus sign, and the text after an optional sign. -/
def unsign : List Char → Bool × List Char
  | '-' :: cs => (true, cs)
  | '+' :: cs => (false, cs)
  | cs => (false, cs)

/-- The integer that an optional sign and digits denote. -/
def integer? (cs : List Char) : Option Int :=
  let (negative, digits) := unsign cs
  (natural? digits).map fun n => if negative then -(n : Int) else n

/-- The number that digits with an optional plus sign denote. -/
def count? : List Char → Option Nat
  | '+' :: cs => natural? cs
  | cs => natural? cs

/-- A decimal of more than this many places before or after the point is beyond every double. -/
def exponentBound : Int := 400

/-- The double nearest to ± `digits` · 10^`exponent`; `width` is the number of digits written. -/
def ofScientific (negative : Bool) (digits width : Nat) (exponent : Int) : Float :=
  if digits = 0 || exponent < -(width : Int) - exponentBound then ofPattern negative 0
  else if exponentBound < exponent then ofPattern negative infinityPattern
  else if 0 ≤ exponent then ofRatio negative (digits * Nat.pow 10 exponent.toNat) 1
  else ofRatio negative digits (Nat.pow 10 (-exponent).toNat)

/-- The exponent part of a number: `e` or `E` and an integer, or nothing. -/
def exponent? : List Char → Option Int
  | [] => some 0
  | c :: cs => if c = 'e' || c = 'E' then integer? cs else none

/-- The magnitude of a decimal number: digits, a point and digits, with at least one digit, and an
exponent. -/
def decimal? (negative : Bool) (cs : List Char) : Option Float :=
  let whole := cs.takeWhile isDigit
  let rest := cs.dropWhile isDigit
  let (fraction, tail) :=
    match rest with
    | '.' :: more => (more.takeWhile isDigit, more.dropWhile isDigit)
    | other => ([], other)
  let digits := whole ++ fraction
  if digits.isEmpty then none
  else
    (exponent? tail).map fun e =>
      ofScientific negative (digitsValue digits) digits.length (e - fraction.length)

/-- The real that a text denotes. -/
def real? (cs : List Char) : Option Float :=
  let (negative, body) := unsign cs
  let name := String.ofList (body.map Char.toLower)
  if name = "inf" || name = "infinity" then some (ofPattern negative infinityPattern)
  else if name = "nan" then some (0.0 / 0.0)
  else decimal? negative body

end ModelicaFold.Decimal
