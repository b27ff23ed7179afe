import ModelicaFold.Decimal.Shortest

/-!
# Written reals

Three ways to write a real. `literal` is the form of literals: the shortest digits that read back,
positional from 10^-4 up to 10^16 and then always with a fraction. `plain` is the form inside
messages: the same digits, always positional. `significant` rounds to a number of significant
digits and is the form of string conversion.
-/

namespace ModelicaFold.Decimal

/-- Decisions about the form of a number: which leading exponents are written positionally, and
whether a whole number keeps a fraction digit. -/
structure Style where
  positional : Int → Bool
  wholeFraction : Bool

/-- Literals are positional from 10^-4 up to 10^16 and keep a fraction. -/
def literalStyle : Style := ⟨fun e => -4 ≤ e && e < 16, true⟩

/-- Messages never use an exponent and write whole numbers without a fraction. -/
def plainStyle : Style := ⟨fun _ => true, false⟩

/-- The digits of a natural. -/
def digitsOf (n : Nat) : List Char :=
  Nat.toDigits 10 n

/-- A decimal in positional notation. -/
def Numeral.positional (d : Numeral) (wholeFraction : Bool) : List Char :=
  let digits := digitsOf d.digits
  if 0 ≤ d.exponent then
    digits ++ List.replicate d.exponent.toNat '0' ++ (if wholeFraction then ['.', '0'] else [])
  else
    let places := (-d.exponent).toNat
    let padded := List.replicate (places + 1 - digits.length) '0' ++ digits
    let whole := padded.length - places
    padded.take whole ++ '.' :: padded.drop whole

/-- The digits of a decimal with a point after the first one. -/
def Numeral.mantissa (d : Numeral) : List Char :=
  match digitsOf d.digits with
  | first :: second :: rest => first :: '.' :: second :: rest
  | digits => digits

/-- An exponent without padding and without a plus sign. -/
def shortExponent (e : Int) : List Char :=
  'e' :: (if e < 0 then ['-'] else []) ++ digitsOf e.natAbs

/-- An exponent with a sign and at least two digits. -/
def paddedExponent (e : Int) : List Char :=
  let digits := digitsOf e.natAbs
  'e' :: (if e < 0 then '-' else '+') :: List.replicate (2 - digits.length) '0' ++ digits

/-- A positive decimal in a style. -/
def Style.write (style : Style) (d : Numeral) : List Char :=
  if style.positional d.leading then d.positional style.wholeFraction
  else d.mantissa ++ shortExponent d.leading

/-- A real in a style: its shortest digits, or a name. -/
def Style.real (style : Style) (x : Float) : String :=
  match decode x with
  | .notANumber => "NaN"
  | .infinite negative => if negative then "-inf" else "inf"
  | .finite b =>
    let magnitude :=
      if b.significand = 0 then Numeral.positional ⟨0, 0⟩ style.wholeFraction
      else style.write b.shortest
    String.ofList ((if b.negative then ['-'] else []) ++ magnitude)

/-- A real as a literal, which always reads as a real: `1.0`, not `1`. -/
def literal (x : Float) : String :=
  literalStyle.real x

/-- A real inside a message. -/
def plain (x : Float) : String :=
  plainStyle.real x

/-! ## Significant digits -/

/-- More significant digits than any double has. -/
def allDigits : Nat := 800

/-- `num / den`, both positive, rounded to `count` significant digits, a tie going to the even
digit. -/
def rounded (num den count : Nat) : Numeral :=
  let grid := leadingExponent num den - count + 1
  let (p, q) := powerOfTen grid
  ⟨roundHalfEven (num * q) (den * p), grid⟩

/-- A real with at most `count` significant digits (at least one), trailing zeros dropped; with an
exponent if its leading exponent is below -4 or not below `count`. -/
def significant (x : Float) (count : Nat) : String :=
  match decode x with
  | .notANumber => "NaN"
  | .infinite negative => if negative then "-inf" else "inf"
  | .finite b =>
    if b.significand = 0 then "0"
    else
      let (p, q) := powerOfTwo b.exponent
      let d := (rounded (b.significand * p) q (min (max count 1) allDigits)).trimmed
      let magnitude :=
        if d.leading < -4 || (max count 1 : Nat) ≤ d.leading then
          d.mantissa ++ paddedExponent d.leading
        else d.positional false
      String.ofList ((if b.negative then ['-'] else []) ++ magnitude)

end ModelicaFold.Decimal
