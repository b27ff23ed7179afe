/-!
# Double-precision numbers as exact values

A finite double is ± significand · 2^exponent. `decode` takes a double apart, `ofRatio` finds the
double nearest to a quotient of naturals, a tie going to the even significand; both compute on
naturals, so that printing, reading and remainders of reals are exact.
-/

namespace ModelicaFold.Decimal

/-- The exact value of a finite double, ± `significand` · 2^`exponent`. -/
structure Binary where
  negative : Bool
  significand : Nat
  exponent : Int
deriving DecidableEq

/-- What a double denotes. -/
inductive Denotation where
  | notANumber
  | infinite (negative : Bool)
  | finite (value : Binary)
deriving DecidableEq

/-- The exponent of the smallest positive double. -/
def minExponent : Int := -1074

/-- The smallest significand of a normal double, 2^52. A pattern consists of the biased exponent,
times this number, and the fraction. -/
def hiddenBit : Nat := 4503599627370496

/-- The weight of the sign in a pattern, 2^63. -/
def signBit : Nat := 9223372036854775808

/-- The bit patterns from here on, sign apart, are no finite doubles. -/
def infinityPattern : Nat := 0x7FF * hiddenBit

/-- What a 64-bit pattern denotes. -/
def decodeBits (pattern : Nat) : Denotation :=
  let negative := signBit ≤ pattern
  let body := pattern % signBit
  let fraction := body % hiddenBit
  let biased := body / hiddenBit
  if infinityPattern ≤ body then
    if fraction = 0 then .infinite negative else .notANumber
  else if biased = 0 then .finite ⟨negative, fraction, minExponent⟩
  else .finite ⟨negative, hiddenBit + fraction, minExponent + (biased - 1 : Nat)⟩

/-- What a double denotes. -/
def decode (x : Float) : Denotation :=
  decodeBits x.toBits.toNat

/-- The power of two `2 ^ e` as a quotient of naturals. -/
def powerOfTwo (e : Int) : Nat × Nat :=
  if 0 ≤ e then (Nat.pow 2 e.toNat, 1) else (1, Nat.pow 2 (-e).toNat)

/-- The quotient `num / den` rounded to a natural, a tie going to the even neighbour. -/
def roundHalfEven (num den : Nat) : Nat :=
  let q := num / den
  let r := num % den
  if den < 2 * r || (2 * r == den && q % 2 == 1) then q + 1 else q

/-- The pattern, sign apart, of the double nearest to `num / den`, both positive. -/
def nearestPattern (num den : Nat) : Nat :=
  let low : Int := (num.log2 : Int) - den.log2 - 53
  let (p, q) := powerOfTwo low
  let fitted := if 2 * hiddenBit * (den * p) ≤ num * q then low + 1 else low
  let exponent := max fitted minExponent
  let (p, q) := powerOfTwo exponent
  let significand := roundHalfEven (num * q) (den * p)
  let pattern :=
    if significand < hiddenBit then significand
    else (exponent - minExponent + 1).toNat * hiddenBit + (significand - hiddenBit)
  min pattern infinityPattern

/-- The double with a given sign and the pattern of its magnitude. -/
def ofPattern (negative : Bool) (pattern : Nat) : Float :=
  Float.ofBits ((if negative then signBit else 0) + pattern).toUInt64

/-- The double nearest to ± `num / den`; a quotient beyond the largest double is infinite. -/
def ofRatio (negative : Bool) (num den : Nat) : Float :=
  ofPattern negative (if num = 0 then 0 else nearestPattern num den)

/-- The remainder of two reals that has the sign of the first: `x` less the multiple of `y` nearest
to it on the side of zero. It is exact. -/
def remainder (x y : Float) : Float :=
  match decode x, decode y with
  | .finite a, .finite b =>
    if b.significand = 0 then 0.0 / 0.0
    else
      let e := min a.exponent b.exponent
      let scaled (v : Binary) : Nat := v.significand * Nat.pow 2 (v.exponent - e).toNat
      let rest := scaled a % scaled b
      let (p, q) := powerOfTwo e
      ofRatio a.negative (rest * p) q
  | .finite _, .infinite _ => x
  | _, _ => 0.0 / 0.0

/-- The real without its fraction. -/
def truncate (x : Float) : Float :=
  if x < 0.0 then x.ceil else x.floor

end ModelicaFold.Decimal
