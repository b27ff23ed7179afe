import ModelicaFold.Decimal.Binary

/-!
# The fewest digits that read back

`shortest` gives the decimal with the fewest digits among those that a reader rounds back to a
given double: grids of one, two, … digits are tried in turn, and on each only the two neighbours of
the exact value can lie in the interval that rounds to it. Of two the nearer is taken, and of two
equally near the upper one.
-/

namespace ModelicaFold.Decimal

/-- A positive decimal, `digits` · 10^`exponent`. -/
structure Numeral where
  digits : Nat
  exponent : Int
deriving DecidableEq

/-- The number of decimal digits of a natural; zero has one. -/
def digitCount (n : Nat) : Nat :=
  (Nat.toDigits 10 n).length

/-- The exponent of the first digit: the decimal is written `d.ddd` · 10^`leading`. -/
def Numeral.leading (d : Numeral) : Int :=
  d.exponent + (digitCount d.digits : Int) - 1

/-- The same value without trailing zeros; `fuel` bounds how many are dropped. -/
def Numeral.dropZeros : Nat → Numeral → Numeral
  | 0, d => d
  | fuel + 1, d =>
    if d.digits % 10 = 0 && d.digits ≠ 0 then dropZeros fuel ⟨d.digits / 10, d.exponent + 1⟩ else d

/-- The same value without trailing zeros. -/
def Numeral.trimmed (d : Numeral) : Numeral :=
  d.dropZeros (digitCount d.digits)

/-- The power of ten `10 ^ e` as a quotient of naturals. -/
def powerOfTen (e : Int) : Nat × Nat :=
  if 0 ≤ e then (Nat.pow 10 e.toNat, 1) else (1, Nat.pow 10 (-e).toNat)

/-- The exponent of the first decimal digit of `num / den`, both positive. -/
def leadingExponent (num den : Nat) : Int :=
  let guess : Int := (digitCount num : Int) - digitCount den
  let (p, q) := powerOfTen guess
  if den * p ≤ num * q then guess else guess - 1

/-- A positive value with the closed or open interval of values that round to it, all over one
denominator. -/
structure Interval where
  low : Nat
  value : Nat
  high : Nat
  den : Nat
  closed : Bool

/-- The values that round to a double: up to half-way to its neighbours, the ends included when the
significand is even. Below a power of two the neighbour is half as far. -/
def Binary.interval (b : Binary) : Interval :=
  let (p, q) := powerOfTwo (b.exponent - 2)
  let narrow := b.significand == hiddenBit && minExponent < b.exponent
  { low := (4 * b.significand - (if narrow then 1 else 2)) * p
    value := 4 * b.significand * p
    high := (4 * b.significand + 2) * p
    den := q
    closed := b.significand % 2 == 0 }

/-- Whether `num / den` lies in the interval. -/
def Interval.holds (i : Interval) (num den : Nat) : Bool :=
  if i.closed then i.low * den ≤ num * i.den && num * i.den ≤ i.high * den
  else i.low * den < num * i.den && num * i.den < i.high * den

/-- The point of the grid of multiples of 10^`grid` that reads back, if there is one. -/
def Interval.onGrid (i : Interval) (grid : Int) : Option Numeral :=
  let (p, q) := powerOfTen grid
  let below := i.value * q / (i.den * p)
  let rest := i.value * q % (i.den * p)
  let lower := below ≠ 0 && i.holds (below * p) q
  let upper := i.holds ((below + 1) * p) q
  if lower && (!upper || 2 * rest < i.den * p) then some ⟨below, grid⟩
  else if upper then some ⟨below + 1, grid⟩
  else none

/-- The fewest digits of a positive value that read back; seventeen always do. -/
def Interval.fewest (i : Interval) : Numeral :=
  let leading := leadingExponent i.value i.den
  ((List.range 17).findSome? fun (n : Nat) => i.onGrid (leading - n)).getD
    ⟨i.value / i.den, 0⟩

/-- The shortest decimal that reads back as a positive double. -/
def Binary.shortest (b : Binary) : Numeral :=
  b.interval.fewest.trimmed

end ModelicaFold.Decimal
