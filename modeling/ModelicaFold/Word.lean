/-!
# Machine words

Integers are signed words of 64 bits; limits, counts and sizes are unsigned ones. The program
computes with unbounded numbers and compares with these bounds where a word would overflow. Only
sums and products of sizes, and the elements of an Integer range, are taken modulo the number of
words.
-/

namespace ModelicaFold

/-- The number of words of 64 bits, 2^64. -/
def wordCount : Nat := 18446744073709551616

/-- The smallest Integer, -2^63. -/
def minInteger : Int := -9223372036854775808

/-- The largest Integer, 2^63 - 1. -/
def maxInteger : Int := 9223372036854775807

/-- A number that is an Integer. -/
def IsWord (n : Int) : Prop := minInteger ≤ n ∧ n ≤ maxInteger

instance (n : Int) : Decidable (IsWord n) := inferInstanceAs (Decidable (_ ∧ _))

/-- The Integer that is equal to `x` modulo the number of words. -/
def wrapInteger (x : Int) : Int :=
  if minInteger ≤ x ∧ x ≤ maxInteger then x else x.bmod wordCount

/-- A word is not changed by wrapping. -/
theorem wrapInteger_of_mem {x : Int} (h : minInteger ≤ x ∧ x ≤ maxInteger) :
    wrapInteger x = x :=
  if_pos h

/-- Wrapping takes the balanced remainder modulo the number of words. -/
theorem wrapInteger_eq_bmod (x : Int) : wrapInteger x = x.bmod wordCount := by
  unfold wrapInteger
  split
  · next h =>
    simp only [minInteger, maxInteger] at h
    symm
    apply Int.bmod_eq_of_le
    · simp only [wordCount]; omega
    · simp only [wordCount]; omega
  · rfl

/-- The sum of sizes, modulo the number of words. -/
def sizeSum (sizes : List Nat) : Nat :=
  sizes.foldr (· + ·) 0 % wordCount

/-- The number of leaves of an array of the given sizes, modulo the number of words. -/
def sizeProduct (sizes : List Nat) : Nat :=
  sizes.foldr (· * ·) 1 % wordCount

/-- The product of sizes that fits into a word is exact. -/
theorem sizeProduct_of_lt {sizes : List Nat} (h : sizes.foldr (· * ·) 1 < wordCount) :
    sizeProduct sizes = sizes.foldr (· * ·) 1 :=
  Nat.mod_eq_of_lt h

end ModelicaFold
