import ModelicaFold.Value.Arithmetic
import Mathlib.Data.Rat.Floor

/-!
# Operations on two Integers

A scalar operation on two Integers gives the number that it stands for over the unbounded integers,
or an overflow if that is no Integer (`integer_operations`). A quotient is the rational quotient
without its fraction. Powers depart from this for exponents from 2^32 on, which are refused for
every base: also for -1, 0 and 1, whose powers are all Integers. No other base has such a power.
-/

namespace ModelicaFold

/-! ## What the operations stand for -/

/-- A rational number without its fraction. -/
def truncated (q : ℚ) : Int := if 0 ≤ q then ⌊q⌋ else ⌈q⌉

/-- The number that an operation on two numbers stands for. The divisor is not zero, and the
exponent not negative. -/
def Arith.exact : Arith → Int → Int → Int
  | .add, a, b => a + b
  | .sub, a, b => a - b
  | .mul, a, b => a * b
  | .div, a, b => truncated (a / b)
  | .pow, a, b => a ^ b.toNat

/-- Truncation commutes with the sign. -/
theorem truncated_neg (q : ℚ) : truncated (-q) = -truncated q := by
  unfold truncated
  rcases lt_trichotomy q 0 with h | rfl | h
  · rw [if_pos (by linarith), if_neg (by linarith), Int.floor_neg]
  · simp
  · rw [if_neg (by linarith), if_pos (by linarith), Int.ceil_neg]

/-- A quotient of natural numbers is truncated to the quotient without remainder. -/
theorem truncated_natCast_div (n d : Nat) : truncated ((n : ℚ) / d) = n / d := by
  unfold truncated
  rw [if_pos (by positivity), Rat.floor_natCast_div_natCast]

/-- Division of integers drops the fraction. -/
theorem truncated_div (a b : Int) : truncated ((a : ℚ) / b) = a.tdiv b := by
  obtain ⟨n, rfl | rfl⟩ := a.eq_nat_or_neg <;> obtain ⟨d, rfl | rfl⟩ := b.eq_nat_or_neg
  all_goals
    simp only [Int.cast_neg, Int.cast_natCast, neg_div, div_neg, neg_neg, truncated_neg,
      truncated_natCast_div, Int.neg_tdiv, Int.tdiv_neg]
    rfl

/-! ## Powers -/

/-- The powers of -1, 0 and 1. -/
theorem pow_of_natAbs_le_one {a : Int} (ha : a.natAbs ≤ 1) (k : Nat) :
    a ^ k = if k = 0 then 1 else if k % 2 = 0 then a * a else a := by
  obtain rfl | rfl | rfl : a = -1 ∨ a = 0 ∨ a = 1 := by omega
  · rcases k.even_or_odd with h | h
    · rw [h.neg_one_pow, if_pos (Nat.even_iff.mp h)]
      simp
    · have hk : k ≠ 0 := by
        rintro rfl
        simp at h
      rw [h.neg_one_pow, if_neg hk, if_neg (by rw [Nat.odd_iff.mp h]; decide)]
  · by_cases hk : k = 0
    · simp [hk]
    · simp [hk]
  · simp

/-- A power of any other number with an exponent of 64 or more is no Integer. -/
theorem not_isWord_pow {a : Int} (ha : ¬a.natAbs ≤ 1) {k : Nat} (hk : 64 ≤ k) :
    ¬IsWord (a ^ k) := by
  have hpow : 2 ^ 64 ≤ (a ^ k).natAbs := calc
    2 ^ 64 ≤ 2 ^ k := Nat.pow_le_pow_right (by decide) hk
    _ ≤ a.natAbs ^ k := Nat.pow_le_pow_left (by omega) k
    _ = (a ^ k).natAbs := (Int.natAbs_pow a k).symm
  simp only [IsWord, minInteger, maxInteger]
  omega

/-! ## Outcomes -/

/-- What is refused although it is a power of -1, 0 or 1. -/
def Arith.Refuses (op : Arith) (a b : Int) : Prop := op = .pow ∧ 2 ^ 32 ≤ b ∧ a.natAbs ≤ 1

namespace Value

/-- A power is computed as far as it can be an Integer. -/
theorem integerPower_natCast (a : Int) (k : Nat) :
    integerPower a k =
      if 2 ^ 32 ≤ k ∧ a.natAbs ≤ 1 then (Cause.integerOverflow Arith.pow.name).fail
      else inRange Arith.pow.name (a ^ k) := by
  have hlimit : exponentLimit ≤ k ↔ 2 ^ 32 ≤ k := by
    rw [exponentLimit]
    omega
  unfold integerPower
  rw [if_neg (by omega)]
  simp only [hlimit]
  by_cases hsmall : a.natAbs ≤ 1
  · have hword : IsWord (a ^ k) := by
      have hpow : (a ^ k).natAbs ≤ 1 :=
        (Int.natAbs_pow a k).trans_le (pow_le_one₀ (by omega) hsmall)
      simp only [IsWord, minInteger, maxInteger]
      omega
    by_cases hk : 2 ^ 32 ≤ k
    · rw [if_pos hk, if_pos ⟨hk, hsmall⟩]
    · have hallowed : ¬(2 ^ 32 ≤ k ∧ a.natAbs ≤ 1) := fun h => hk h.1
      rw [if_neg hk, if_pos hsmall, if_neg hallowed, inRange_of_isWord _ hword,
        pow_of_natAbs_le_one hsmall]
      norm_cast
  · have hallowed : ¬(2 ^ 32 ≤ k ∧ a.natAbs ≤ 1) := fun h => hsmall h.2
    rw [if_neg hsmall, if_neg hallowed]
    by_cases hlarge : (64 : Int) ≤ k
    · rw [if_pos hlarge, ite_self]
      exact (inRange_of_not_isWord _ (not_isWord_pow hsmall (by omega))).symm
    · rw [if_neg hlarge, if_neg (by omega : ¬2 ^ 32 ≤ k)]
      rfl

/-- An operation gives the number that it stands for if that is an Integer. -/
theorem integerArith_exact {op : Arith} {a b : Int} (hdivisor : op = .div → b ≠ 0)
    (hexponent : op = .pow → 0 ≤ b) (hrefuses : ¬op.Refuses a b) :
    integerArith op a b = inRange op.name (op.exact a b) := by
  cases op with
  | add => rfl
  | sub => rfl
  | mul => rfl
  | div =>
    rw [Arith.exact, truncated_div]
    exact if_neg (hdivisor rfl)
  | pow =>
    obtain ⟨k, rfl⟩ := Int.eq_ofNat_of_zero_le (hexponent rfl)
    rw [integerArith, integerPower_natCast, if_neg fun h => hrefuses ⟨rfl, by omega, h.2⟩]
    rfl

/-- A power that is refused is an overflow. -/
theorem integerArith_of_refuses {op : Arith} {a b : Int} (h : op.Refuses a b) :
    integerArith op a b = (Cause.integerOverflow op.name).fail := by
  obtain ⟨rfl, hb, ha⟩ := h
  obtain ⟨k, rfl⟩ := Int.eq_ofNat_of_zero_le (by omega : 0 ≤ b)
  rw [integerArith, integerPower_natCast, if_pos ⟨by omega, ha⟩]

/-- A scalar operation on two numbers, where it is defined: an exponent that is negative is no
argument of a power. Otherwise the result is exact if it is an Integer, and an overflow if it is
not; only high powers of -1, 0 and 1 overflow although they are Integers. -/
theorem integer_operations (op : Arith) {a b : Int} (hdivisor : op = .div → b ≠ 0) :
    let outcome := binary (.arith op .scalars) (.integer a) (.integer b)
    (op = .pow ∧ b < 0 →
        outcome = (Cause.invalidArgument "^" "Integer exponent must be non-negative").fail)
      ∧ (¬(op = .pow ∧ b < 0) →
        (outcome = .ok (.integer (op.exact a b)) ↔ IsWord (op.exact a b) ∧ ¬op.Refuses a b)
          ∧ (outcome = (Cause.integerOverflow op.name).fail
            ↔ ¬IsWord (op.exact a b) ∨ op.Refuses a b)) := by
  intro outcome
  have houtcome : outcome = integerArith op a b := rfl
  constructor
  · rintro ⟨rfl, hb⟩
    exact if_pos hb
  · intro hdefined
    have hexponent : op = .pow → 0 ≤ b := fun hop => not_lt.mp fun hb => hdefined ⟨hop, hb⟩
    by_cases hrefuses : op.Refuses a b
    · rw [houtcome, integerArith_of_refuses hrefuses]
      exact ⟨⟨nofun, fun h => absurd hrefuses h.2⟩, ⟨fun _ => .inr hrefuses, fun _ => rfl⟩⟩
    · rw [houtcome, integerArith_exact hdivisor hexponent hrefuses]
      by_cases hword : IsWord (op.exact a b)
      · rw [inRange_of_isWord _ hword]
        exact ⟨⟨fun _ => ⟨hword, hrefuses⟩, fun _ => rfl⟩,
          ⟨nofun, fun h => h.elim (absurd hword) fun h => absurd h hrefuses⟩⟩
      · rw [inRange_of_not_isWord _ hword]
        exact ⟨⟨nofun, fun h => absurd h.1 hword⟩, ⟨fun _ => .inl hword, fun _ => rfl⟩⟩

/-- The largest power of -2 that is an Integer, and the next one; the smallest Integer divided by
-1. -/
theorem integer_operations_smallest :
    binary (.arith .pow .scalars) (.integer (-2)) (.integer 63) = .ok (.integer minInteger)
      ∧ binary (.arith .pow .scalars) (.integer (-2)) (.integer 64)
        = (Cause.integerOverflow "exponentiation").fail
      ∧ binary (.arith .div .scalars) (.integer minInteger) (.integer (-1))
        = (Cause.integerOverflow "division").fail := by
  have hpow : ∀ k : Int, 0 ≤ k → k < 2 ^ 32 →
      ¬(Arith.pow = .pow ∧ k < 0) ∧ ¬Arith.pow.Refuses (-2) k := fun k hk hk' =>
    ⟨fun h => by omega, fun h => by have := h.2.1; omega⟩
  refine ⟨?_, ?_, ?_⟩
  · obtain ⟨hdefined, hrefuses⟩ := hpow 63 (by decide) (by decide)
    exact (((integer_operations .pow nofun).2 hdefined).1).mpr ⟨by decide, hrefuses⟩
  · obtain ⟨hdefined, -⟩ := hpow 64 (by decide) (by decide)
    exact (((integer_operations .pow nofun).2 hdefined).2).mpr (.inl (by decide))
  · have hexact : Arith.div.exact minInteger (-1) = maxInteger + 1 := by
      rw [Arith.exact, truncated_div]
      rfl
    refine (((integer_operations .div (by decide)).2 (by decide)).2).mpr (.inl ?_)
    rw [hexact]
    decide

/-- The power of 1 with the exponent 2^32 is 1, and it is refused. -/
theorem power_of_one_refused :
    IsWord 1 ∧ IsWord 4294967296 ∧ Arith.pow.exact 1 4294967296 = 1
      ∧ binary (.arith .pow .scalars) (.integer 1) (.integer 4294967296)
        = (Cause.integerOverflow "exponentiation").fail :=
  ⟨by decide, by decide, one_pow _, rfl⟩

end Value

end ModelicaFold
