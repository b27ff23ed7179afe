import Mathlib.Data.List.TakeWhile
import ModelicaFold.Proofs.Bounds.Scanners

/-!
# Integers read from and written to text

What stands at the start of a text is described without the scanner: blanks, which come to an end, and
then the longest stretch that is an optional sign and digits. `Scan.ahead` finds it, and what is scanned
depends on it alone: the number and the position after it, or the position of the start and zero if there
are no digits or too many. A written Integer is read back, whatever blanks come before it and whatever
comes after it that is no digit.
-/

namespace ModelicaFold

open Builtin (stringInt intString)
open Builtin.External (Scan digitRun signRun offset scanArgs scanInteger)

/-! ## Numerals -/

/-- Nothing but ASCII digits, perhaps none at all. -/
def Digits (cs : List Char) : Prop := ∀ c ∈ cs, c.isDigit = true

/-- A sign, which may be left out, and has to be where none is allowed. -/
inductive Sign (unsigned : Bool) : List Char → Prop where
  | none : Sign unsigned []
  | plus (h : unsigned = false) : Sign unsigned ['+']
  | minus (h : unsigned = false) : Sign unsigned ['-']

/-- An optional sign and digits, perhaps none. -/
def SignedDigits (unsigned : Bool) (t : List Char) : Prop :=
  ∃ sign digits, t = sign ++ digits ∧ Sign unsigned sign ∧ Digits digits

/-- A text of an optional sign and at least one digit, and the integer that it denotes. -/
def Denotes (t : List Char) (n : Int) : Prop :=
  ∃ sign digits, t = sign ++ digits ∧ Sign false sign ∧ Digits digits ∧ digits ≠ []
    ∧ n = if sign = ['-'] then -(Nat.ofDigitChars 10 digits 0 : Int) else Nat.ofDigitChars 10 digits 0

namespace Digits

variable {cs : List Char}

/-- A natural number is written in digits. -/
theorem toDigits (n : Nat) : Digits (Nat.toDigits 10 n) := by
  intro c hc
  exact Nat.isDigit_of_mem_toDigits (by decide) (by decide) hc

/-- A digit is no sign. -/
theorem ne_sign (h : Digits cs) {c : Char} (hc : c ∈ cs) : c ≠ '+' ∧ c ≠ '-' := by
  have hdigit := h c hc
  constructor
  · rintro rfl
    cases hdigit
  · rintro rfl
    cases hdigit

/-- A digit is no blank. -/
theorem not_blank (h : Digits cs) {c : Char} (hc : c ∈ cs) : Text.isBlank c = false := by
  have hdigit := h c hc
  simp only [Char.isDigit, Bool.and_eq_true, decide_eq_true_eq, ge_iff_le, UInt32.le_iff_toNat_le]
    at hdigit
  have hrange : 48 ≤ c.toNat ∧ c.toNat ≤ 57 := hdigit
  simp only [Text.isBlank, Text.inRanges, Text.blankRanges, List.any_cons, List.any_nil,
    Bool.or_false, Bool.or_eq_false_iff, Bool.and_eq_false_iff, decide_eq_false_iff_not]
  omega

/-- No more digits can be taken from the start of a text than stand there. -/
theorem length_le (h : Digits cs) {body : List Char} (hstart : cs <+: body) :
    cs.length ≤ digitRun body := by
  obtain ⟨rest, rfl⟩ := hstart
  have htake : (cs ++ rest).takeWhile Decimal.isDigit = cs ++ rest.takeWhile Decimal.isDigit :=
    List.takeWhile_append_of_pos h
  unfold digitRun
  rw [htake, List.length_append]
  omega

/-- Digits before something that does not start with one. -/
theorem digitRun_append (h : Digits cs) {rest : List Char}
    (hrest : ∀ c, rest.head? = some c → c.isDigit = false) : digitRun (cs ++ rest) = cs.length := by
  have htake : (cs ++ rest).takeWhile Decimal.isDigit = cs ++ rest.takeWhile Decimal.isDigit :=
    List.takeWhile_append_of_pos h
  have hstop : rest.takeWhile Decimal.isDigit = [] := by
    cases rest with
    | nil => rfl
    | cons c rest =>
      have hc : Decimal.isDigit c = false := hrest c rfl
      exact List.takeWhile_cons_of_neg (by simp [hc])
  unfold digitRun
  rw [htake, hstop, List.append_nil]

/-- A text is read as a natural number if it consists of digits, at least one, and denotes it. -/
theorem natural?_eq (cs : List Char) (n : Nat) :
    Decimal.natural? cs = some n ↔ Digits cs ∧ cs ≠ [] ∧ Nat.ofDigitChars 10 cs 0 = n := by
  have hvalue : Decimal.digitsValue cs = Nat.ofDigitChars 10 cs 0 := rfl
  have hall : cs.all Decimal.isDigit = true ↔ Digits cs := List.all_eq_true
  unfold Decimal.natural?
  rw [hvalue]
  by_cases hempty : cs = []
  · simp [hempty]
  · by_cases hdigits : Digits cs
    · simp [hempty, hdigits, hall.mpr hdigits]
    · have hfalse : cs.all Decimal.isDigit = false := by
        rw [← Bool.not_eq_true, hall]
        exact hdigits
      simp [hempty, hdigits, hfalse]

end Digits

/-- A text is read as an Integer if what follows its sign is read as a natural number. -/
theorem integer?_eq_map (t : List Char) :
    Decimal.integer? t = (Decimal.natural? (Decimal.unsign t).2).map
      fun (n : Nat) => if (Decimal.unsign t).1 = true then -(n : Int) else (n : Int) := by
  unfold Decimal.integer?
  cases h : Decimal.natural? (Decimal.unsign t).2 <;> simp only [h] <;> rfl

/-- What is read as an integer is an optional sign and digits, at least one. -/
theorem integer?_eq_some_iff {t : List Char} {n : Int} :
    Decimal.integer? t = some n ↔ Denotes t n := by
  rw [integer?_eq_map]
  constructor
  · intro h
    rw [Option.map_eq_some_iff] at h
    obtain ⟨value, hvalue, rfl⟩ := h
    rw [Digits.natural?_eq] at hvalue
    obtain ⟨hdigits, hne, rfl⟩ := hvalue
    revert hdigits hne
    unfold Decimal.unsign
    split
    · intro hdigits hne
      exact ⟨['-'], _, rfl, .minus rfl, hdigits, hne, rfl⟩
    · intro hdigits hne
      exact ⟨['+'], _, rfl, .plus rfl, hdigits, hne, rfl⟩
    · intro hdigits hne
      exact ⟨[], _, rfl, .none, hdigits, hne, rfl⟩
  · rintro ⟨sign, digits, rfl, hsign, hdigits, hne, rfl⟩
    have hnatural := (Digits.natural?_eq digits _).mpr ⟨hdigits, hne, rfl⟩
    cases hsign with
    | plus => simp [Decimal.unsign, hnatural]
    | minus => simp [Decimal.unsign, hnatural]
    | none =>
      have hunsign : Decimal.unsign digits = (false, digits) := by
        unfold Decimal.unsign
        split
        · exact absurd rfl (hdigits.ne_sign List.mem_cons_self).2
        · exact absurd rfl (hdigits.ne_sign List.mem_cons_self).1
        · rfl
      simp [hunsign, hnatural]

/-- A text denotes at most one number. -/
theorem Denotes.unique {t : List Char} {m n : Int} (hm : Denotes t m) (hn : Denotes t n) : m = n := by
  rw [← integer?_eq_some_iff] at hm hn
  rw [hm] at hn
  exact Option.some.inj hn

/-! ## How far a numeral goes -/

/-- The length of a sign at the start of a text, where one is allowed. -/
def leadingSign (unsigned : Bool) (body : List Char) : Nat := if unsigned then 0 else signRun body

/-- How far a sign and digits at the start of a text go. -/
def reach (unsigned : Bool) (body : List Char) : Nat :=
  leadingSign unsigned body + digitRun (body.drop (leadingSign unsigned body))

section Reach

variable {unsigned : Bool} {sign digits rest : List Char} {n : Int}

/-- The sign that is found before digits is the one that is there. -/
theorem Sign.leadingSign_eq (h : Sign unsigned sign) (hdigits : Digits digits)
    (hne : sign ++ digits ≠ []) : leadingSign unsigned (sign ++ (digits ++ rest)) = sign.length := by
  unfold leadingSign
  cases h with
  | plus hunsigned => simp [hunsigned, signRun]
  | minus hunsigned => simp [hunsigned, signRun]
  | none =>
    cases digits with
    | nil => exact absurd rfl hne
    | cons c digits =>
      have hc := hdigits.ne_sign List.mem_cons_self
      simp [signRun, hc]

/-- A numeral reaches over its sign and all digits that follow. -/
theorem Sign.reach_eq (h : Sign unsigned sign) (hdigits : Digits digits) (hne : sign ++ digits ≠ []) :
    reach unsigned (sign ++ (digits ++ rest)) = sign.length + digitRun (digits ++ rest) := by
  unfold reach
  rw [h.leadingSign_eq hdigits hne, List.drop_left]

/-- No sign with digits goes farther. -/
theorem SignedDigits.length_le {t body : List Char} (h : SignedDigits unsigned t) (hstart : t <+: body) :
    t.length ≤ reach unsigned body := by
  obtain ⟨sign, digits, rfl, hsign, hdigits⟩ := h
  obtain ⟨rest, rfl⟩ := hstart
  by_cases hne : sign ++ digits = []
  · rw [hne]
    exact Nat.zero_le _
  · have hle := hdigits.length_le (List.prefix_append digits rest)
    rw [List.append_assoc, hsign.reach_eq hdigits hne, List.length_append]
    omega

/-- What is found as a sign is one. -/
theorem sign_take (unsigned : Bool) (body : List Char) :
    Sign unsigned (body.take (leadingSign unsigned body)) := by
  unfold leadingSign
  cases unsigned with
  | true => exact .none
  | false =>
    show Sign false (body.take (signRun body))
    unfold signRun
    split
    · exact .plus rfl
    · exact .minus rfl
    · exact .none

/-- What a numeral reaches over is its sign and the digits that follow it. -/
theorem take_reach (unsigned : Bool) (body : List Char) :
    body.take (reach unsigned body) = body.take (leadingSign unsigned body)
      ++ (body.drop (leadingSign unsigned body)).takeWhile Decimal.isDigit := by
  have hstart := List.takeWhile_prefix (l := body.drop (leadingSign unsigned body)) Decimal.isDigit
  rw [List.prefix_iff_eq_take] at hstart
  unfold reach
  rw [List.take_add]
  congr 1
  exact hstart.symm

/-- What a numeral reaches over is an optional sign and digits. -/
theorem signedDigits_take (unsigned : Bool) (body : List Char) :
    SignedDigits unsigned (body.take (reach unsigned body)) := by
  refine ⟨_, _, take_reach unsigned body, sign_take unsigned body, ?_⟩
  intro c hc
  exact List.mem_takeWhile_imp hc

/-- A numeral does not reach beyond the text. -/
theorem reach_le (unsigned : Bool) (body : List Char) : reach unsigned body ≤ body.length := by
  have hsign : leadingSign unsigned body ≤ body.length := by
    unfold leadingSign
    split
    · exact Nat.zero_le _
    · exact Direct.External.signRun_le body
  have hdigits := Direct.External.digitRun_le (body.drop (leadingSign unsigned body))
  rw [List.length_drop] at hdigits
  unfold reach
  omega

/-- There is no digit in a sign. -/
theorem Sign.not_denotes (h : Sign unsigned sign) : ¬Denotes sign n := by
  rintro ⟨sign', digits, rfl, -, hdigits, hne, -⟩
  obtain ⟨c, hc⟩ := List.exists_mem_of_ne_nil digits hne
  have hmem : c ∈ sign' ++ digits := List.mem_append_right sign' hc
  obtain ⟨hplus, hminus⟩ := hdigits.ne_sign hc
  generalize sign' ++ digits = t at h hmem
  cases h with
  | none => exact List.not_mem_nil hmem
  | plus => exact hplus (List.mem_singleton.mp hmem)
  | minus => exact hminus (List.mem_singleton.mp hmem)

/-- What denotes something has digits. -/
theorem digits_of_denotes {body : List Char} (h : Denotes (body.take (reach unsigned body)) n) :
    0 < digitRun (body.drop (leadingSign unsigned body)) := by
  apply Nat.pos_of_ne_zero
  intro hnone
  have hempty : (body.drop (leadingSign unsigned body)).takeWhile Decimal.isDigit = [] :=
    List.length_eq_zero_iff.mp hnone
  rw [take_reach, hempty, List.append_nil] at h
  exact (sign_take unsigned body).not_denotes h

end Reach

/-! ## What stands at the start of a text -/

/-- A text taken apart at an Integer: blanks, the longest optional sign with digits that comes after
them, and the rest. -/
structure IntegerAhead (unsigned : Bool) (text blanks number after : List Char) : Prop where
  text_eq : text = blanks ++ (number ++ after)
  blank : ∀ c ∈ blanks, Text.isBlank c = true
  started : ∀ c, (number ++ after).head? = some c → Text.isBlank c = false
  written : SignedDigits unsigned number
  longest : ∀ t, SignedDigits unsigned t → t <+: number ++ after → t.length ≤ number.length

namespace IntegerAhead

variable {unsigned : Bool} {text blanks number after blanks' number' after' : List Char}

/-- The blanks before a numeral are all blanks at the start of the text. -/
theorem takeWhile_blanks (h : IntegerAhead unsigned text blanks number after) :
    text.takeWhile Text.isBlank = blanks ∧ text.dropWhile Text.isBlank = number ++ after := by
  rw [h.text_eq, List.takeWhile_append_of_pos h.blank, List.dropWhile_append_of_pos h.blank]
  have hstart := h.started
  generalize number ++ after = body at hstart ⊢
  cases body with
  | nil => simp
  | cons c body =>
    have hc := hstart c rfl
    simp [hc]

/-- There is one way only to take a text apart. -/
theorem unique (h : IntegerAhead unsigned text blanks number after)
    (h' : IntegerAhead unsigned text blanks' number' after') :
    blanks = blanks' ∧ number = number' ∧ after = after' := by
  obtain ⟨hblanks, hbody⟩ := h.takeWhile_blanks
  obtain ⟨hblanks', hbody'⟩ := h'.takeWhile_blanks
  rw [hbody] at hbody'
  have hle : number.length ≤ number'.length :=
    h'.longest number h.written (hbody' ▸ List.prefix_append number after)
  have hge : number'.length ≤ number.length :=
    h.longest number' h'.written (hbody' ▸ List.prefix_append number' after')
  obtain ⟨hnumber, hafter⟩ := List.append_inj hbody' (by omega)
  exact ⟨hblanks.symm.trans hblanks', hnumber, hafter⟩

end IntegerAhead

/-! ## The scanner -/

namespace Builtin.External.Scan

/-- How far the number after the blanks goes. -/
def length (s : Scan) : Nat := reach s.unsigned s.body

/-- The scanner takes the text that it is given apart. -/
theorem ahead (s : Scan) : IntegerAhead s.unsigned s.rest (s.rest.takeWhile Text.isBlank)
    (s.body.take s.length) (s.body.drop s.length) where
  text_eq := by
    rw [List.take_append_drop]
    exact List.takeWhile_append_dropWhile.symm
  blank c hc := List.mem_takeWhile_imp hc
  started c hc := by
    rw [List.take_append_drop] at hc
    have hhead := List.head?_dropWhile_not Text.isBlank s.rest
    unfold Scan.body at hc
    rw [hc] at hhead
    exact hhead
  written := signedDigits_take s.unsigned s.body
  longest t ht hstart := by
    rw [List.take_append_drop] at hstart
    rw [List.length_take, length, Nat.min_eq_left (reach_le s.unsigned s.body)]
    exact ht.length_le hstart

/-- Where no numeral is read the scanner misses. -/
theorem integer_of_none (s : Scan) (h : Decimal.integer? (s.body.take s.length) = none) :
    s.integer = s.missed (.integer 0) := by
  have hread : Decimal.integer? (s.body.take (s.sign + digitRun (s.body.drop s.sign))) = none := h
  unfold Scan.integer
  simp only [hread]

/-- Where a numeral is read the scanner finds it if it has digits and is a word. -/
theorem integer_of_some (s : Scan) {n : Int} (h : Decimal.integer? (s.body.take s.length) = some n) :
    s.integer = if 0 < digitRun (s.body.drop s.sign) ∧ IsWord n then s.found s.length (.integer n)
      else s.missed (.integer 0) := by
  have hread : Decimal.integer? (s.body.take (s.sign + digitRun (s.body.drop s.sign))) = some n := h
  unfold Scan.integer
  simp only [hread]
  rfl

/-- What the scanner makes of the text ahead of it. -/
theorem integer_cases (s : Scan) :
    (∃ n, Denotes (s.body.take s.length) n ∧ IsWord n ∧ s.integer = s.found s.length (.integer n))
      ∨ (∀ n, Denotes (s.body.take s.length) n → ¬IsWord n) ∧ s.integer = s.missed (.integer 0) := by
  cases hread : Decimal.integer? (s.body.take s.length) with
  | none =>
    right
    refine ⟨?_, ?_⟩
    · intro n hn
      rw [← integer?_eq_some_iff, hread] at hn
      cases hn
    · exact s.integer_of_none hread
  | some n =>
    have hn : Denotes (s.body.take s.length) n := integer?_eq_some_iff.mp hread
    have hdigits : 0 < digitRun (s.body.drop s.sign) := digits_of_denotes hn
    by_cases hword : IsWord n
    · left
      refine ⟨n, hn, hword, ?_⟩
      rw [s.integer_of_some hread]
      exact if_pos ⟨hdigits, hword⟩
    · right
      refine ⟨?_, ?_⟩
      · intro m hm
        rw [hm.unique hn]
        exact hword
      · rw [s.integer_of_some hread]
        exact if_neg fun h => hword h.2

end Builtin.External.Scan

/-! ## Written Integers -/

/-- The text of an integer: a minus sign if it is negative, and the digits of its absolute value. -/
theorem toList_toString (m : Int) :
    (toString m).toList = (if m < 0 then ['-'] else []) ++ Nat.toDigits 10 m.natAbs := by
  cases m with
  | ofNat n =>
    have htext : toString (Int.ofNat n) = n.repr := rfl
    have hneg : ¬Int.ofNat n < 0 := by
      rw [Int.ofNat_eq_natCast]
      omega
    rw [htext, if_neg hneg, Nat.toList_repr]
    rfl
  | negSucc n =>
    have htext : toString (Int.negSucc n) = "-" ++ (n + 1).repr := rfl
    rw [htext, if_pos (Int.negSucc_lt_zero n), String.toList_append, Nat.toList_repr]
    rfl

/-- The sign that is written for a number is one that may be read. -/
theorem sign_written {unsigned : Bool} {m : Int} (h : unsigned = true → 0 ≤ m) :
    Sign unsigned (if m < 0 then ['-'] else []) := by
  split
  · rename_i hneg
    apply Sign.minus
    by_contra hunsigned
    have hpos := h (by simpa using hunsigned)
    omega
  · exact .none

/-- A written Integer denotes the number. -/
theorem denotes_toString (m : Int) : Denotes (toString m).toList m := by
  refine ⟨_, _, toList_toString m, sign_written (by simp), .toDigits _, Nat.toDigits_ne_nil, ?_⟩
  rw [Nat.ofDigitChars_toDigits (by decide) (by decide)]
  by_cases hneg : m < 0
  · simp only [hneg, if_true]
    omega
  · simp only [hneg, if_false, List.nil_eq, reduceCtorEq]
    omega

/-- A written Integer has no blanks. -/
theorem not_blank_toString {m : Int} {c : Char} (hc : c ∈ (toString m).toList) :
    Text.isBlank c = false := by
  rw [toList_toString, List.mem_append] at hc
  rcases hc with hsign | hdigit
  · split at hsign
    · rw [List.mem_singleton.mp hsign]
      decide
    · cases hsign
  · exact (Digits.toDigits _).not_blank hdigit

/-- A written Integer stands at the start of a text, after blanks and before anything but a digit. -/
theorem IntegerAhead.written_integer {unsigned : Bool} {m : Int} (hm : unsigned = true → 0 ≤ m)
    {blanks after : List Char} (hblanks : ∀ c ∈ blanks, Text.isBlank c = true)
    (hafter : ∀ c, after.head? = some c → c.isDigit = false) :
    IntegerAhead unsigned (blanks ++ ((toString m).toList ++ after)) blanks (toString m).toList after where
  text_eq := rfl
  blank := hblanks
  started c hc := by
    have hne : (toString m).toList ≠ [] := by
      rw [toList_toString]
      exact List.append_ne_nil_of_right_ne_nil _ Nat.toDigits_ne_nil
    rw [List.head?_append_of_ne_nil _ hne] at hc
    exact not_blank_toString (List.mem_of_mem_head? hc)
  written := ⟨_, _, toList_toString m, sign_written hm, .toDigits _⟩
  longest t ht hstart := by
    have hle := ht.length_le hstart
    have hdigits := Digits.toDigits m.natAbs
    have hne := List.append_ne_nil_of_right_ne_nil (if m < 0 then ['-'] else [])
      (Nat.toDigits_ne_nil (n := m.natAbs) (b := 10))
    rw [toList_toString, List.append_assoc, (sign_written hm).reach_eq hdigits hne,
      hdigits.digitRun_append hafter, ← List.length_append, ← toList_toString] at hle
    exact hle

/-- Trimming a written Integer does not change it. -/
theorem trim_toString (m : Int) : Text.trim (toString m).toList = (toString m).toList := by
  have hdrop : ∀ cs : List Char, (∀ c ∈ cs, Text.isBlank c = false) →
      cs.dropWhile Text.isBlank = cs := by
    intro cs hcs
    rw [List.dropWhile_eq_self_iff]
    intro hlength
    simp [hcs _ (List.getElem_mem hlength)]
  unfold Text.trim
  rw [hdrop _ fun c hc => not_blank_toString hc,
    hdrop _ fun c hc => not_blank_toString (List.mem_reverse.mp hc), List.reverse_reverse]

/-- An Integer is read from a text that denotes it, blanks around it apart. -/
theorem stringInt_of_denotes {s : String} {n : Int} (h : Denotes (Text.trim s.toList) n)
    (hword : IsWord n) : stringInt [.string s] = .ok (.integer n) := by
  have hread := integer?_eq_some_iff.mpr h
  have harg : ∀ f : String → Outcome Value,
      Builtin.onArg Builtin.stringArg "stringInt" f [.string s] = f s := fun _ => rfl
  unfold stringInt
  rw [harg]
  simp only [hread]
  exact if_pos hword

/-! ## Scanning and writing -/

/-- The scanner refuses a position outside the string, the one just after the end apart. -/
theorem scanInteger_eq (s : String) (i : Int) (unsigned : Bool) :
    scanInteger [.string s, .integer i, .bool unsigned] =
      if 1 ≤ i ∧ i ≤ s.length + 1 then
        .ok (Scan.integer ⟨s.toList.drop (i - 1).toNat, (i - 1).toNat, unsigned⟩)
      else (Cause.indexOutOfBounds i s.length).fail := by
  have hargs : scanArgs "ModelicaStrings_scanInteger" [.string s, .integer i, .bool unsigned] = (do
      let start ← offset i s.toList.length
      return ⟨s.toList.drop start, start, unsigned⟩) := rfl
  unfold scanInteger
  rw [hargs, String.length_toList]
  unfold offset
  by_cases hi : 1 ≤ i ∧ i ≤ s.length + 1
  · have hi' : 1 ≤ i ∧ (i - 1).toNat ≤ s.length := by omega
    rw [if_pos hi, if_pos hi']
    rfl
  · have hi' : ¬(1 ≤ i ∧ (i - 1).toNat ≤ s.length) := by omega
    rw [if_neg hi, if_neg hi']
    rfl

/-- What is scanned from a position on: the number ahead with the position after it, or zero with the
position itself if what is ahead denotes no Integer. -/
theorem scanInteger_cases {s : String} {i : Int} (unsigned : Bool) (hi : 1 ≤ i ∧ i ≤ s.length + 1) :
    ∃ blanks number after,
      IntegerAhead unsigned (s.toList.drop (i - 1).toNat) blanks number after
      ∧ ((∃ n, Denotes number n ∧ IsWord n
          ∧ scanInteger [.string s, .integer i, .bool unsigned]
            = .ok (.tuple [.integer (i + blanks.length + number.length), .integer n]))
        ∨ (∀ n, Denotes number n → ¬IsWord n)
          ∧ scanInteger [.string s, .integer i, .bool unsigned]
            = .ok (.tuple [.integer i, .integer 0])) := by
  rw [scanInteger_eq, if_pos hi]
  generalize hscan : Scan.mk (s.toList.drop (i - 1).toNat) (i - 1).toNat unsigned = scan
  have hstart : scan.start = (i - 1).toNat := by rw [← hscan]
  have hahead := scan.ahead
  have hlength : (scan.body.take scan.length).length = scan.length :=
    List.length_take_of_le (reach_le scan.unsigned scan.body)
  refine ⟨scan.rest.takeWhile Text.isBlank, scan.body.take scan.length, scan.body.drop scan.length,
    ?_, ?_⟩
  · rw [← hscan] at hahead ⊢
    exact hahead
  · rcases scan.integer_cases with ⟨n, hn, hword, hfound⟩ | ⟨hnone, hmissed⟩
    · left
      refine ⟨n, hn, hword, ?_⟩
      have hposition : ((scan.start + scan.blanks + scan.length + 1 : Nat) : Int)
          = i + (scan.rest.takeWhile Text.isBlank).length + (scan.body.take scan.length).length := by
        rw [hlength, hstart, Scan.blanks]
        omega
      rw [hfound, ← hposition]
      rfl
    · right
      refine ⟨hnone, ?_⟩
      have hposition : ((scan.start + 1 : Nat) : Int) = i := by
        rw [hstart]
        omega
      rw [hmissed, ← hposition]
      rfl

/-- Scanning an Integer from a position of a string on gives the longest number after the blanks there,
if it is an Integer, and fails only for a position outside the string. A written Integer is scanned
again, whatever blanks come before it and whatever comes after it but a digit, and it is read again. -/
theorem integer_scanning :
    (∀ (s : String) (i : Int) (unsigned : Bool),
      (1 ≤ i ∧ i ≤ s.length + 1 → ∃ blanks number after,
        IntegerAhead unsigned (s.toList.drop (i - 1).toNat) blanks number after
        ∧ ((∃ n, Denotes number n ∧ IsWord n
            ∧ scanInteger [.string s, .integer i, .bool unsigned]
              = .ok (.tuple [.integer (i + blanks.length + number.length), .integer n]))
          ∨ (∀ n, Denotes number n → ¬IsWord n)
            ∧ scanInteger [.string s, .integer i, .bool unsigned]
              = .ok (.tuple [.integer i, .integer 0])))
      ∧ (¬(1 ≤ i ∧ i ≤ s.length + 1) →
        scanInteger [.string s, .integer i, .bool unsigned] = (Cause.indexOutOfBounds i s.length).fail))
    ∧ ∀ m, IsWord m → ∃ text, intString [.integer m] = .ok (.string text)
      ∧ stringInt [.string text] = .ok (.integer m)
      ∧ ∀ (blanks after : String) (unsigned : Bool), (∀ c ∈ blanks.toList, Text.isBlank c = true) →
        (∀ c, after.toList.head? = some c → c.isDigit = false) → (unsigned = true → 0 ≤ m) →
        scanInteger [.string (blanks ++ text ++ after), .integer 1, .bool unsigned]
          = .ok (.tuple [.integer ((blanks ++ text).length + 1), .integer m]) := by
  refine ⟨fun s i unsigned => ⟨scanInteger_cases unsigned, fun hi => ?_⟩, fun m hword => ?_⟩
  · rw [scanInteger_eq, if_neg hi]
  · refine ⟨toString m, rfl, ?_, ?_⟩
    · apply stringInt_of_denotes _ hword
      rw [trim_toString]
      exact denotes_toString m
    · intro blanks after unsigned hblanks hafter hunsigned
      have hi : (1 : Int) ≤ 1 ∧ (1 : Int) ≤ (blanks ++ toString m ++ after).length + 1 := by omega
      have hexpected := IntegerAhead.written_integer hunsigned hblanks hafter
      obtain ⟨before, number, rest, hahead, hscanned⟩ := scanInteger_cases unsigned hi
      have htext : (blanks ++ toString m ++ after).toList.drop ((1 : Int) - 1).toNat
          = blanks.toList ++ ((toString m).toList ++ after.toList) := by
        simp only [String.toList_append, List.append_assoc]
        rfl
      rw [htext] at hahead
      obtain ⟨rfl, rfl, -⟩ := hahead.unique hexpected
      rcases hscanned with ⟨n, hn, -, hfound⟩ | ⟨hnone, -⟩
      · rw [hfound, hn.unique (denotes_toString m)]
        have hposition : (1 : Int) + blanks.toList.length + (toString m).toList.length
            = (blanks ++ toString m).length + 1 := by
          rw [String.length_toList, String.length_toList, String.length_append]
          omega
        rw [hposition]
      · exact absurd hword (hnone m (denotes_toString m))

/-- The number -42 between blanks and a word, and a position after the end. -/
theorem integer_scanning_negative :
    scanInteger [.string "  -42 rest", .integer 1, .bool false]
        = .ok (.tuple [.integer 6, .integer (-42)])
      ∧ scanInteger [.string "-42", .integer 5, .bool false] = (Cause.indexOutOfBounds 5 3).fail := by
  obtain ⟨hscan, hwritten⟩ := integer_scanning
  obtain ⟨text, htext, -, hscanned⟩ := hwritten (-42) (by decide)
  cases htext
  constructor
  · refine hscanned "  " " rest" false ?_ ?_ nofun
    · intro c hc
      have hblank : c ∈ List.replicate 2 ' ' := hc
      rw [List.eq_of_mem_replicate hblank]
      rfl
    · intro c hc
      cases hc
      rfl
  · apply (hscan "-42" 5 false).2
    rintro ⟨-, hle⟩
    exact absurd hle (by decide)

end ModelicaFold
