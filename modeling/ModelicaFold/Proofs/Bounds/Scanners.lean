import ModelicaFold.Proofs.Bounds.Builtins

/-!
# Texts scanned by offsets

The string functions with the characters of a text read by offsets into the whole text. A scanner
moves its offset only past characters that it has seen, so it never leaves the text; the offsets
that come from arguments are tested.
-/

namespace ModelicaFold.Direct.External

open Access (InBounds)
open Builtin (takes takesBetween stringArg integerArg boolArg optionalArg)
open Builtin.External (Scan offset ofCount digitRun signRun decimalRun exponentRun)

/-! ## Parts of a text -/

/-- The characters from a position to another, both included. -/
def substring : Function := fun args => do
  Access.of (takes "ModelicaStrings_substring" 3 args)
  let s ← Access.of (stringArg "ModelicaStrings_substring" args 0)
  let start ← Access.of (integerArg "ModelicaStrings_substring" args 1)
  let stop ← Access.of (integerArg "ModelicaStrings_substring" args 2)
  if stop < start then return .string ""
  else do
    let cs := s.toList
    let i ← Access.of (offset start cs.length)
    if 0 ≤ stop ∧ stop.toNat ≤ cs.length then do
      let part ← Access.slice cs i stop.toNat
      return .string (String.ofList part)
    else Access.of (Cause.indexOutOfBounds stop cs.length).fail

/-- An offset that is accepted is one below a position within the text. -/
theorem offset_eq_ok {i : Int} {length n : Nat} (h : offset i length = .ok n) :
    1 ≤ i ∧ n = (i - 1).toNat ∧ n ≤ length := by
  unfold offset at h
  split at h
  · rename_i hi
    cases h
    exact ⟨hi.1, rfl, hi.2⟩
  · cases h

/-- A part of a text is cut out within the text. -/
theorem keeps_substring : Keeps substring Builtin.External.substring := by
  intro args
  refine .bind (Access.inBounds_of _) fun _ _ => .bind (Access.inBounds_of _) fun s _ => ?_
  refine .bind (Access.inBounds_of _) fun start _ => .bind (Access.inBounds_of _) fun stop _ => ?_
  refine .ite (fun _ => rfl) fun horder => .bind (Access.inBounds_of _) fun i hi => ?_
  refine .ite (fun hstop => ?_) fun _ => rfl
  obtain ⟨hstart, rfl, -⟩ := offset_eq_ok hi
  exact .read (Access.slice_eq (by omega) hstop.2) rfl

/-- The offset of the first character from an offset on that is no blank. -/
def skipBlanks (cs : List Char) (i : Nat) : Access Nat := do
  let rest ← Access.slice cs i cs.length
  return match rest.findIdx? fun c => !Text.isBlank c with
    | some k => i + k
    | none => cs.length

/-- The number of characters at the start that have a property. -/
theorem findIdx?_not (p : Char → Bool) (cs : List Char) :
    (cs.findIdx? fun c => !p c).getD cs.length = (cs.takeWhile p).length := by
  induction cs with
  | nil => rfl
  | cons c cs ih =>
    rw [List.findIdx?_cons, List.takeWhile_cons]
    cases p c with
    | true =>
      simp only [Bool.not_true, Bool.false_eq_true, if_false, if_true, List.length_cons, ← ih]
      cases cs.findIdx? fun c => !p c <;> rfl
    | false => rfl

/-- Blanks are skipped within the text. -/
theorem skipBlanks_inBounds {cs : List Char} {i : Nat} (hi : i ≤ cs.length) :
    InBounds (skipBlanks cs i) (pure (i + ((cs.drop i).takeWhile Text.isBlank).length)) := by
  refine .read (Access.slice_length hi) ?_
  rw [← findIdx?_not]
  cases (cs.drop i).findIdx? fun c => !Text.isBlank c with
  | some k => rfl
  | none =>
    show InBounds (pure cs.length) (pure (i + (cs.drop i).length))
    rw [List.length_drop, Nat.add_sub_cancel' hi]
    rfl

/-- The position of the first character that is no blank. -/
def skipWhiteSpace : Function := fun args => do
  Access.of (takesBetween "ModelicaStrings_skipWhiteSpace" 1 2 args)
  let s ← Access.of (stringArg "ModelicaStrings_skipWhiteSpace" args 0)
  let position ← Access.of (optionalArg integerArg 1 "ModelicaStrings_skipWhiteSpace" args 1)
  let i ← Access.of (offset position s.toList.length)
  let j ← skipBlanks s.toList i
  return ofCount (j + 1)

/-- Skipping white space stays within the text. -/
theorem keeps_skipWhiteSpace : Keeps skipWhiteSpace Builtin.External.skipWhiteSpace := by
  intro args
  refine .bind (Access.inBounds_of _) fun _ _ => .bind (Access.inBounds_of _) fun s _ => ?_
  refine .bind (Access.inBounds_of _) fun position _ => ?_
  refine .bind (Access.inBounds_of _) fun i hi => ?_
  obtain ⟨-, -, hi⟩ := offset_eq_ok hi
  exact .read (skipBlanks_inBounds hi) rfl

/-! ## Runs of characters -/

/-- The number of digits from an offset on. -/
def digits (cs : List Char) (i : Nat) : Access Nat := do
  let rest ← Access.slice cs i cs.length
  return (rest.takeWhile Decimal.isDigit).length

/-- The length of a sign at an offset, which may be the end. -/
def signLength (cs : List Char) (i : Nat) (unsigned : Bool) : Nat :=
  if !unsigned && (cs[i]? == some '+' || cs[i]? == some '-') then 1 else 0

/-- Digits are passed over within the text. -/
theorem digits_inBounds {cs : List Char} {i : Nat} (hi : i ≤ cs.length) :
    InBounds (digits cs i) (pure (digitRun (cs.drop i))) :=
  .read (Access.slice_length hi) rfl

/-- A run of digits does not reach beyond the text. -/
theorem digitRun_le (cs : List Char) : digitRun cs ≤ cs.length :=
  (List.takeWhile_sublist Decimal.isDigit).length_le

/-- A sign does not reach beyond the text. -/
theorem signRun_le (cs : List Char) : signRun cs ≤ cs.length := by
  unfold signRun
  split <;> simp

/-- The sign at an offset is the one at the start of the rest. -/
theorem signLength_eq (cs : List Char) (i : Nat) (unsigned : Bool) :
    signLength cs i unsigned = if unsigned then 0 else signRun (cs.drop i) := by
  have hhead : cs[i]? = (cs.drop i).head? := List.head?_drop.symm
  rw [signLength, hhead]
  generalize cs.drop i = rest
  cases unsigned with
  | true => rfl
  | false =>
    cases rest with
    | nil => rfl
    | cons c rest =>
      by_cases hplus : c = '+'
      · rw [hplus]
        rfl
      · by_cases hminus : c = '-'
        · rw [hminus]
          rfl
        · simp [signRun, hplus, hminus]

/-- A sign is part of the text. -/
theorem signLength_le {cs : List Char} {i : Nat} (hi : i ≤ cs.length) (unsigned : Bool) :
    i + signLength cs i unsigned ≤ cs.length := by
  have hsign := signRun_le (cs.drop i)
  rw [List.length_drop] at hsign
  rw [signLength_eq]
  split <;> omega

/-- Digits are part of the text. -/
theorem add_digitRun_le {cs : List Char} {i : Nat} (hi : i ≤ cs.length) :
    i + digitRun (cs.drop i) ≤ cs.length := by
  have hdigits := digitRun_le (cs.drop i)
  rw [List.length_drop] at hdigits
  omega

/-! ## Scanners -/

/-- The arguments of a scanner: the text, the offset to start at and whether a sign is refused. -/
def scanArgs (name : String) (args : List Value) : Outcome (List Char × Nat × Bool) := do
  takesBetween name 1 3 args
  let cs := (← stringArg name args 0).toList
  let position ← optionalArg integerArg 1 name args 1
  let unsigned ← optionalArg boolArg false name args 2
  let i ← offset position cs.length
  return (cs, i, unsigned)

/-- What is scanned starts inside the text or at its end. -/
theorem scanArgs_bind {name : String} {args : List Value}
    {k : List Char × Nat × Bool → Access Value} {l : Scan → Value}
    (h : ∀ cs i unsigned, i ≤ cs.length →
      InBounds (k (cs, i, unsigned)) (pure (l ⟨cs.drop i, i, unsigned⟩))) :
    InBounds (Access.of (scanArgs name args) >>= k)
      (Builtin.External.scanArgs name args >>= fun s => pure (l s)) := by
  have hscan : Builtin.External.scanArgs name args
      = (fun (cs, i, unsigned) => ⟨cs.drop i, i, unsigned⟩) <$> scanArgs name args := by
    simp only [scanArgs, Builtin.External.scanArgs, map_bind, map_pure]
  rw [hscan, bind_map_left]
  refine .bind (Access.inBounds_of _) fun (cs, i, unsigned) hargs => h cs i unsigned ?_
  simp only [scanArgs, Outcome.bind_eq_ok] at hargs
  obtain ⟨-, -, s, -, position, -, refused, -, j, hj, hargs⟩ := hargs
  cases hargs
  exact (offset_eq_ok hj).2.2

/-- What is left after the characters with a property. -/
theorem dropWhile_eq_drop (p : Char → Bool) (cs : List Char) :
    cs.dropWhile p = cs.drop (cs.takeWhile p).length := by
  have hsplit : (cs.takeWhile p ++ cs.dropWhile p).drop (cs.takeWhile p).length
      = cs.dropWhile p := List.drop_left
  rw [List.takeWhile_append_dropWhile] at hsplit
  exact hsplit.symm

/-- The blanks are followed by a part of the text. -/
theorem add_blanks_le {cs : List Char} {i : Nat} (hi : i ≤ cs.length) :
    i + ((cs.drop i).takeWhile Text.isBlank).length ≤ cs.length := by
  have hblanks : ((cs.drop i).takeWhile Text.isBlank).length ≤ (cs.drop i).length :=
    (List.takeWhile_sublist Text.isBlank).length_le
  rw [List.length_drop] at hblanks
  omega

/-- What a scanner finds after the blanks is at the offset after them. -/
theorem body_eq_drop (cs : List Char) (i : Nat) (unsigned : Bool) :
    (⟨cs.drop i, i, unsigned⟩ : Scan).body
      = cs.drop (i + ((cs.drop i).takeWhile Text.isBlank).length) := by
  rw [Scan.body, dropWhile_eq_drop, List.drop_drop]

/-- The Integer at an offset, blanks before it apart. -/
def integerAt (cs : List Char) (i : Nat) (unsigned : Bool) : Access Value := do
  let start ← skipBlanks cs i
  let sign := signLength cs start unsigned
  let n ← digits cs (start + sign)
  let text ← Access.slice cs start (start + sign + n)
  let missed := Value.tuple [ofCount (i + 1), .integer 0]
  return match Decimal.integer? text with
    | some value =>
      if 0 < n ∧ minInteger ≤ value ∧ value ≤ maxInteger then
        .tuple [ofCount (start + sign + n + 1), .integer value]
      else missed
    | none => missed

/-- An Integer is scanned within the text. -/
theorem integerAt_inBounds {cs : List Char} {i : Nat} (hi : i ≤ cs.length) (unsigned : Bool) :
    InBounds (integerAt cs i unsigned) (pure (Scan.integer ⟨cs.drop i, i, unsigned⟩)) := by
  have hstart := add_blanks_le hi
  have hbody := body_eq_drop cs i unsigned
  refine .read (skipBlanks_inBounds hi) ?_
  simp only [Scan.integer, Scan.found, Scan.missed, Scan.sign, Scan.blanks, hbody]
  generalize i + ((cs.drop i).takeWhile Text.isBlank).length = start at *
  have hsign := signLength_le hstart unsigned
  rw [← signLength_eq, List.drop_drop]
  generalize signLength cs start unsigned = sign at *
  refine .read (digits_inBounds hsign) ?_
  have hn := add_digitRun_le hsign
  generalize digitRun (cs.drop (start + sign)) = n at *
  refine .read (Access.slice_eq (by omega) hn) ?_
  have htext : (cs.take (start + sign + n)).drop start = (cs.drop start).take (sign + n) := by
    rw [List.drop_take]
    congr 1
    omega
  rw [htext, ← Nat.add_assoc]
  cases Decimal.integer? ((cs.drop start).take (sign + n)) <;> rfl

/-- Scans an Integer. -/
def scanInteger : Function := fun args => do
  let (cs, i, unsigned) ← Access.of (scanArgs "ModelicaStrings_scanInteger" args)
  integerAt cs i unsigned

/-- The scanner of Integers stays within the text. -/
theorem keeps_scanInteger : Keeps scanInteger Builtin.External.scanInteger := fun _ =>
  scanArgs_bind fun _ _ unsigned hi => integerAt_inBounds hi unsigned

/-- The number of digits after a point at an offset, and the offset after them. -/
def fractionAt (cs : List Char) (i : Nat) : Access (Nat × Nat) :=
  if cs[i]? = some '.' then do
    let n ← digits cs (i + 1)
    return (n, i + 1 + n)
  else return (0, i)

/-- The offset after an exponent with digits at an offset. -/
def exponentEnd (cs : List Char) (i : Nat) : Access Nat :=
  if cs[i]? = some 'e' ∨ cs[i]? = some 'E' then do
    let sign := signLength cs (i + 1) false
    let n ← digits cs (i + 1 + sign)
    return if 0 < n then i + 1 + sign + n else i
  else return i

/-- A text at an offset begins with the character there. -/
theorem drop_eq_cons {cs : List Char} {i : Nat} {c : Char} (h : cs[i]? = some c) :
    i < cs.length ∧ cs.drop i = c :: cs.drop (i + 1) := by
  obtain ⟨hi, rfl⟩ := List.getElem?_eq_some_iff.mp h
  exact ⟨hi, List.drop_eq_getElem_cons hi⟩

/-- A decimal fraction is passed over within the text. -/
theorem fractionAt_inBounds {cs : List Char} {i : Nat} (hi : i ≤ cs.length) :
    ∃ fraction length, decimalRun (cs.drop i) = (digitRun (cs.drop i), fraction, length) ∧
      i + length ≤ cs.length ∧
      InBounds (fractionAt cs (i + digitRun (cs.drop i))) (pure (fraction, i + length)) := by
  have hwhole := add_digitRun_le hi
  simp only [decimalRun, List.drop_drop]
  generalize digitRun (cs.drop i) = whole at *
  by_cases hpoint : cs[i + whole]? = some '.'
  · obtain ⟨hlt, hdrop⟩ := drop_eq_cons hpoint
    have hlt : i + whole + 1 ≤ cs.length := hlt
    have hdigits := add_digitRun_le hlt
    rw [hdrop, fractionAt, if_pos hpoint]
    refine ⟨_, _, rfl, by omega, .read (digits_inBounds hlt) ?_⟩
    rw [← Nat.add_assoc, ← Nat.add_assoc]
    exact Access.inBounds_pure _
  · rw [fractionAt, if_neg hpoint]
    refine ⟨0, whole, ?_, hwhole, Access.inBounds_pure _⟩
    split
    · rename_i more hdrop
      refine absurd ?_ hpoint
      rw [← List.head?_drop, hdrop]
      rfl
    · rfl

/-- Without a mark there is no exponent. -/
theorem exponentRun_eq_zero {cs : List Char} (he : cs.head? ≠ some 'e') (hE : cs.head? ≠ some 'E') :
    exponentRun cs = 0 := by
  cases cs with
  | nil => rfl
  | cons c rest =>
    rw [List.head?_cons, ne_eq, Option.some_inj] at he hE
    exact if_neg (by simp [he, hE])

/-- An exponent is passed over within the text. -/
theorem exponentEnd_inBounds {cs : List Char} {i : Nat} (hi : i ≤ cs.length) :
    i + exponentRun (cs.drop i) ≤ cs.length ∧
      InBounds (exponentEnd cs i) (pure (i + exponentRun (cs.drop i))) := by
  by_cases hmark : cs[i]? = some 'e' ∨ cs[i]? = some 'E'
  · obtain ⟨c, hc, hmatch⟩ : ∃ c, cs[i]? = some c ∧ (c = 'e' ∨ c = 'E') :=
      hmark.elim (fun h => ⟨_, h, .inl rfl⟩) fun h => ⟨_, h, .inr rfl⟩
    obtain ⟨hlt, hdrop⟩ := drop_eq_cons hc
    have hlt : i + 1 ≤ cs.length := hlt
    have hsign := signLength_le hlt false
    have hdigits := add_digitRun_le hsign
    have hrun : signRun (cs.drop (i + 1)) = signLength cs (i + 1) false :=
      (signLength_eq cs (i + 1) false).symm
    rw [exponentEnd, if_pos hmark, hdrop, exponentRun, hrun, List.drop_drop]
    generalize signLength cs (i + 1) false = sign at *
    have hn := digits_inBounds hsign
    generalize digitRun (cs.drop (i + 1 + sign)) = n at *
    by_cases hpos : 0 < n
    · have hcount : (if ((c = 'e' || c = 'E') && 0 < n) = true then 1 + sign + n else 0)
          = 1 + sign + n := if_pos (by simp [hmatch, hpos])
      rw [hcount]
      refine ⟨by omega, .read hn ?_⟩
      rw [if_pos hpos, ← Nat.add_assoc, ← Nat.add_assoc]
      exact Access.inBounds_pure _
    · have hcount : (if ((c = 'e' || c = 'E') && 0 < n) = true then 1 + sign + n else 0) = 0 :=
        if_neg (by simp [hpos])
      rw [hcount]
      refine ⟨hi, .read hn ?_⟩
      rw [if_neg hpos]
      exact Access.inBounds_pure _
  · rw [exponentEnd, if_neg hmark]
    rw [← List.head?_drop, not_or] at hmark
    rw [exponentRun_eq_zero hmark.1 hmark.2]
    exact ⟨hi, Access.inBounds_pure _⟩

/-- The Real at an offset, blanks before it apart. -/
def realAt (cs : List Char) (i : Nat) (unsigned : Bool) : Access Value := do
  let start ← skipBlanks cs i
  let sign := signLength cs start unsigned
  let whole ← digits cs (start + sign)
  let (fraction, stop) ← fractionAt cs (start + sign + whole)
  let missed := Value.tuple [ofCount (i + 1), .real 0.0]
  if whole + fraction = 0 then return missed
  else do
    let stop ← exponentEnd cs stop
    let text ← Access.slice cs start stop
    return match Decimal.real? text with
      | some value => .tuple [ofCount (stop + 1), .real value]
      | none => missed

/-- A Real is scanned within the text. -/
theorem realAt_inBounds {cs : List Char} {i : Nat} (hi : i ≤ cs.length) (unsigned : Bool) :
    InBounds (realAt cs i unsigned) (pure (Scan.real ⟨cs.drop i, i, unsigned⟩)) := by
  have hstart := add_blanks_le hi
  have hbody := body_eq_drop cs i unsigned
  refine .read (skipBlanks_inBounds hi) ?_
  simp only [Scan.real, Scan.found, Scan.missed, Scan.sign, Scan.blanks, hbody]
  generalize i + ((cs.drop i).takeWhile Text.isBlank).length = start at *
  have hsign := signLength_le hstart unsigned
  rw [← signLength_eq, List.drop_drop]
  generalize signLength cs start unsigned = sign at *
  refine .read (digits_inBounds hsign) ?_
  obtain ⟨fraction, length, hrun, hlength, hfraction⟩ := fractionAt_inBounds hsign
  rw [hrun]
  refine .read hfraction ?_
  dsimp only
  by_cases hnone : digitRun (cs.drop (start + sign)) + fraction = 0
  · rw [if_pos hnone, if_pos hnone]
    exact Access.inBounds_pure _
  · rw [if_neg hnone, if_neg hnone]
    obtain ⟨hstop, hexponent⟩ := exponentEnd_inBounds hlength
    refine .read hexponent ?_
    rw [List.drop_drop]
    generalize exponentRun (cs.drop (start + sign + length)) = exponent at *
    refine .read (Access.slice_eq (by omega) hstop) ?_
    have hcount : sign + length + exponent = start + sign + length + exponent - start := by omega
    rw [List.drop_take, ← hcount, ← Nat.add_assoc, ← Nat.add_assoc]
    cases Decimal.real? ((cs.drop start).take (sign + length + exponent)) <;> rfl

/-- Scans a Real. -/
def scanReal : Function := fun args => do
  let (cs, i, unsigned) ← Access.of (scanArgs "ModelicaStrings_scanReal" args)
  realAt cs i unsigned

/-- The scanner of Reals stays within the text. -/
theorem keeps_scanReal : Keeps scanReal Builtin.External.scanReal := fun _ =>
  scanArgs_bind fun _ _ unsigned hi => realAt_inBounds hi unsigned

end ModelicaFold.Direct.External
