import Mathlib.Algebra.GroupWithZero.Nat
import ModelicaFold.Builtin.Collections
import ModelicaFold.Builtin.External
import ModelicaFold.Proofs.Shape.Outcome

/-!
# Characters of a string

The functions on strings agree on what a position is: it counts characters, from one. The list of the
characters of a string has one item for each position, `stringGetStringChar` reads it, joining the
list gives the string back, and a substring that is cut at a position is its two pieces one after the
other. `string_indexing` says so for all strings and all positions, those just before the start and
just after the end included.

One function counts something else. `stringLength` gives the number of bytes of the UTF-8 form, which
is the number of characters for ASCII strings only (`stringLength_counts_bytes`).
-/

namespace ModelicaFold

open Builtin (stringLength stringListStringChar stringGetStringChar stringAppendList lengthOf takes
  stringArg integerArg)
open Builtin.External (substring offset)

/-! ## Lists of characters -/

/-- The characters of a string, each as a string of its own. -/
def characters (s : String) : List Value := s.toList.map fun c => .string c.toString

/-- A string has as many characters in the list as in itself. -/
@[simp]
theorem length_characters (s : String) : (characters s).length = s.length := by
  simp [characters, String.length_toList]

/-- The list has at an offset the character of the string there. -/
theorem getElem?_characters (s : String) (i : Nat) :
    (characters s)[i]? = s.toList[i]?.map fun c => .string c.toString := by
  simp [characters]

/-- Joining characters gives the string of them. -/
theorem join_map_toString (cs : List Char) :
    String.join (cs.map Char.toString) = String.ofList cs := by
  apply String.toList_inj.mp
  rw [String.toList_join, String.toList_ofList, List.flatMap_map]
  have hsingle : ∀ c : Char, c.toString.toList = [c] := by simp
  simp only [hsingle, List.flatMap_singleton']

/-- The characters joined are the string. -/
theorem stringAppendList_characters (s : String) :
    stringAppendList [.listOf (characters s)] = .ok (.string s) := by
  have hparts : (characters s).mapM Builtin.stringPart = .ok (s.toList.map Char.toString) := by
    unfold characters
    rw [List.mapM_map]
    exact List.mapM_pure
  have hjoin : stringAppendList [.listOf (characters s)]
      = (characters s).mapM Builtin.stringPart >>= fun parts => .ok (.string (String.join parts)) :=
    rfl
  rw [hjoin, hparts]
  show Except.ok (Value.string (String.join (s.toList.map Char.toString))) = _
  rw [join_map_toString, String.ofList_toList]

/-- The character at a position is read, or the position is out of bounds. -/
theorem stringGetStringChar_eq_elim (s : String) (i : Int) :
    stringGetStringChar [.string s, .integer i]
      = (nth? s.toList i).elim (Cause.indexOutOfBounds i s.length).fail
        fun c => .ok (.string c.toString) := by
  have htakes : takes "stringGetStringChar" 2 [Value.string s, .integer i] = .ok () := rfl
  have hstring : stringArg "stringGetStringChar" [.string s, .integer i] 0 = .ok s := rfl
  have hinteger : integerArg "stringGetStringChar" [.string s, .integer i] 1 = .ok i := rfl
  rw [stringGetStringChar, htakes, hstring, hinteger, Outcome.ok_bind, Outcome.ok_bind,
    Outcome.ok_bind]
  cases nth? s.toList i <;> rfl

/-- A position of the string has a character, and no other position has one. -/
theorem stringGetStringChar_eq (s : String) (i : Int) :
    if 1 ≤ i ∧ i ≤ s.length then
      ∃ c, (characters s)[(i - 1).toNat]? = some c
        ∧ stringGetStringChar [.string s, .integer i] = .ok c
    else stringGetStringChar [.string s, .integer i]
      = (Cause.indexOutOfBounds i s.length).fail := by
  have hlength : s.toList.length = s.length := String.length_toList
  rw [stringGetStringChar_eq_elim]
  split
  · rename_i hi
    have hlt : (i - 1).toNat < s.toList.length := by omega
    have hnth : nth? s.toList i = some s.toList[(i - 1).toNat] :=
      nth?_eq_some_iff.mpr ⟨hi.1, List.getElem?_eq_getElem hlt⟩
    refine ⟨.string s.toList[(i - 1).toNat].toString, ?_, ?_⟩
    · rw [getElem?_characters, List.getElem?_eq_getElem hlt]
      rfl
    · rw [hnth, Option.elim_some]
  · rename_i hi
    have hnth : nth? s.toList i = none := by
      rw [Option.eq_none_iff_forall_ne_some]
      intro c hc
      obtain ⟨hpos, hc⟩ := nth?_eq_some_iff.mp hc
      have hlt := (List.getElem?_eq_some_iff.mp hc).1
      apply hi
      omega
    rw [hnth, Option.elim_none]

/-! ## Bytes -/

/-- The bytes of a string are those of its characters. -/
theorem utf8ByteSize_eq_sum (s : String) : s.utf8ByteSize = (s.toList.map Char.utf8Size).sum := by
  rw [← String.ofList_toList (s := s), String.toList_ofList]
  induction s.toList with
  | nil => rfl
  | cons c cs ih =>
    rw [String.ofList_cons, String.utf8ByteSize_append, ih]
    simp

/-- There are at least as many bytes as characters. -/
theorem length_le_sum_utf8Size (cs : List Char) : cs.length ≤ (cs.map Char.utf8Size).sum := by
  induction cs with
  | nil => simp
  | cons c cs ih =>
    have hpos := c.utf8Size_pos
    simp only [List.map_cons, List.sum_cons, List.length_cons]
    omega

/-- There are as many bytes as characters if all characters are ASCII. -/
theorem sum_utf8Size_eq_length_iff (cs : List Char) :
    (cs.map Char.utf8Size).sum = cs.length ↔ ∀ c ∈ cs, c.val ≤ 127 := by
  induction cs with
  | nil => simp
  | cons c cs ih =>
    have hpos := c.utf8Size_pos
    have hle := length_le_sum_utf8Size cs
    rw [List.forall_mem_cons, ← ih, ← Char.utf8Size_eq_one_iff]
    simp only [List.map_cons, List.sum_cons, List.length_cons]
    omega

/-! ## Substrings -/

/-- The characters between two positions, both included. -/
theorem substring_eq (s : String) {i j : Int} (hi : 1 ≤ i) (hj : i - 1 ≤ j) (hlength : j ≤ s.length) :
    substring [.string s, .integer i, .integer j]
      = .ok (.string (String.ofList ((s.toList.take j.toNat).drop (i - 1).toNat))) := by
  have hcut : substring [.string s, .integer i, .integer j] =
      if j < i then .ok (.string "")
      else offset i s.toList.length >>= fun k =>
        if 0 ≤ j ∧ j.toNat ≤ s.toList.length then
          .ok (.string (String.ofList ((s.toList.take j.toNat).drop k)))
        else (Cause.indexOutOfBounds j s.toList.length).fail := rfl
  have hchars : s.toList.length = s.length := String.length_toList
  rw [hcut]
  split
  · -- the empty substring between two positions
    rename_i hempty
    have hnone : (s.toList.take j.toNat).drop (i - 1).toNat = [] := by
      apply List.drop_eq_nil_of_le
      rw [List.length_take]
      omega
    rw [hnone]
  · have hoffset : offset i s.toList.length = .ok (i - 1).toNat := by
      unfold offset
      rw [if_pos]
      omega
    rw [hoffset]
    show (if 0 ≤ j ∧ j.toNat ≤ s.toList.length then _ else _) = _
    rw [if_pos]
    omega

/-- What is between two offsets, cut at a third one between them. -/
theorem slice_append {α : Type} (items : List α) {i j k : Nat} (hij : i ≤ j) (hjk : j ≤ k) :
    (items.take j).drop i ++ (items.take k).drop j = (items.take k).drop i := by
  have hlength : k - i = (j - i) + (k - j) := by omega
  have hstart : items.drop j = (items.drop i).drop (j - i) := by
    rw [List.drop_drop, Nat.add_sub_cancel' hij]
  rw [List.drop_take, List.drop_take, List.drop_take, hlength, List.take_add, hstart]

/-- The pieces of a substring that is cut at a position. -/
theorem substring_append (s : String) {i j k : Int} (hi : 1 ≤ i) (hij : i - 1 ≤ j) (hjk : j ≤ k)
    (hlength : k ≤ s.length) :
    ∃ a b, substring [.string s, .integer i, .integer j] = .ok (.string a)
      ∧ substring [.string s, .integer (j + 1), .integer k] = .ok (.string b)
      ∧ substring [.string s, .integer i, .integer k] = .ok (.string (a ++ b)) := by
  have hfirst := substring_eq s hi hij (Int.le_trans hjk hlength)
  have hsecond := substring_eq s (i := j + 1) (by omega) (by omega) hlength
  have hwhole := substring_eq s hi (Int.le_trans hij hjk) hlength
  refine ⟨_, _, hfirst, hsecond, ?_⟩
  have hoffset : (j + 1 - 1).toNat = j.toNat := by omega
  rw [hwhole, hoffset, ← String.ofList_append, slice_append]
  · omega
  · omega

/-! ## Indexing -/

/-- The characters of a string are what its positions are counted in. The list of the characters, read
at a position, is the character there; joined, it is the string; and substrings are cut at positions.
Only `stringLength` counts bytes, which are as many as the characters if all of these are ASCII. -/
theorem string_indexing (s : String) :
    stringListStringChar [.string s] = .ok (.listOf (characters s))
      ∧ lengthOf "listLength" [.listOf (characters s)] = .ok (.integer s.length)
      ∧ Builtin.External.length [.string s] = .ok (.integer s.length)
      ∧ stringLength [.string s] = .ok (.integer (s.toList.map Char.utf8Size).sum)
      ∧ (stringLength [.string s] = .ok (.integer s.length) ↔ ∀ c ∈ s.toList, c.val ≤ 127)
      ∧ (∀ i : Int,
        if 1 ≤ i ∧ i ≤ s.length then
          ∃ c, (characters s)[(i - 1).toNat]? = some c
            ∧ stringGetStringChar [.string s, .integer i] = .ok c
        else stringGetStringChar [.string s, .integer i]
          = (Cause.indexOutOfBounds i s.length).fail)
      ∧ stringAppendList [.listOf (characters s)] = .ok (.string s)
      ∧ (∀ i j k : Int, 1 ≤ i → i - 1 ≤ j → j ≤ k → k ≤ s.length →
        ∃ a b, substring [.string s, .integer i, .integer j] = .ok (.string a)
          ∧ substring [.string s, .integer (j + 1), .integer k] = .ok (.string b)
          ∧ substring [.string s, .integer i, .integer k] = .ok (.string (a ++ b)))
      ∧ substring [.string s, .integer 1, .integer s.length] = .ok (.string s) := by
  have hbytes : stringLength [.string s] = .ok (.integer (s.toList.map Char.utf8Size).sum) := by
    rw [← utf8ByteSize_eq_sum]
    rfl
  refine ⟨rfl, ?_, rfl, hbytes, ?_, stringGetStringChar_eq s, stringAppendList_characters s, ?_, ?_⟩
  · show Except.ok (Value.integer (characters s).toArray.size) = _
    simp
  · rw [hbytes, ← sum_utf8Size_eq_length_iff, String.length_toList]
    simp only [Except.ok.injEq, Value.integer.injEq]
    omega
  · intro i j k hi hij hjk hlength
    exact substring_append s hi hij hjk hlength
  · have hwhole := substring_eq s (i := 1) (j := s.length) (by omega) (by omega) (by omega)
    rw [hwhole]
    simp [← String.length_toList]

/-- A word of three characters and four bytes. -/
theorem string_indexing_accented :
    stringLength [.string "año"] ≠ .ok (.integer 3)
      ∧ stringGetStringChar [.string "año", .integer 2] = .ok (.string "ñ")
      ∧ ∃ a b, substring [.string "año", .integer 1, .integer 2] = .ok (.string a)
        ∧ substring [.string "año", .integer 3, .integer 3] = .ok (.string b)
        ∧ substring [.string "año", .integer 1, .integer 3] = .ok (.string (a ++ b)) := by
  obtain ⟨-, -, -, -, hascii, hget, -, hcut, -⟩ := string_indexing "año"
  refine ⟨?_, ?_, hcut 1 2 3 (by decide) (by decide) (by decide) (by decide)⟩
  · rintro hlength
    exact absurd (hascii.mp hlength 'ñ' (by decide)) (by decide)
  · obtain ⟨c, hc, hread⟩ := hget 2
    cases hc
    exact hread

/-- One character of two bytes. -/
theorem stringLength_counts_bytes :
    stringLength [.string "é"] = .ok (.integer 2)
      ∧ Builtin.External.length [.string "é"] = .ok (.integer 1)
      ∧ ∃ chars, stringListStringChar [.string "é"] = .ok chars
        ∧ lengthOf "listLength" [chars] = .ok (.integer 1) :=
  ⟨rfl, rfl, _, rfl, rfl⟩

end ModelicaFold
