/-!
# Texts cut at a separator

`split` cuts a text at every occurrence of one character and keeps empty pieces, so that joining
the pieces with the separator gives the text back (`join_split`).
-/

namespace ModelicaFold.Text

/-- The pieces of a character sequence between occurrences of `sep`, the empty ones included. -/
def split (sep : Char) : List Char → List (List Char)
  | [] => [[]]
  | c :: cs =>
    if c = sep then [] :: split sep cs
    else
      match split sep cs with
      | [] => [[c]]
      | piece :: pieces => (c :: piece) :: pieces

/-- The pieces of a text between occurrences of `sep`, the empty ones included. -/
def pieces (sep : Char) (s : String) : List String :=
  (split sep s.toList).map String.ofList

/-- The items of a comma-separated enumeration. -/
def commaSeparated (items : List String) : String :=
  ", ".intercalate items

/-- Sizes as they stand in messages: `[2, 3]`. -/
def bracketed (items : List Nat) : String :=
  "[" ++ commaSeparated (items.map toString) ++ "]"

/-! ## Nothing is lost -/

/-- There is at least one piece. -/
theorem split_ne_nil (sep : Char) (cs : List Char) : split sep cs ≠ [] := by
  cases cs with
  | nil => simp [split]
  | cons c cs =>
    unfold split
    split
    · simp
    · split <;> simp

/-- The pieces joined by the separator are the characters that were cut. -/
theorem join_split (sep : Char) (cs : List Char) : [sep].intercalate (split sep cs) = cs := by
  induction cs with
  | nil => simp [split]
  | cons c cs ih =>
    obtain ⟨piece, pieces, h⟩ := List.exists_cons_of_ne_nil (split_ne_nil sep cs)
    rw [h] at ih
    by_cases hc : c = sep
    · subst hc
      simp only [split, h, if_true]
      cases pieces <;> simp_all [List.intercalate]
    · simp only [split, h, if_neg hc]
      cases pieces <;> simp_all [List.intercalate]

/-- The pieces joined by the separator are the text that was cut. -/
theorem intercalate_pieces (sep : Char) (s : String) :
    (String.singleton sep).intercalate (pieces sep s) = s := by
  apply String.toList_inj.mp
  simp [pieces, Function.comp_def, join_split]

end ModelicaFold.Text
