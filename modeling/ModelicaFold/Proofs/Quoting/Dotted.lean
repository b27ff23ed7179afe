import ModelicaFold.Proofs.Quoting.Names
import ModelicaFold.Syntax.Expr

/-!
# Dotted names

A dotted text is cut at its dots. A reference keeps all pieces, so its name is the text again. A
path drops the empty pieces, so its text is the one it was read from only if there are none: no two
dots follow each other, and there is none at the start or at the end. What is left is a plain path,
from whose text nothing more would be dropped, so that it can be read off its text (`dotted_names`).
-/

namespace ModelicaFold

/-! ## Pieces of a text -/

namespace Text

/-- A piece does not contain the separator. -/
theorem not_mem_of_mem_split {sep : Char} {cs piece : List Char} (h : piece ∈ split sep cs) :
    sep ∉ piece := by
  induction cs generalizing piece with
  | nil =>
    rw [List.mem_singleton.mp h]
    exact List.not_mem_nil
  | cons c cs ih =>
    by_cases hc : c = sep
    · rw [split, if_pos hc] at h
      rcases List.mem_cons.mp h with rfl | h
      · exact List.not_mem_nil
      · exact ih h
    · -- the character goes to the first piece of what follows it
      obtain ⟨first, more, hmore⟩ := List.exists_cons_of_ne_nil (split_ne_nil sep cs)
      rw [split, if_neg hc, hmore] at h
      rw [hmore] at ih
      rcases List.mem_cons.mp h with rfl | h
      · exact List.not_mem_cons_of_ne_of_not_mem (Ne.symm hc) (ih List.mem_cons_self)
      · exact ih (List.mem_cons_of_mem first h)

/-- No piece has a separator in it. -/
theorem not_mem_of_mem_pieces {sep : Char} {s piece : String} (h : piece ∈ pieces sep s) :
    sep ∉ piece.toList := by
  obtain ⟨cs, hcs, rfl⟩ := List.mem_map.mp h
  rw [String.toList_ofList]
  exact not_mem_of_mem_split hcs

/-- A text has at least one piece. -/
theorem pieces_ne_nil (sep : Char) (s : String) : pieces sep s ≠ [] := by
  simp [pieces, split_ne_nil]

/-- Somewhere two separators follow each other. -/
def Doubled (sep : Char) (cs : List Char) : Prop := [sep, sep] <:+: cs

/-- A separator is doubled at the start of a text or in the rest. -/
theorem doubled_cons {sep c : Char} {cs : List Char} :
    Doubled sep (c :: cs) ↔ c = sep ∧ cs.head? = some sep ∨ Doubled sep cs := by
  rw [Doubled, List.infix_cons_iff, List.cons_prefix_cons, eq_comm]
  cases cs with
  | nil => simp [Doubled]
  | cons d cs => simp [Doubled, List.cons_prefix_cons, eq_comm]

/-- A piece is empty if the separators around it follow each other, where the text counts as having
one at its end, and one at its start for the first piece. -/
theorem nil_mem_split_iff (sep : Char) (cs : List Char) :
    ([] ∈ split sep cs ↔ Doubled sep (sep :: (cs ++ [sep])))
      ∧ ([] ∈ (split sep cs).tail ↔ Doubled sep (cs ++ [sep])) := by
  induction cs with
  | nil => simp [split, Doubled, List.infix_cons_iff]
  | cons c cs ih =>
    by_cases hc : c = sep
    · subst hc
      rw [split, if_pos rfl]
      exact ⟨by simp [doubled_cons], ih.1⟩
    · obtain ⟨first, more, hmore⟩ := List.exists_cons_of_ne_nil (split_ne_nil sep cs)
      rw [hmore, List.tail_cons] at ih
      rw [split, if_neg hc, hmore]
      simp [doubled_cons, hc, ih.2]

/-- In a text two separators follow each other, or it begins or ends with one, or it is empty. -/
def HasEmptyPiece (sep : Char) (s : String) : Prop := Doubled sep (sep :: (s.toList ++ [sep]))

/-- A piece is empty where two separators meet or one stands at an end. -/
theorem empty_mem_pieces_iff {sep : Char} {s : String} :
    "" ∈ pieces sep s ↔ HasEmptyPiece sep s := by
  rw [HasEmptyPiece, ← (nil_mem_split_iff sep s.toList).1, pieces]
  simp [← String.toList_inj]

end Text

/-! ## Paths -/

namespace Path

/-- The path of the empty identifier, or a path whose segments are not empty and have no dots. -/
def Plain (p : Path) : Prop :=
  p = ident "" ∨ ∀ segment ∈ p.segments, segment ≠ "" ∧ '.' ∉ segment.toList

/-- The text of a single name is the name. -/
theorem text_ident (name : String) : (ident name).text = name := by
  simp [text, ident, segments]

/-- The segments of a path made of segments are these. -/
theorem segments_ofSegments {segments : List String} (h : segments ≠ []) :
    (ofSegments segments).segments = segments := by
  cases segments with
  | nil => exact absurd rfl h
  | cons first rest => rfl

/-- A path is made of its segments. -/
theorem ofSegments_segments (p : Path) : ofSegments p.segments = p := rfl

/-- The segments of a plain path have no dots. -/
theorem Plain.dotless {p : Path} (h : p.Plain) : p.Dotless := by
  rcases h with rfl | h
  · simp [Dotless, ident, segments]
  · exact fun segment hsegment => (h segment hsegment).2

/-- What is read from a text is plain. -/
theorem plain_parse (s : String) : (parse s).Plain := by
  by_cases hnone : (Text.pieces '.' s).filter (· ≠ "") = []
  · left
    rw [parse, hnone]
    rfl
  · right
    intro segment hsegment
    rw [parse, segments_ofSegments hnone] at hsegment
    obtain ⟨hpiece, hne⟩ := List.mem_filter.mp hsegment
    exact ⟨of_decide_eq_true hne, Text.not_mem_of_mem_pieces hpiece⟩

/-- A plain path is read off its text. -/
theorem Plain.parse_text {p : Path} (h : p.Plain) : parse p.text = p := by
  rw [parse, pieces_text h.dotless]
  rcases h with rfl | h
  · rfl
  · have hall : p.segments.filter (· ≠ "") = p.segments :=
      List.filter_eq_self.mpr fun segment hsegment => decide_eq_true (h segment hsegment).1
    rw [hall, ofSegments_segments]

/-- Nothing is lost of a text without empty pieces, or of the empty text. -/
theorem text_parse_iff {s : String} :
    (parse s).text = s ↔ s = "" ∨ ¬Text.HasEmptyPiece '.' s := by
  rw [← Text.empty_mem_pieces_iff]
  constructor
  · intro h
    have hpieces : Text.pieces '.' s = (parse s).segments := by
      rw [← pieces_text (plain_parse s).dotless, h]
    rcases plain_parse s with hempty | hplain
    · left
      rw [← h, hempty, text_ident]
    · right
      rw [hpieces]
      exact fun hmem => (hplain "" hmem).1 rfl
  · rintro (rfl | h)
    · rfl
    · have hall : (Text.pieces '.' s).filter (· ≠ "") = Text.pieces '.' s :=
        List.filter_eq_self.mpr fun piece hpiece =>
          decide_eq_true fun hempty => h (hempty ▸ hpiece)
      rw [parse, hall, text, segments_ofSegments (Text.pieces_ne_nil '.' s)]
      exact Text.intercalate_pieces '.' s

end Path

/-- A reference has the name that it was read from. A path that was read is read again from its own
text; it has a segment, and none of its segments is empty or has a dot in it unless it is the path
of the empty identifier. Its text is the one that it was read from just if that is empty or has no
empty piece. -/
theorem dotted_names (s : String) :
    (Reference.ofName s).name = s
      ∧ Path.parse (Path.parse s).text = Path.parse s
      ∧ (Path.parse s).segments ≠ []
      ∧ (Path.parse s = Path.ident ""
        ∨ ∀ segment ∈ (Path.parse s).segments, segment ≠ "" ∧ '.' ∉ segment.toList)
      ∧ ((Path.parse s).text = s ↔ s = "" ∨ ¬Text.HasEmptyPiece '.' s) :=
  ⟨Reference.name_ofName s, (Path.plain_parse s).parse_text, List.cons_ne_nil _ _,
    Path.plain_parse s, Path.text_parse_iff⟩

/-- The dots at the start and between two dots are not kept. -/
example : (Path.parse ".Modelica..Math").text = "Modelica.Math" := by decide

end ModelicaFold
