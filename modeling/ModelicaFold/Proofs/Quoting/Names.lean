import ModelicaFold.Proofs.Integers.Scanning
import ModelicaFold.Syntax.Path

/-!
# Written names and numbers

The text of a name or of a number goes on to the first blank outside quotes, so two texts that start
with one start with the same one (`Unbroken.append_inj`). Which number it is, or which segments the
name has, can be read off the text: the segments have no dots (`Path.text_injective`).
-/

namespace ModelicaFold

/-! ## Texts that go on to a blank -/

/-- Where in a name one is: outside or inside quotes, or after a backslash inside. -/
inductive Quote where
  | outside
  | inside
  | escaped

/-- One character further. A blank outside quotes is not part of a name. -/
def Quote.next? : Quote → Char → Option Quote
  | .outside, ' ' => none
  | .outside, '\x27' => some .inside
  | .outside, _ => some .outside
  | .inside, '\x27' => some .outside
  | .inside, '\\' => some .escaped
  | .inside, _ => some .inside
  | .escaped, _ => some .inside

/-- A text without a blank outside quotes, in which every quote is closed. -/
def Unbroken : Quote → List Char → Prop
  | q, [] => q = .outside
  | q, c :: cs => ∃ q', q.next? c = some q' ∧ Unbroken q' cs

/-- Nothing, or what comes from a blank on. -/
def Apart (rest : List Char) : Prop := ∀ c ∈ rest.head?, c = ' '

/-- A name outside quotes does not go on with a blank. -/
theorem Unbroken.ne_blank {c : Char} {cs : List Char} (h : Unbroken .outside (c :: cs)) :
    c ≠ ' ' := by
  rintro rfl
  obtain ⟨q, hq, -⟩ := h
  cases hq

/-- Where a name ends can be seen from the text. -/
theorem Unbroken.append_inj {q : Quote} {s t rest rest' : List Char} (hs : Unbroken q s)
    (ht : Unbroken q t) (hrest : Apart rest) (hrest' : Apart rest')
    (h : s ++ rest = t ++ rest') : s = t ∧ rest = rest' := by
  induction s generalizing q t with
  | nil =>
    obtain rfl : q = .outside := hs
    match t with
    | [] => exact ⟨rfl, h⟩
    | c :: t =>
      -- the other text would have to go on with the blank that follows here
      rw [List.nil_append] at h
      exact absurd (hrest c (by simp [h])) ht.ne_blank
  | cons c s ih =>
    match t with
    | [] =>
      obtain rfl : q = .outside := ht
      rw [List.nil_append] at h
      exact absurd (hrest' c (by simp [← h])) hs.ne_blank
    | d :: t =>
      obtain ⟨rfl, hmore⟩ := List.cons.inj h
      obtain ⟨q', hq, hs⟩ := hs
      obtain ⟨q'', hq', ht⟩ := ht
      obtain rfl := Option.some.inj (hq.symm.trans hq')
      obtain ⟨rfl, hsame⟩ := ih hs ht hmore
      exact ⟨rfl, hsame⟩

/-- A text without blanks and quotes. -/
theorem unbroken_of_plain {t : List Char} (h : ∀ c ∈ t, c ≠ ' ' ∧ c ≠ '\x27') :
    Unbroken .outside t := by
  induction t with
  | nil => rfl
  | cons c t ih =>
    obtain ⟨⟨hblank, hquote⟩, hmore⟩ := List.forall_mem_cons.mp h
    have hnext : Quote.outside.next? c = some .outside := by
      unfold Quote.next?
      split <;> simp_all
    exact ⟨_, hnext, ih hmore⟩

/-! ## Numbers -/

/-- Digits have no blank. -/
theorem Digits.unbroken {t : List Char} (h : Digits t) : Unbroken .outside t := by
  apply unbroken_of_plain
  intro c hc
  have hdigit := h c hc
  constructor
  · rintro rfl
    cases hdigit
  · rintro rfl
    cases hdigit

/-- A number that is not negative is written with digits only. -/
theorem toList_natural (n : Nat) : (toString (n : Int)).toList = Nat.toDigits 10 n := by
  rw [toList_toString, if_neg (by omega)]
  rfl

/-- An Integer can be read off its text. -/
theorem toString_injective {m n : Int} (h : toString m = toString n) : m = n := by
  have hm := denotes_toString m
  rw [h] at hm
  exact hm.unique (denotes_toString n)

/-! ## Segments -/

/-- Characters before a text, none of them a separator, go to its first piece. -/
theorem Text.split_append {sep : Char} {piece cs first : List Char} {more : List (List Char)}
    (hpiece : sep ∉ piece) (hcs : split sep cs = first :: more) :
    split sep (piece ++ cs) = (piece ++ first) :: more := by
  induction piece with
  | nil => exact hcs
  | cons c piece ih =>
    have hc : c ≠ sep := fun hc => hpiece (hc ▸ List.mem_cons_self)
    rw [List.cons_append, split, if_neg hc, ih fun hmem => hpiece (List.mem_cons_of_mem c hmem)]
    rfl

/-- Pieces without separators are found again in the text that they are joined to. -/
theorem Text.split_intercalate {sep : Char} {pieces : List (List Char)} (hne : pieces ≠ [])
    (h : ∀ piece ∈ pieces, sep ∉ piece) : split sep ([sep].intercalate pieces) = pieces := by
  induction pieces with
  | nil => exact absurd rfl hne
  | cons piece pieces ih =>
    obtain ⟨hpiece, hmore⟩ := List.forall_mem_cons.mp h
    by_cases hlast : pieces = []
    · have halone : split sep (piece ++ []) = [piece ++ []] := split_append hpiece rfl
      rw [List.append_nil] at halone
      rw [hlast, List.intercalate_singleton, halone]
    · have hnext : split sep (sep :: [sep].intercalate pieces) = [] :: pieces := by
        rw [split, if_pos rfl, ih hlast hmore]
      rw [List.intercalate_cons_of_ne_nil hlast, List.append_assoc, List.singleton_append,
        split_append hpiece hnext, List.append_nil]

/-- A path whose segments have no dots. -/
def Path.Dotless (p : Path) : Prop := ∀ s ∈ p.segments, '.' ∉ s.toList

/-- A path without dots in its segments is cut at the dots into its segments. -/
theorem Path.pieces_text {p : Path} (h : p.Dotless) : Text.pieces '.' p.text = p.segments := by
  have hjoin : p.text.toList = ['.'].intercalate (p.segments.map String.toList) := by
    simp [Path.text]
  have hpieces : ∀ piece ∈ p.segments.map String.toList, '.' ∉ piece := by
    intro piece hpiece
    obtain ⟨s, hs, rfl⟩ := List.mem_map.mp hpiece
    exact h s hs
  rw [Text.pieces, hjoin, Text.split_intercalate (by simp [Path.segments]) hpieces]
  simp

/-- Such a path can be read off its text. -/
theorem Path.text_injective {p q : Path} (hp : p.Dotless) (hq : q.Dotless) (h : p.text = q.text) :
    p = q := by
  have hsegments : p.segments = q.segments := by rw [← pieces_text hp, h, pieces_text hq]
  obtain ⟨hfirst, hrest⟩ := List.cons.inj hsegments
  cases p
  cases q
  exact congrArg₂ Path.mk hfirst hrest

/-- A path that is written as a name: it starts with neither a digit nor a sign. -/
structure Path.IsName (p : Path) : Prop where
  dotless : p.Dotless
  unbroken : Unbroken .outside p.text.toList
  start : ∃ c ∈ p.text.toList.head?, c.isDigit = false ∧ c ≠ '-'

end ModelicaFold
