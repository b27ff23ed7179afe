import ModelicaFold.Proofs.Quoting.Names
import ModelicaFold.Syntax.Code

/-!
# Printed arithmetic

Arithmetic in quoted code is numbers, names, binary operators and minus signs. It is printed as a
phrase: operands with minus signs before them, and operators in between (`Code.text_eq`). A phrase
can be read off its text (`Phrase.chars_injective`), so pieces of code have one text if and only if
they have one phrase.

What a phrase leaves out is the tree, and no parentheses show it. Only a phrase with one operator at
most, and without a sign before that, is the phrase of a single tree (`Code.IsArithmetic.regroup`,
`Code.IsArithmetic.unique_of_isRigid`).
-/

namespace ModelicaFold

namespace Code

/-- A number that is not negative, or a name without subscripts. -/
inductive IsOperand : Code → Prop where
  | natural (n : Nat) : IsOperand (.integer n)
  | name {p : Path} (h : p.IsName) : IsOperand (.reference p [])

/-- Code that consists of operands, the operators `+`, `-`, `*`, `/` and `^`, and minus signs. -/
inductive IsArithmetic : Code → Prop where
  | operand {c : Code} (h : c.IsOperand) : IsArithmetic c
  | binary {lhs rhs : Code} (op : Arith) (hl : IsArithmetic lhs) (hr : IsArithmetic rhs) :
    IsArithmetic (.binary lhs (.arith op false) rhs)
  | minus {c : Code} (h : IsArithmetic c) : IsArithmetic (.unary .minus c)

end Code

/-! ## Phrases -/

/-- An operand with the minus signs before it. -/
@[ext]
structure Factor where
  signs : Nat
  operand : Code

/-- Factors with an operator before each but the first. -/
@[ext]
structure Phrase where
  first : Factor
  rest : List (Arith × Factor)

namespace Phrase

/-- A phrase, an operator and another phrase. -/
def append (p : Phrase) (op : Arith) (q : Phrase) : Phrase :=
  ⟨p.first, p.rest ++ (op, q.first) :: q.rest⟩

/-- A phrase after one more minus sign. -/
def negated (p : Phrase) : Phrase := ⟨⟨p.first.signs + 1, p.first.operand⟩, p.rest⟩

/-- A sign before a phrase can be taken away again. -/
theorem negated_inj {p q : Phrase} (h : p.negated = q.negated) : p = q := by
  obtain ⟨hfirst, hrest⟩ := Phrase.mk.inj h
  obtain ⟨hsigns, hoperand⟩ := Factor.mk.inj hfirst
  exact Phrase.ext (Factor.ext (Nat.succ.inj hsigns) hoperand) hrest

/-- The operands of a phrase. -/
def operands (p : Phrase) : List Code := p.first.operand :: p.rest.map fun step => step.2.operand

/-- The operands of two phrases with an operator in between are those of the first and then those of
the second. -/
@[simp]
theorem operands_append (p q : Phrase) (op : Arith) :
    (p.append op q).operands = p.operands ++ q.operands := by
  simp [operands, append]

/-- A sign before a phrase leaves its operands as they are. -/
@[simp]
theorem operands_negated (p : Phrase) : p.negated.operands = p.operands := rfl

end Phrase

/-- The written form of a factor. -/
def Factor.chars (f : Factor) : List Char := List.replicate f.signs '-' ++ f.operand.text.toList

/-- The written form of operators and factors. -/
def stepChars : List (Arith × Factor) → List Char
  | [] => []
  | (op, f) :: more => ' ' :: (op.symbol.toList ++ ' ' :: (f.chars ++ stepChars more))

/-- The written form of a phrase. -/
def Phrase.chars (p : Phrase) : List Char := p.first.chars ++ stepChars p.rest

/-- The characters of steps together are those of the first and then those of the rest. -/
theorem stepChars_append (steps more : List (Arith × Factor)) :
    stepChars (steps ++ more) = stepChars steps ++ stepChars more := by
  induction steps with
  | nil => rfl
  | cons step steps ih => simp [stepChars, ih]

namespace Code

/-- The phrase as which a piece of code is printed; what is not arithmetic is an operand. -/
def phrase : Code → Phrase
  | .binary lhs (.arith op false) rhs => lhs.phrase.append op rhs.phrase
  | .unary .minus c => c.phrase.negated
  | c => ⟨⟨0, c⟩, []⟩

/-- The phrase of an operand is the operand alone. -/
theorem IsOperand.phrase_eq {c : Code} (h : c.IsOperand) : c.phrase = ⟨⟨0, c⟩, []⟩ := by
  cases h <;> rfl

/-- Code is printed as its phrase. -/
theorem text_eq (c : Code) : c.text.toList = c.phrase.chars := by
  fun_induction phrase c with
  | case1 lhs op rhs ihl ihr =>
    simp [text, ihl, ihr, Phrase.chars, Phrase.append, stepChars_append, stepChars, CodeOp.symbol]
  | case2 c ih =>
    simp [text, ih, Phrase.chars, Phrase.negated, Factor.chars, CodeOp.symbol, List.replicate_succ]
  | case3 => simp [Phrase.chars, Factor.chars, stepChars]

/-- The operands of arithmetic are operands. -/
theorem IsArithmetic.operands {c : Code} (h : c.IsArithmetic) :
    ∀ d ∈ c.phrase.operands, d.IsOperand := by
  induction h with
  | @operand c h =>
    rw [h.phrase_eq]
    simpa [Phrase.operands] using h
  | @binary lhs rhs op _ _ ihl ihr =>
    intro d hd
    rw [phrase, Phrase.operands_append, List.mem_append] at hd
    exact hd.elim (ihl d) (ihr d)
  | @minus c _ ih =>
    rw [phrase, Phrase.operands_negated]
    exact ih

/-! ## Operands -/

/-- The text of an operand has no blank outside quotes. -/
theorem IsOperand.unbroken {c : Code} (h : c.IsOperand) : Unbroken .outside c.text.toList := by
  cases h with
  | natural n =>
    rw [text, toList_natural]
    exact (Digits.toDigits n).unbroken
  | @name p h => simpa [text] using h.unbroken

/-- An operand does not start with a minus sign. -/
theorem IsOperand.start {c : Code} (h : c.IsOperand) : ∃ a ∈ c.text.toList.head?, a ≠ '-' := by
  cases h with
  | natural n =>
    rw [text, toList_natural]
    obtain ⟨a, t, ht⟩ := List.exists_cons_of_ne_nil (Nat.toDigits_ne_nil (n := n) (b := 10))
    refine ⟨a, by simp [ht], ?_⟩
    exact ((Digits.toDigits n).ne_sign (by simp [ht])).2
  | @name p h =>
    obtain ⟨a, ha, -, hsign⟩ := h.start
    exact ⟨a, by simpa [text] using ha, hsign⟩

/-- A number is not a name. -/
theorem natural_text_ne (n : Nat) {p : Path} (h : p.IsName) : toString (n : Int) ≠ p.text := by
  intro hsame
  obtain ⟨a, ha, hdigit, -⟩ := h.start
  rw [← hsame, toList_natural] at ha
  have hnumber := Digits.toDigits n a (List.mem_of_mem_head? ha)
  rw [hdigit] at hnumber
  cases hnumber

/-- An operand can be read off its text. -/
theorem IsOperand.text_injective {c d : Code} (hc : c.IsOperand) (hd : d.IsOperand)
    (h : c.text = d.text) : c = d := by
  cases hc with
  | natural m =>
    cases hd with
    | natural n => exact congrArg Code.integer (toString_injective (by simpa only [text] using h))
    | name hq => exact absurd (by simpa [text] using h) (natural_text_ne m hq)
  | @name p hp =>
    cases hd with
    | natural n => exact absurd (by simpa [text] using h.symm) (natural_text_ne n hp)
    | @name q hq =>
      have hpath : p.text = q.text := by simpa [text] using h
      rw [Path.text_injective hp.dotless hq.dotless hpath]

end Code

/-! ## Reading a phrase off its text -/

/-- Signs before a text do not break it. -/
theorem unbroken_signs (n : Nat) {t : List Char} (h : Unbroken .outside t) :
    Unbroken .outside (List.replicate n '-' ++ t) := by
  induction n with
  | zero => exact h
  | succ n ih => exact ⟨_, rfl, ih⟩

/-- How many minus signs come first can be seen if something else follows. -/
theorem signs_inj {m n : Nat} {s t : List Char} (hs : ∃ a ∈ s.head?, a ≠ '-')
    (ht : ∃ a ∈ t.head?, a ≠ '-') (h : List.replicate m '-' ++ s = List.replicate n '-' ++ t) :
    m = n ∧ s = t := by
  induction m generalizing n with
  | zero =>
    cases n with
    | zero => exact ⟨rfl, h⟩
    | succ n =>
      obtain ⟨a, ha, hne⟩ := hs
      rw [List.replicate_zero, List.nil_append] at h
      rw [h] at ha
      exact absurd (Option.some.inj ha).symm hne
  | succ m ih =>
    cases n with
    | zero =>
      obtain ⟨a, ha, hne⟩ := ht
      rw [List.replicate_zero, List.nil_append] at h
      rw [← h] at ha
      exact absurd (Option.some.inj ha).symm hne
    | succ n =>
      obtain ⟨rfl, hsame⟩ := ih (List.cons.inj h).2
      exact ⟨rfl, hsame⟩

/-- Where a factor ends, and which it is, can be seen from the text. -/
theorem Factor.append_inj {f g : Factor} (hf : f.operand.IsOperand) (hg : g.operand.IsOperand)
    {rest rest' : List Char} (hrest : Apart rest) (hrest' : Apart rest')
    (h : f.chars ++ rest = g.chars ++ rest') : f = g ∧ rest = rest' := by
  obtain ⟨hchars, hmore⟩ := Unbroken.append_inj (unbroken_signs f.signs hf.unbroken)
    (unbroken_signs g.signs hg.unbroken) hrest hrest' h
  obtain ⟨hsigns, htext⟩ := signs_inj hf.start hg.start hchars
  exact ⟨Factor.ext hsigns (hf.text_injective hg (String.toList_inj.mp htext)), hmore⟩

/-- An operator can be read off the start of a text. -/
theorem Arith.symbol_append_inj {op op' : Arith} {t t' : List Char}
    (h : op.symbol.toList ++ t = op'.symbol.toList ++ t') : op = op' ∧ t = t' := by
  cases op <;> cases op' <;> simp_all [Arith.symbol]

/-- The characters of the steps begin with a blank, unless there are none. -/
theorem apart_stepChars (steps : List (Arith × Factor)) : Apart (stepChars steps) := by
  cases steps with
  | nil => simp [Apart, stepChars]
  | cons step steps => simp [Apart, stepChars]

/-- Steps can be read off their characters. -/
theorem stepChars_injective {steps steps' : List (Arith × Factor)}
    (hs : ∀ step ∈ steps, step.2.operand.IsOperand)
    (hs' : ∀ step ∈ steps', step.2.operand.IsOperand) (h : stepChars steps = stepChars steps') :
    steps = steps' := by
  induction steps generalizing steps' with
  | nil =>
    cases steps' with
    | nil => rfl
    | cons => cases h
  | cons step steps ih =>
    cases steps' with
    | nil => cases h
    | cons step' steps' =>
      obtain ⟨hstep, hmore⟩ := List.forall_mem_cons.mp hs
      obtain ⟨hstep', hmore'⟩ := List.forall_mem_cons.mp hs'
      obtain ⟨hop, hfactor⟩ := Arith.symbol_append_inj (List.cons.inj h).2
      obtain ⟨hfactor, hrest⟩ := Factor.append_inj hstep hstep' (apart_stepChars steps)
        (apart_stepChars steps') (List.cons.inj hfactor).2
      rw [Prod.ext hop hfactor, ih hmore hmore' hrest]

/-- A phrase can be read off its characters. -/
theorem Phrase.chars_injective {p q : Phrase} (hp : ∀ c ∈ p.operands, c.IsOperand)
    (hq : ∀ c ∈ q.operands, c.IsOperand) (h : p.chars = q.chars) : p = q := by
  obtain ⟨hfirst, hrest⟩ := List.forall_mem_cons.mp hp
  obtain ⟨hfirst', hrest'⟩ := List.forall_mem_cons.mp hq
  rw [List.forall_mem_map] at hrest hrest'
  obtain ⟨hfactor, hsteps⟩ := Factor.append_inj hfirst hfirst' (apart_stepChars _)
    (apart_stepChars _) h
  exact Phrase.ext hfactor (stepChars_injective hrest hrest' hsteps)

/-- Arithmetic is printed alike if and only if it has one phrase. -/
theorem Code.IsArithmetic.text_eq_iff {c d : Code} (hc : c.IsArithmetic) (hd : d.IsArithmetic) :
    c.text = d.text ↔ c.phrase = d.phrase := by
  rw [← String.toList_inj, text_eq, text_eq]
  constructor
  · exact Phrase.chars_injective hc.operands hd.operands
  · intro h
    rw [h]

/-! ## Phrases of a single tree -/

/-- A phrase with at most one operator, and without a sign before it that could be one of the first
factor or of all. -/
def Phrase.IsRigid (p : Phrase) : Prop := p.rest ≠ [] → p.first.signs = 0 ∧ p.rest.length = 1

/-- The operands of a single operator. -/
theorem Phrase.rest_nil_of_append {p q : Phrase} {op : Arith}
    (h : (p.append op q).rest.length = 1) : p.rest = [] ∧ q.rest = [] := by
  simp only [append, List.length_append, List.length_cons] at h
  exact ⟨List.length_eq_zero_iff.mp (by omega), List.length_eq_zero_iff.mp (by omega)⟩

namespace Code

/-- No expression is its own left operand. -/
theorem ne_binary (lhs : Code) (op : CodeOp) (rhs : Code) : lhs ≠ .binary lhs op rhs := by
  intro h
  have hsize := congrArg sizeOf h
  simp only [binary.sizeOf_spec] at hsize
  omega

/-- Arithmetic with any other phrase can be grouped differently: two operators next to each other in
the tree exchange their places, or a sign and an operator do. -/
theorem IsArithmetic.regroup {c : Code} (hc : c.IsArithmetic) (h : ¬c.phrase.IsRigid) :
    ∃ d : Code, d.IsArithmetic ∧ c.phrase = d.phrase ∧ c ≠ d := by
  induction hc with
  | operand hc =>
    rw [hc.phrase_eq] at h
    exact absurd (fun hne => absurd rfl hne) h
  | @minus c hc ih =>
    have hne : c.phrase.rest ≠ [] := fun hnil => h fun hne => absurd hnil hne
    cases hc with
    | operand hc => exact absurd (by rw [hc.phrase_eq]) hne
    | @binary lhs rhs op hl hr =>
      -- the sign of all becomes the sign of the left operand
      exact ⟨.binary (.unary .minus lhs) (.arith op false) rhs, .binary op (.minus hl) hr, rfl,
        Code.noConfusion⟩
    | minus hc =>
      obtain ⟨d, hd, hphrase, hdiff⟩ := ih fun hrigid => Nat.succ_ne_zero _ (hrigid hne).1
      exact ⟨.unary .minus d, .minus hd, congrArg Phrase.negated hphrase,
        fun hsame => hdiff (unary.inj hsame).2⟩
  | @binary lhs rhs op hl hr _ ihr =>
    cases hl with
    | @minus c hl =>
      exact ⟨.unary .minus (.binary c (.arith op false) rhs), .minus (.binary op hl hr), rfl,
        Code.noConfusion⟩
    | @binary first second before hfirst hsecond =>
      refine ⟨.binary first (.arith before false) (.binary second (.arith op false) rhs),
        .binary before hfirst (.binary op hsecond hr), ?_, ?_⟩
      · simp [phrase, Phrase.append]
      · intro hsame
        exact ne_binary _ _ _ (binary.inj hsame).1.symm
    | operand hl =>
      -- a single operand on the left, so there is another operator on the right
      have hne : rhs.phrase.rest ≠ [] := by
        intro hnil
        apply h
        intro _
        simp [phrase, Phrase.append, hl.phrase_eq, hnil]
      cases hr with
      | operand hr => exact absurd (by rw [hr.phrase_eq]) hne
      | @binary second third after hsecond hthird =>
        refine ⟨.binary (.binary lhs (.arith op false) second) (.arith after false) third,
          .binary after (.binary op (.operand hl) hsecond) hthird, ?_, ?_⟩
        · simp [phrase, Phrase.append]
        · intro hsame
          exact ne_binary _ _ _ (binary.inj hsame).1
      | minus hr =>
        obtain ⟨d, hd, hphrase, hdiff⟩ := ihr fun hrigid => Nat.succ_ne_zero _ (hrigid hne).1
        refine ⟨.binary lhs (.arith op false) d, .binary op (.operand hl) hd, ?_, ?_⟩
        · rw [phrase, phrase, hphrase]
        · intro hsame
          exact hdiff (binary.inj hsame).2.2

/-- The phrase of an operand is the phrase of no other arithmetic. -/
theorem IsOperand.eq_of_phrase_eq {c d : Code} (hc : c.IsOperand) (hd : d.IsArithmetic)
    (h : c.phrase = d.phrase) : c = d := by
  rw [hc.phrase_eq] at h
  cases hd with
  | operand hd =>
    rw [hd.phrase_eq] at h
    exact congrArg (fun p => p.first.operand) h
  | binary => simp [phrase, Phrase.append] at h
  | minus => simp [phrase, Phrase.negated] at h

/-- Without operators, a tree is determined by its phrase. -/
theorem IsArithmetic.unique_of_rest_nil {c d : Code} (hc : c.IsArithmetic) (hd : d.IsArithmetic)
    (hrest : c.phrase.rest = []) (h : c.phrase = d.phrase) : c = d := by
  induction hc generalizing d with
  | operand hc => exact hc.eq_of_phrase_eq hd h
  | binary => simp [phrase, Phrase.append] at hrest
  | minus hc ih =>
    cases hd with
    | operand hd => exact (hd.eq_of_phrase_eq (.minus hc) h.symm).symm
    | binary =>
      rw [h] at hrest
      simp [phrase, Phrase.append] at hrest
    | minus hd => rw [ih hd hrest (Phrase.negated_inj h)]

/-- A tree is determined by a phrase that cannot be grouped differently. -/
theorem IsArithmetic.unique_of_isRigid {c d : Code} (hc : c.IsArithmetic) (hd : d.IsArithmetic)
    (hrigid : c.phrase.IsRigid) (h : c.phrase = d.phrase) : c = d := by
  by_cases hrest : c.phrase.rest = []
  · exact hc.unique_of_rest_nil hd hrest h
  obtain ⟨hsigns, hone⟩ := hrigid hrest
  cases hc with
  | operand hc => exact hc.eq_of_phrase_eq hd h
  | minus => cases hsigns
  | @binary lhs rhs op hl hr =>
    cases hd with
    | operand hd => exact (hd.eq_of_phrase_eq (.binary op hl hr) h.symm).symm
    | minus =>
      rw [h] at hsigns
      cases hsigns
    | @binary lhs' rhs' op' hl' hr' =>
      obtain ⟨hlnil, hrnil⟩ := Phrase.rest_nil_of_append hone
      rw [h] at hone
      obtain ⟨hlnil', hrnil'⟩ := Phrase.rest_nil_of_append hone
      obtain ⟨hfirst, hsteps⟩ := Phrase.mk.inj h
      rw [hlnil, hlnil', hrnil, hrnil', List.nil_append, List.nil_append] at hsteps
      obtain ⟨rfl, hfactor⟩ := Prod.mk.inj (List.cons.inj hsteps).1
      rw [hl.unique_of_rest_nil hl' hlnil (Phrase.ext hfirst (hlnil.trans hlnil'.symm)),
        hr.unique_of_rest_nil hr' hrnil (Phrase.ext hfactor (hrnil.trans hrnil'.symm))]

end Code

end ModelicaFold
