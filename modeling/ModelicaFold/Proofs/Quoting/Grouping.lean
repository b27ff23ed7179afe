import ModelicaFold.Proofs.Quoting.Phrases

/-!
# The grouping of printed arithmetic

A phrase is usually read with `^` before `*` and `/`, these before `+` and `-`, operators of one level
from the left, and a minus sign as the sign of the first term. Code whose tree is grouped in this way
is the only such code with its text, and every phrase without further signs is the phrase of some.
Other code is printed without parentheses all the same, so it is taken for different code by the usual
reading; every piece of code with two operators shares its text with another (`printed_grouping`).
-/

namespace ModelicaFold

/-! ## Lists cut at the last item with a property -/

section LastCut

variable {α : Type} {P : α → Prop} {xs xs' ys ys' : List α} {a a' : α}

/-- If no item after the first has a property, one that has it is the first. -/
theorem nil_of_cons_eq_append {more : List α} (hys : ∀ y ∈ ys, ¬P y) (ha' : P a')
    (h : a :: ys = more ++ a' :: ys') : more = [] := by
  cases more with
  | nil => rfl
  | cons b more =>
    obtain ⟨-, rfl⟩ := List.cons.inj h
    exact absurd ha' (hys a' (by simp))

/-- Two lists that agree, cut at the last item with some property, are cut in one place. -/
theorem last_cut_unique (ha : P a) (ha' : P a') (hys : ∀ y ∈ ys, ¬P y) (hys' : ∀ y ∈ ys', ¬P y)
    (h : xs ++ a :: ys = xs' ++ a' :: ys') : xs = xs' ∧ a = a' ∧ ys = ys' := by
  rcases List.append_eq_append_iff.mp h with ⟨more, rfl, hmore⟩ | ⟨more, rfl, hmore⟩
  · obtain rfl := nil_of_cons_eq_append hys ha' hmore
    exact ⟨(List.append_nil xs).symm, List.cons.inj hmore⟩
  · obtain rfl := nil_of_cons_eq_append hys' ha hmore
    exact ⟨List.append_nil xs', List.cons.inj hmore.symm⟩

end LastCut

/-! ## The usual reading -/

/-- How tightly an operator binds. -/
def Arith.level : Arith → Nat
  | .add | .sub => 0
  | .mul | .div => 1
  | .pow => 2

namespace Code

/-- The tree of a usual reading in which no operator binds less tightly than `level` says. -/
inductive IsGrouped : Nat → Code → Prop where
  | operand {c : Code} (level : Nat) (h : c.IsOperand) : IsGrouped level c
  | binary {lhs rhs : Code} {level : Nat} (op : Arith) (hlevel : level ≤ op.level)
    (hl : IsGrouped op.level lhs) (hr : IsGrouped (op.level + 1) rhs) :
    IsGrouped level (.binary lhs (.arith op false) rhs)
  | minus {c : Code} (h : IsGrouped 1 c) : IsGrouped 0 (.unary .minus c)

variable {c d x : Code} {level : Nat}

namespace IsGrouped

/-- Code that is grouped is arithmetic. -/
theorem isArithmetic (h : c.IsGrouped level) : c.IsArithmetic := by
  induction h with
  | operand _ h => exact .operand h
  | binary op _ _ _ ihl ihr => exact .binary op ihl ihr
  | minus _ ih => exact .minus ih

/-- Code that is grouped at a level is grouped at every lower one. -/
theorem anti (h : c.IsGrouped level) {lower : Nat} (hle : lower ≤ level) : c.IsGrouped lower := by
  cases h with
  | operand _ h => exact .operand lower h
  | binary op hlevel hl hr => exact .binary op (hle.trans hlevel) hl hr
  | minus h =>
    obtain rfl := Nat.le_zero.mp hle
    exact .minus h

/-- No operator binds less tightly. -/
theorem level_le (h : c.IsGrouped level) : ∀ step ∈ c.phrase.rest, level ≤ step.1.level := by
  induction h with
  | operand _ h => simp [h.phrase_eq]
  | @binary lhs rhs level op hlevel _ _ ihl ihr =>
    intro step hstep
    rw [phrase, Phrase.append, List.mem_append, List.mem_cons] at hstep
    rcases hstep with hstep | rfl | hstep
    · exact hlevel.trans (ihl step hstep)
    · exact hlevel
    · have hr := ihr step hstep
      omega
  | minus => simp

/-- There is at most one sign before the first factor, and none if an operator binds the factor. -/
theorem signs_first (h : c.IsGrouped level) : c.phrase.first.signs ≤ 1 - level := by
  induction h with
  | operand _ h =>
    rw [h.phrase_eq]
    exact Nat.zero_le _
  | binary op hlevel _ _ ihl _ => exact ihl.trans (Nat.sub_le_sub_left hlevel 1)
  | minus _ ih => exact Nat.succ_le_succ ih

/-- There are no signs before the factors that follow. -/
theorem signs_rest (h : c.IsGrouped level) : ∀ step ∈ c.phrase.rest, step.2.signs = 0 := by
  induction h with
  | operand _ h => simp [h.phrase_eq]
  | @binary lhs rhs level op _ _ hr ihl ihr =>
    intro step hstep
    rw [phrase, Phrase.append, List.mem_append, List.mem_cons] at hstep
    rcases hstep with hstep | rfl | hstep
    · exact ihl step hstep
    · have hsigns := hr.signs_first
      show rhs.phrase.first.signs = 0
      omega
    · exact ihr step hstep
  | minus _ ih => exact ih

end IsGrouped

/-! ## One tree for a phrase -/

namespace IsGrouped

/-- The operator at the root of a tree is the last of those that bind least tightly. -/
theorem root_unique {lhs rhs lhs' rhs' : Code} {op op' : Arith}
    (hl : lhs.IsGrouped op.level) (hr : rhs.IsGrouped (op.level + 1))
    (hl' : lhs'.IsGrouped op'.level) (hr' : rhs'.IsGrouped (op'.level + 1))
    (h : lhs.phrase.append op rhs.phrase = lhs'.phrase.append op' rhs'.phrase) :
    lhs.phrase = lhs'.phrase ∧ op = op' ∧ rhs.phrase = rhs'.phrase := by
  obtain ⟨hfirst, hrest⟩ := Phrase.mk.inj h
  have hlevel : op.level = op'.level := by
    apply Nat.le_antisymm
    · refine (binary op le_rfl hl hr).level_le (op', rhs'.phrase.first) ?_
      rw [phrase, h]
      simp [Phrase.append]
    · refine (binary op' le_rfl hl' hr').level_le (op, rhs.phrase.first) ?_
      rw [phrase, ← h]
      simp [Phrase.append]
  obtain ⟨hsteps, hstep, hsteps'⟩ := last_cut_unique
    (P := fun step : Arith × Factor => step.1.level ≤ op.level) le_rfl hlevel.ge
    (fun step hstep => Nat.not_le.mpr (hr.level_le step hstep))
    (fun step hstep => hlevel ▸ Nat.not_le.mpr (hr'.level_le step hstep)) hrest
  obtain ⟨hop, hfactor⟩ := Prod.mk.inj hstep
  exact ⟨Phrase.ext hfirst hsteps, hop, Phrase.ext hfactor hsteps'⟩

/-- A sign before the first term is not one before the first operand of a tighter operator. -/
theorem negated_ne_append {lhs : Code} {op : Arith} {q : Phrase} (hc : c.IsGrouped 1)
    (hl : lhs.IsGrouped op.level) : c.phrase.negated ≠ lhs.phrase.append op q := by
  intro h
  obtain ⟨hfirst, hrest⟩ := Phrase.mk.inj h
  have hlevel : 1 ≤ op.level := hc.level_le (op, q.first) (by simp [hrest])
  have hsigns := hl.signs_first
  rw [← hfirst] at hsigns
  simp only at hsigns
  omega

/-- A tree that is grouped as usual is determined by its phrase. -/
theorem unique (hc : c.IsGrouped level) (hd : d.IsGrouped level) (h : c.phrase = d.phrase) :
    c = d := by
  induction hc generalizing d with
  | operand level hc => exact hc.eq_of_phrase_eq hd.isArithmetic h
  | @binary lhs rhs level op hlevel hl hr ihl ihr =>
    cases hd with
    | operand _ hd =>
      exact (hd.eq_of_phrase_eq (binary op hlevel hl hr).isArithmetic h.symm).symm
    | binary op' _ hl' hr' =>
      obtain ⟨hlhs, rfl, hrhs⟩ := root_unique hl hr hl' hr' h
      rw [ihl hl' hlhs, ihr hr' hrhs]
    | minus hd => exact absurd h.symm (negated_ne_append hd hl)
  | minus hc ih =>
    cases hd with
    | operand _ hd => exact (hd.eq_of_phrase_eq (minus hc).isArithmetic h.symm).symm
    | binary _ _ hl' => exact absurd h (negated_ne_append hc hl')
    | minus hd => rw [ih hd (Phrase.negated_inj h)]

end IsGrouped

/-! ## A tree for each phrase -/

/-- The tree after one more operator and operand: they are attached to the right of every operator
that binds less tightly. -/
def extend : Code → Arith → Code → Code
  | .binary lhs (.arith above false) rhs, op, x =>
    if above.level < op.level then .binary lhs (.arith above false) (rhs.extend op x)
    else .binary (.binary lhs (.arith above false) rhs) (.arith op false) x
  | .unary .minus c, op, x =>
    if 0 < op.level then .unary .minus (c.extend op x)
    else .binary (.unary .minus c) (.arith op false) x
  | c, op, x => .binary c (.arith op false) x

/-- The phrase of extended code is extended by the operator and the phrase of the operand. -/
theorem phrase_extend (c : Code) (op : Arith) (x : Code) :
    (c.extend op x).phrase = c.phrase.append op x.phrase := by
  fun_induction extend c op x with
  | case1 lhs above rhs op x htighter ih => simp [phrase, ih, Phrase.append]
  | case2 lhs above rhs op x hlooser => rfl
  | case3 c op x htighter ih => simp [phrase, ih, Phrase.append, Phrase.negated]
  | case4 c op x hlooser => rfl
  | case5 c op x => rfl

/-- Code that is grouped at a level remains so when extended by an operator of at least that level. -/
theorem IsGrouped.extend (hc : c.IsGrouped level) {op : Arith} (hop : level ≤ op.level)
    (hx : x.IsOperand) : (c.extend op x).IsGrouped level := by
  have hright : x.IsGrouped (op.level + 1) := .operand _ hx
  induction hc with
  | operand level h =>
    have hextend : ∀ c : Code, c.IsOperand → c.extend op x = .binary c (.arith op false) x := by
      rintro c (_ | _) <;> rfl
    rw [hextend _ h]
    exact .binary op hop (.operand _ h) hright
  | @binary lhs rhs level above hlevel hl hr _ ihr =>
    by_cases htighter : above.level < op.level
    · rw [Code.extend, if_pos htighter]
      exact .binary above hlevel hl (ihr htighter)
    · rw [Code.extend, if_neg htighter]
      exact .binary op hop (.binary above (by omega) hl hr) hright
  | @minus c h ih =>
    by_cases htighter : 0 < op.level
    · rw [Code.extend, if_pos htighter]
      exact .minus (ih htighter)
    · rw [Code.extend, if_neg htighter]
      exact .binary op hop ((minus h).anti (by omega)) hright

/-- The tree after some more operators and operands. -/
def extendAll (c : Code) (steps : List (Arith × Factor)) : Code :=
  steps.foldl (fun c step => c.extend step.1 step.2.operand) c

/-- The phrase of code extended by steps is extended by the steps. -/
theorem phrase_extendAll {steps : List (Arith × Factor)}
    (hoperands : ∀ step ∈ steps, step.2.operand.IsOperand)
    (hsigns : ∀ step ∈ steps, step.2.signs = 0) (c : Code) :
    (c.extendAll steps).phrase = ⟨c.phrase.first, c.phrase.rest ++ steps⟩ := by
  induction steps generalizing c with
  | nil =>
    rw [List.append_nil]
    rfl
  | cons step steps ih =>
    obtain ⟨hoperand, hoperands⟩ := List.forall_mem_cons.mp hoperands
    obtain ⟨hsign, hsigns⟩ := List.forall_mem_cons.mp hsigns
    have hstep : (step.1, (⟨0, step.2.operand⟩ : Factor)) = step :=
      Prod.ext rfl (Factor.ext hsign.symm rfl)
    have hnext := ih hoperands hsigns (c.extend step.1 step.2.operand)
    rw [phrase_extend, hoperand.phrase_eq, Phrase.append, hstep, List.append_assoc] at hnext
    exact hnext

/-- Code that is grouped remains so when extended by steps. -/
theorem IsGrouped.extendAll {steps : List (Arith × Factor)} (hc : c.IsGrouped 0)
    (hoperands : ∀ step ∈ steps, step.2.operand.IsOperand) : (c.extendAll steps).IsGrouped 0 := by
  induction steps generalizing c with
  | nil => exact hc
  | cons step steps ih =>
    obtain ⟨hoperand, hoperands⟩ := List.forall_mem_cons.mp hoperands
    exact ih (hc.extend (Nat.zero_le _) hoperand) hoperands

end Code

namespace Phrase

/-- A phrase without signs but one before it, perhaps. -/
structure IsPlain (p : Phrase) : Prop where
  first : p.first.signs ≤ 1
  rest : ∀ step ∈ p.rest, step.2.signs = 0

/-- The tree of the usual reading of a phrase. -/
def group (p : Phrase) : Code :=
  Code.extendAll (if p.first.signs = 0 then p.first.operand else .unary .minus p.first.operand)
    p.rest

/-- A plain phrase is the phrase of its usual reading. -/
theorem group_spec {p : Phrase} (hoperands : ∀ c ∈ p.operands, c.IsOperand) (h : p.IsPlain) :
    p.group.IsGrouped 0 ∧ p.group.phrase = p := by
  obtain ⟨hfirst, hrest⟩ := List.forall_mem_cons.mp hoperands
  rw [List.forall_mem_map] at hrest
  have hplain := h.first
  unfold group
  split
  · rename_i hsigns
    refine ⟨.extendAll (.operand 0 hfirst) hrest, ?_⟩
    rw [Code.phrase_extendAll hrest h.rest, hfirst.phrase_eq, List.nil_append]
    exact Phrase.ext (Factor.ext hsigns.symm rfl) rfl
  · rename_i hsigns
    have hone : 1 = p.first.signs := by omega
    refine ⟨.extendAll (.minus (.operand 1 hfirst)) hrest, ?_⟩
    rw [Code.phrase_extendAll hrest h.rest, Code.phrase, hfirst.phrase_eq]
    exact Phrase.ext (Factor.ext hone rfl) rfl

end Phrase

/-- Arithmetic is printed alike if and only if it is one phrase. So code is determined by its text if
its phrase cannot be grouped differently, and otherwise it is not. Among the code that is grouped as
usual, each piece is determined by its text; a plain phrase is the phrase of such code. -/
theorem printed_grouping {c : Code} (hc : c.IsArithmetic) :
    (∀ d : Code, d.IsArithmetic → (c.text = d.text ↔ c.phrase = d.phrase))
    ∧ ((∀ d : Code, d.IsArithmetic → c.text = d.text → c = d) ↔ c.phrase.IsRigid)
    ∧ (c.IsGrouped 0 → ∀ d : Code, d.IsGrouped 0 → c.text = d.text → c = d)
    ∧ ((∃ d : Code, d.IsGrouped 0 ∧ c.text = d.text) ↔ c.phrase.IsPlain) := by
  refine ⟨fun d hd => hc.text_eq_iff hd, ?_, ?_, ?_⟩
  · constructor
    · intro hunique
      by_contra hloose
      obtain ⟨d, hd, hphrase, hdiff⟩ := hc.regroup hloose
      exact hdiff (hunique d hd ((hc.text_eq_iff hd).mpr hphrase))
    · intro hrigid d hd htext
      exact hc.unique_of_isRigid hd hrigid ((hc.text_eq_iff hd).mp htext)
  · intro hgrouped d hd htext
    exact hgrouped.unique hd ((hc.text_eq_iff hd.isArithmetic).mp htext)
  · constructor
    · rintro ⟨d, hd, htext⟩
      rw [(hc.text_eq_iff hd.isArithmetic).mp htext]
      exact ⟨hd.signs_first, hd.signs_rest⟩
    · intro hplain
      obtain ⟨hgrouped, hphrase⟩ := Phrase.group_spec hc.operands hplain
      refine ⟨c.phrase.group, hgrouped, ?_⟩
      rw [hc.text_eq_iff hgrouped.isArithmetic, hphrase]

/-- A product with a sum for its first factor is not determined by its text: it is printed like the
sum that the usual reading takes it for. -/
theorem printed_grouping_product :
    let product : Code := .binary (.binary (.reference (.ident "x") []) (.arith .add false)
      (.integer 2)) (.arith .mul false) (.integer 3)
    let sum : Code := .binary (.reference (.ident "x") []) (.arith .add false)
      (.binary (.integer 2) (.arith .mul false) (.integer 3))
    product.text = sum.text ∧ sum.IsGrouped 0 ∧ ¬product.IsGrouped 0
      ∧ ∃ d : Code, d.IsArithmetic ∧ product.text = d.text ∧ product ≠ d := by
  intro product sum
  have hname : (Path.ident "x").IsName := by
    refine ⟨by simp [Path.Dotless, Path.segments, Path.ident], unbroken_of_plain ?_, 'x', ?_⟩
    · simp [Path.text, Path.segments, Path.ident]
    · simp [Path.text, Path.segments, Path.ident]
  have hx : (Code.reference (.ident "x") []).IsOperand := .name hname
  have hnumber : ∀ n : Nat, (Code.integer n).IsOperand := .natural
  have hsum : sum.IsGrouped 0 := .binary .add le_rfl (.operand _ hx)
    (.binary .mul le_rfl (.operand _ (hnumber 2)) (.operand _ (hnumber 3)))
  have hproduct : product.IsArithmetic := .binary .mul
    (.binary .add (.operand hx) (.operand (hnumber 2))) (.operand (hnumber 3))
  obtain ⟨hsame, hrigid, hunique, -⟩ := printed_grouping hproduct
  have htext : product.text = sum.text := (hsame sum hsum.isArithmetic).mpr rfl
  refine ⟨htext, hsum, ?_, ?_⟩
  · intro hgrouped
    exact absurd (Code.binary.inj (hunique hgrouped sum hsum htext)).2.1 (by decide)
  · by_contra hdetermined
    push Not at hdetermined
    have hsingle := (hrigid.mp hdetermined (List.cons_ne_nil _ _)).2
    cases hsingle

/-- A sum with a product for its second term, and a product with a sum for its first factor. -/
theorem sum_and_product_printed_alike :
    let sum : Code := .binary (.integer 1) (.arith .add false)
      (.binary (.integer 2) (.arith .mul false) (.integer 3))
    let product : Code := .binary (.binary (.integer 1) (.arith .add false) (.integer 2))
      (.arith .mul false) (.integer 3)
    sum.IsArithmetic ∧ product.IsArithmetic ∧ sum.text = "1 + 2 * 3" ∧ product.text = sum.text
      ∧ product ≠ sum := by
  intro sum product
  have hnumber : ∀ n : Nat, (Code.integer n).IsArithmetic := fun n => .operand (.natural n)
  refine ⟨?_, ?_, rfl, rfl, ?_⟩
  · exact .binary .add (hnumber 1) (.binary .mul (hnumber 2) (hnumber 3))
  · exact .binary .mul (.binary .add (hnumber 1) (hnumber 2)) (hnumber 3)
  · intro h
    exact absurd (Code.binary.inj h).2.1 (by decide)

end ModelicaFold
