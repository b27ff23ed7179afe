import ModelicaFold.Proofs.Runs.Calls
import ModelicaFold.Proofs.Runs.Outcome
import Mathlib.Algebra.Order.Group.Unbundled.Int

/-!
# Quotients of two Integers

The functions `div`, `mod` and `rem` of Integers, by what a division leaves over
(`integer_quotients`). There is one exception: nothing is left of the smallest Integer divided by
-1, but as the quotient is no Integer, `mod` and `rem` fail with an overflow, too.
-/

namespace ModelicaFold

/-! ## What a division leaves over -/

/-- `r` is left of `a` when multiples of `b` are taken away: it is smaller than `b` and has the sign
of `s`, unless nothing is left. -/
structure IsLeft (a b s r : Int) : Prop where
  dvd : b ∣ a - r
  lt : r.natAbs < b.natAbs
  sign : r = 0 ∨ r.sign = s.sign

namespace IsLeft

variable {a b s r r' : Int}

/-- What is left with the sign of a number from zero on is not negative. -/
theorem nonneg (h : IsLeft a b s r) (hs : 0 ≤ s) : 0 ≤ r := by
  rcases h.sign with rfl | hsign
  · exact le_refl 0
  · rwa [← Int.sign_nonneg_iff, hsign, Int.sign_nonneg_iff]

/-- What is left with the sign of a number up to zero is not positive. -/
theorem nonpos (h : IsLeft a b s r) (hs : s ≤ 0) : r ≤ 0 := by
  rcases h.sign with rfl | hsign
  · exact le_refl 0
  · rwa [← Int.sign_nonpos_iff, hsign, Int.sign_nonpos_iff]

/-- There is only one number that is left. -/
theorem unique (h : IsLeft a b s r) (h' : IsLeft a b s r') : r = r' := by
  have hdvd : b ∣ r - r' := by
    have hsub := Int.dvd_sub h'.dvd h.dvd
    rwa [sub_sub_sub_cancel_left] at hsub
  have hlt : (r - r').natAbs < b.natAbs := by
    have hr := h.lt
    have hr' := h'.lt
    rcases le_total 0 s with hs | hs
    · have hnonneg := h.nonneg hs
      have hnonneg' := h'.nonneg hs
      omega
    · have hnonpos := h.nonpos hs
      have hnonpos' := h'.nonpos hs
      omega
  exact sub_eq_zero.mp (Int.eq_zero_of_dvd_of_natAbs_lt_natAbs hdvd hlt)

/-- The truncating remainder. -/
theorem tmod (a : Int) (hb : b ≠ 0) : IsLeft a b a (a.tmod b) where
  dvd := Int.dvd_self_sub_tmod
  lt := by
    rw [Int.natAbs_tmod]
    exact Nat.mod_lt _ (by omega)
  sign := by
    rw [Int.sign_tmod]
    split
    · rename_i h
      exact .inl (Int.tmod_eq_zero_of_dvd h)
    · exact .inr rfl

/-- A remainder below a positive divisor is what is left with the sign of the divisor. -/
theorem of_pos (hdvd : b ∣ a - r) (hr : 0 ≤ r) (hlt : r < b) : IsLeft a b b r where
  dvd := hdvd
  lt := by omega
  sign := by
    rcases hr.eq_or_lt with hzero | hpos
    · exact .inl hzero.symm
    · rw [Int.sign_eq_one_of_pos hpos, Int.sign_eq_one_of_pos (by omega)]
      exact .inr rfl

/-- A remainder above a negative divisor is what is left with the sign of the divisor. -/
theorem of_neg (hdvd : b ∣ a - r) (hr : r ≤ 0) (hlt : b < r) : IsLeft a b b r where
  dvd := hdvd
  lt := by omega
  sign := by
    rcases hr.eq_or_lt with hzero | hneg
    · exact .inl hzero
    · rw [Int.sign_eq_neg_one_of_neg hneg, Int.sign_eq_neg_one_of_neg (by omega)]
      exact .inr rfl

/-- The remainder of rounding down. -/
theorem fmod (a : Int) (hb : b ≠ 0) : IsLeft a b b (a.fmod b) := by
  rcases lt_or_gt_of_ne hb with hb | hb
  · have hnonneg := Int.fmod_nonneg_of_pos (-a) (by omega : 0 < -b)
    have hlt := Int.fmod_lt_of_pos (-a) (by omega : 0 < -b)
    rw [Int.neg_fmod_neg] at hnonneg hlt
    exact of_neg Int.dvd_self_sub_fmod (by omega) (by omega)
  · exact of_pos Int.dvd_self_sub_fmod (Int.fmod_nonneg_of_pos a hb) (Int.fmod_lt_of_pos a hb)

end IsLeft

/-- The only quotient that is no Integer. -/
theorem maxInteger_lt_tdiv_iff {a b : Int} (ha : IsWord a) (hb : b ≠ 0) :
    maxInteger < a.tdiv b ↔ a = minInteger ∧ b = -1 := by
  constructor
  · intro h
    have hquotient : (a.tdiv b).natAbs * b.natAbs ≤ a.natAbs := by
      rw [Int.natAbs_tdiv]
      exact Nat.div_mul_le_self _ _
    simp only [IsWord, minInteger, maxInteger] at ha h ⊢
    rcases (by omega : b = 1 ∨ b = -1 ∨ 2 ≤ b.natAbs) with rfl | rfl | hlarge
    · rw [Int.tdiv_one] at h
      omega
    · rw [Int.tdiv_neg, Int.tdiv_one] at h
      omega
    · have hdouble := Nat.mul_le_mul_left (a.tdiv b).natAbs hlarge
      omega
  · rintro ⟨rfl, rfl⟩
    decide

/-! ## Calls -/

section Calls

variable {ev : Evaluator} {n : Nat} {req : Request} {x y : Expr} {ctx ctx' : Context}
  {log log' : Log} {a b : Int}

/-- The operands of a quotient are evaluated from the first to the last. -/
theorem gives_quotientOperands {s : Steps} (name : String) (zero : String → String → Cause)
    {v w : Value} (hw : w.isZero = false)
    (h : (s.evalAll req [x, y]).Gives ctx log [v, w] ctx' log') :
    (s.quotientOperands req name zero [x, y]).Gives ctx log (v, w) ctx' log' := by
  rw [Steps.evalAll, List.mapM_cons, List.mapM_cons, List.mapM_nil] at h
  obtain ⟨v', ctx₁, log₁, hx, h⟩ := EvalM.gives_bind.mp h
  obtain ⟨_, ctx₂, log₂, h, hv⟩ := EvalM.gives_bind.mp h
  obtain ⟨w', ctx₃, log₃, hy, h⟩ := EvalM.gives_bind.mp h
  obtain ⟨rfl, rfl, rfl⟩ := EvalM.gives_pure.mp h
  obtain ⟨hvalues, rfl, rfl⟩ := EvalM.gives_pure.mp hv
  obtain ⟨rfl, rfl⟩ : v' = v ∧ w' = w := by simpa using hvalues
  have hpair : (if w'.isZero then EvalM.fail (zero x.text y.text) else pure (v', w')).Gives ctx₃
      log₃ (v', w') ctx₃ log₃ := by
    rw [hw]
    rfl
  exact EvalM.gives_bind.mpr ⟨(), ctx, log, rfl, EvalM.gives_bind.mpr ⟨v', ctx₁, log₁, hx,
    EvalM.gives_bind.mpr ⟨w', ctx₃, log₃, hy, hpair⟩⟩⟩

/-- A quotient of Integers whose divisor is not zero is computed from the values of its operands. -/
theorem eval_quotient {path : Path} {name : String} {zero : String → String → Cause}
    {divide : Value → Value → Outcome Value} (ty : Ty) (impure : Bool)
    (hrule : Builtin.baseTable.lookup path.last
      = some (Builtin.special (Steps.quotient name zero divide)))
    (hsmooth : path.last ≠ "smooth") (hb : b ≠ 0)
    (hoperands : ((ev.steps n).evalAll req [x, y]).Gives ctx log.calling [.integer a, .integer b]
      ctx' log') :
    ((ev.steps (n + 1)).eval req (.call path [x, y] ty true impure) ctx log).1
      = (divide (.integer a) (.integer b)).map fun v => (v, ctx') := by
  have hnonzero : (Value.integer b).isZero = false := beq_false_of_ne hb
  have hpair := gives_quotientOperands name zero hnonzero hoperands
  rw [eval_builtin hrule (Steps.smoothZero?_eq_none hsmooth _ _)]
  change (((ev.steps n).quotientOperands req name zero [x, y] >>= fun operands =>
    EvalM.ofOutcome (divide operands.1 operands.2)) ctx log.calling).1 = _
  rw [EvalM.bind_apply, hpair]
  change (EvalM.ofOutcome (divide (.integer a) (.integer b)) ctx' log').1 = _
  cases divide (.integer a) (.integer b) <;> rfl

/-- A quotient that is refused under a condition. -/
theorem outcome_of_refused {o : Except Failure (Value × Context)} {refused : Prop}
    [Decidable refused] {c : Cause} {v : Value}
    (h : o = (if refused then c.fail else .ok v : Outcome Value).map fun v => (v, ctx')) :
    if refused then FailsFor c o else o = .ok (v, ctx') := by
  split
  · rename_i hrefused
    rw [if_pos hrefused] at h
    exact ⟨_, h, rfl⟩
  · rename_i hallowed
    rwa [if_neg hallowed] at h

/-- The functions `div`, `rem` and `mod` of two Integers, at any depth of an evaluation: what is
left by `mod` has the sign of the divisor, what is left by `rem` that of the dividend, and `div` is
the quotient that leaves the latter, or an overflow. For the smallest Integer and -1 all three
overflow. -/
theorem integer_quotients (ty : Ty) (impure : Bool) (ha : IsWord a) (hb : b ≠ 0)
    (hoperands : ((ev.steps n).evalAll req [x, y]).Gives ctx log.calling [.integer a, .integer b]
      ctx' log') :
    let outcome (path : Path) :=
      ((ev.steps (n + 1)).eval req (.call path [x, y] ty true impure) ctx log).1
    ∃ q r m, IsLeft a b a r ∧ IsLeft a b b m ∧ q * b = a - r
      ∧ (∀ path, path.last = "div" →
        if IsWord q then outcome path = .ok (.integer q, ctx')
        else FailsFor (.integerOverflow "div") (outcome path))
      ∧ (∀ path, path.last = "rem" →
        if a = minInteger ∧ b = -1 then FailsFor (.integerOverflow "rem") (outcome path)
        else outcome path = .ok (.integer r, ctx'))
      ∧ ∀ path, path.last = "mod" →
        if a = minInteger ∧ b = -1 then FailsFor (.integerOverflow "mod") (outcome path)
        else outcome path = .ok (.integer m, ctx') := by
  intro outcome
  have hquotient : a.tdiv b * b = a - a.tmod b := by
    rw [Int.tmod_def, mul_comm]
    omega
  have hsmallest := maxInteger_lt_tdiv_iff ha hb
  refine ⟨a.tdiv b, a.tmod b, a.fmod b, .tmod a hb, .fmod a hb, hquotient, ?_, ?_, ?_⟩
  · intro path hpath
    rw [← ite_not]
    refine outcome_of_refused ?_
    rw [ite_not]
    exact eval_quotient ty impure (by rw [hpath]; rfl) (by simp [hpath]) hb hoperands
  · intro path hpath
    refine outcome_of_refused ?_
    simp only [← hsmallest]
    exact eval_quotient ty impure (by rw [hpath]; rfl) (by simp [hpath]) hb hoperands
  · intro path hpath
    refine outcome_of_refused ?_
    simp only [← hsmallest]
    exact eval_quotient ty impure (by rw [hpath]; rfl) (by simp [hpath]) hb hoperands

end Calls

/-- The functions of -7 and 3. -/
theorem integer_quotients_negative :
    let outcome (name : String) :=
      (((Evaluator.alone ⟨9, .none⟩).steps 7).eval ⟨.empty, .explicit, .silent⟩
        (.call (.ident name) [.integer (-7), .integer 3] .integer true false) .empty
        (.start .unlimited)).1
    outcome "div" = .ok (.integer (-2), .empty) ∧ outcome "rem" = .ok (.integer (-1), .empty)
      ∧ outcome "mod" = .ok (.integer 2, .empty) := by
  intro outcome
  have hoperands : ∃ log', (((Evaluator.alone ⟨9, .none⟩).steps 6).evalAll
      ⟨.empty, .explicit, .silent⟩ [.integer (-7), .integer 3]).Gives .empty
      (Log.start .unlimited).calling [.integer (-7), .integer 3] .empty log' := ⟨_, rfl⟩
  obtain ⟨log', hoperands⟩ := hoperands
  obtain ⟨q, r, m, hr, hm, hq, hdiv, hrem, hmod⟩ :=
    integer_quotients .integer false (by decide : IsWord (-7)) (by decide) hoperands
  obtain rfl := hr.unique (⟨by decide, by decide, .inr rfl⟩ : IsLeft (-7) 3 (-7) (-1))
  obtain rfl := hm.unique (⟨by decide, by decide, .inr rfl⟩ : IsLeft (-7) 3 3 2)
  obtain rfl : q = -2 := by omega
  exact ⟨hdiv (.ident "div") rfl, hrem (.ident "rem") rfl, hmod (.ident "mod") rfl⟩

/-- Nothing is left of the smallest Integer divided by -1, and yet `mod` and `rem` overflow. -/
theorem smallest_remainder_overflows :
    let outcome (name : String) :=
      (((Evaluator.alone ⟨9, .none⟩).steps 7).eval ⟨.empty, .explicit, .silent⟩
        (.call (.ident name) [.integer minInteger, .integer (-1)] .integer true false) .empty
        (.start .unlimited)).1
    IsLeft minInteger (-1) (-1) 0 ∧ FailsFor (.integerOverflow "mod") (outcome "mod")
      ∧ IsLeft minInteger (-1) minInteger 0 ∧ FailsFor (.integerOverflow "rem") (outcome "rem") :=
  ⟨⟨by decide, by decide, .inl rfl⟩, ⟨_, rfl, rfl⟩, ⟨by decide, by decide, .inl rfl⟩,
    ⟨_, rfl, rfl⟩⟩

end ModelicaFold
