import Mathlib.Tactic.Linarith
import ModelicaFold.Proofs.Runs.Calls
import ModelicaFold.Proofs.Runs.Outcome

/-!
# Integer ranges as progressions

The range `a:s:b` should be the progression `a, a + s, …` as far as it is not beyond `b`. The number
of its elements is computed from the quotient of the distance by the step, rounded so that the
remainder is not negative. This is the right number unless the step is negative, does not divide the
distance, and `b` is not a whole step behind `a`: then the range has one element more, which lies
beyond `b` (`Overshoots`). `integer_range` says what a range evaluates to in either case, and
`range_overshoots` is the smallest kind of range that goes too far.
-/

namespace ModelicaFold

namespace Value

/-- A number that is not beyond the stop of a range, seen in the direction of the step. -/
def NotBeyond (step stop x : Int) : Prop := if 0 < step then x ≤ stop else stop ≤ x

instance (step stop x : Int) : Decidable (NotBeyond step stop x) :=
  inferInstanceAs (Decidable (if 0 < step then x ≤ stop else stop ≤ x))

/-- A range whose last element lies beyond the stop. -/
def Overshoots (a step b : Int) : Prop := step < 0 ∧ b - a < -step ∧ ¬step ∣ b - a

/-- The number of elements of a range before it is compared with the limit. -/
def progressionLength (a step b : Int) : Nat := ((b - a) / step + 1).toNat

/-- With a positive step, not beyond means not above. -/
theorem notBeyond_of_pos {step stop x : Int} (h : 0 < step) : NotBeyond step stop x ↔ x ≤ stop := by
  rw [NotBeyond, if_pos h]

/-- With a negative step, not beyond means not below. -/
theorem notBeyond_of_neg {step stop x : Int} (h : step < 0) : NotBeyond step stop x ↔ stop ≤ x := by
  rw [NotBeyond, if_neg (by omega)]

/-! ## The number of elements -/

/-- With a positive step the progression has just the elements that are not above the stop. -/
theorem lt_progressionLength_of_pos {a step b : Int} (h : 0 < step) (i : Nat) :
    i < progressionLength a step b ↔ a + i * step ≤ b := by
  have hquotient : (i : Int) ≤ (b - a) / step ↔ i * step ≤ b - a := Int.le_ediv_iff_mul_le h
  rw [progressionLength, Int.lt_toNat, Int.lt_add_one_iff, hquotient]
  omega

/-- With a step down, the quotient is the negated quotient by the size of the step. -/
theorem lt_progressionLength_neg {a b size : Int} (i : Nat) :
    i < progressionLength a (-size) b ↔ (b - a) / size ≤ -i := by
  rw [progressionLength, Int.ediv_neg, Int.lt_toNat]
  omega

/-- The elements of a range that does not overshoot are counted exactly. -/
theorem lt_progressionLength_iff {a step b : Int} (hstep : step ≠ 0) (h : ¬Overshoots a step b)
    (i : Nat) : i < progressionLength a step b ↔ NotBeyond step b (a + i * step) := by
  rcases Int.lt_or_gt_of_ne hstep with hneg | hpos
  · obtain ⟨size, rfl⟩ : ∃ size, step = -size := ⟨-step, by omega⟩
    have hsize : 0 < size := by omega
    rw [notBeyond_of_neg hneg, lt_progressionLength_neg]
    by_cases hdivides : size ∣ b - a
    · obtain ⟨c, hc⟩ := hdivides
      rw [hc, Int.mul_ediv_cancel_left c hsize.ne']
      constructor
      · intro hi
        nlinarith
      · intro hi
        by_contra hlt
        nlinarith
    · -- the stop is at least one step behind the start
      have haway : size ≤ b - a := by
        by_contra hclose
        exact h ⟨hneg, by omega, by rwa [Int.neg_dvd]⟩
      have hquotient : 1 ≤ (b - a) / size := (Int.le_ediv_iff_mul_le hsize).mpr (by omega)
      have hi : 0 ≤ (i : Int) * size := by positivity
      constructor
      · intro hle
        omega
      · intro hle
        rw [Int.mul_neg] at hle
        omega
  · rw [notBeyond_of_pos hpos]
    exact lt_progressionLength_of_pos hpos i

/-- A range that overshoots has one element more than are not beyond the stop. -/
theorem lt_progressionLength_of_overshoots {a step b : Int} (h : Overshoots a step b) :
    0 < progressionLength a step b
      ∧ ∀ i : Nat, i + 1 < progressionLength a step b ↔ NotBeyond step b (a + i * step) := by
  obtain ⟨hneg, hclose, hdivides⟩ := h
  obtain ⟨size, rfl⟩ : ∃ size, step = -size := ⟨-step, by omega⟩
  have hsize : 0 < size := by omega
  have hsplit := Int.mul_ediv_add_emod (b - a) size
  have hless := Int.emod_lt_of_pos (b - a) hsize
  have hpositive : 0 < (b - a) % size := by
    refine (Int.emod_nonneg _ hsize.ne').lt_of_ne' fun hzero => hdivides ?_
    rw [Int.neg_dvd]
    exact Int.dvd_of_emod_eq_zero hzero
  refine ⟨?_, fun i => ?_⟩
  · refine (lt_progressionLength_neg 0).mpr ?_
    have : (b - a) / size < 1 := Int.ediv_lt_of_lt_mul hsize (by omega)
    omega
  · rw [notBeyond_of_neg hneg, lt_progressionLength_neg]
    push_cast
    constructor
    · intro hi
      nlinarith
    · intro hi
      by_contra hlt
      nlinarith

/-! ## The elements -/

/-- A number between two Integers is not wrapped. -/
theorem wrapInteger_of_notBeyond {a step b : Int} (hstep : step ≠ 0) (ha : IsWord a)
    (hb : IsWord b) {i : Nat} (h : NotBeyond step b (a + i * step)) :
    wrapInteger (a + i * step) = a + i * step := by
  refine wrapInteger_of_mem ?_
  obtain ⟨hamin, hamax⟩ := ha
  obtain ⟨hbmin, hbmax⟩ := hb
  rcases Int.lt_or_gt_of_ne hstep with hneg | hpos
  · have hdown : (i : Int) * step ≤ 0 := Int.mul_nonpos_of_nonneg_of_nonpos (by omega) hneg.le
    rw [notBeyond_of_neg hneg] at h
    omega
  · have hup : 0 ≤ (i : Int) * step := Int.mul_nonneg (by omega) hpos.le
    rw [notBeyond_of_pos hpos] at h
    omega

/-- The first `k` numbers from `a` on in steps. -/
def progression (a step : Int) (k : Nat) : List Value :=
  (List.range k).map fun (i : Nat) => .integer (a + i * step)

/-- A progression has as many elements as asked for. -/
@[simp]
theorem length_progression (a step : Int) (k : Nat) : (progression a step k).length = k := by
  rw [progression, List.length_map, List.length_range]

/-- The elements of a range, unless they are too many. -/
def withinLimit (elements : List Value) : Outcome (Array Value) :=
  if elements.length ≤ maxRangeLength then .ok elements.toArray
  else (Cause.iterationLimit maxRangeLength).fail

/-- A range with a step other than zero is the wrapped progression, within the limit of elements. -/
theorem integerRange_of_ne_zero {a step b : Int} (hstep : step ≠ 0) :
    integerRange a step b
      = withinLimit ((List.range (progressionLength a step b)).map fun (i : Nat) =>
          .integer (wrapInteger (a + i * step))) := by
  unfold integerRange rangeLength withinLimit
  rw [if_neg hstep, List.length_map, List.length_range]
  by_cases h : progressionLength a step b ≤ maxRangeLength
  · have h' : ((b - a) / step + 1).toNat ≤ maxRangeLength := h
    rw [if_pos h, if_pos h', ← List.map_toArray, List.toArray_range]
    rfl
  · have h' : ¬((b - a) / step + 1).toNat ≤ maxRangeLength := h
    rw [if_neg h, if_neg h']
    rfl

/-- Elements that are not beyond the stop are not wrapped. -/
theorem wrapped_progression {a step b : Int} (hstep : step ≠ 0) (ha : IsWord a) (hb : IsWord b)
    {k : Nat} (hk : ∀ i : Nat, i < k → NotBeyond step b (a + i * step)) :
    ((List.range k).map fun (i : Nat) => Value.integer (wrapInteger (a + i * step)))
      = progression a step k := by
  rw [progression]
  refine List.map_congr_left fun i hi => ?_
  rw [wrapInteger_of_notBeyond hstep ha hb (hk i (List.mem_range.mp hi))]

/-- An Integer range is the progression as far as it is not beyond the stop, with one number more if
it overshoots. -/
theorem integerRange_progression {a step b : Int} (hstep : step ≠ 0) (ha : IsWord a)
    (hb : IsWord b) :
    ∃ k : Nat, (∀ i : Nat, i < k ↔ NotBeyond step b (a + i * step))
      ∧ (¬Overshoots a step b → integerRange a step b = withinLimit (progression a step k))
      ∧ (Overshoots a step b → integerRange a step b
        = withinLimit (progression a step k ++ [.integer (wrapInteger (a + k * step))])) := by
  rw [integerRange_of_ne_zero hstep]
  by_cases h : Overshoots a step b
  · obtain ⟨hpos, hcount⟩ := lt_progressionLength_of_overshoots h
    obtain ⟨k, hk⟩ : ∃ k, progressionLength a step b = k + 1 :=
      ⟨progressionLength a step b - 1, by omega⟩
    rw [hk] at hcount ⊢
    have hcounts : ∀ i : Nat, i < k ↔ NotBeyond step b (a + i * step) := fun i => by
      rw [← hcount i, Nat.add_lt_add_iff_right]
    refine ⟨k, hcounts, fun hnot => absurd h hnot, fun _ => ?_⟩
    rw [List.range_succ, List.map_append,
      wrapped_progression hstep ha hb fun i hi => (hcounts i).mp hi, List.map_singleton]
  · have hcounts := lt_progressionLength_iff hstep h
    refine ⟨_, hcounts, fun _ => ?_, fun hover => absurd hover h⟩
    rw [wrapped_progression hstep ha hb fun i hi => (hcounts i).mp hi]

/-- A range of Integers, whose step is one if none is given. -/
theorem rangeElements_integer (a b : Int) (d : Option Int) (ty : Ty) :
    rangeElements (.integer a) (d.map .integer) (.integer b) ty = integerRange a (d.getD 1) b := by
  cases d <;> rfl

end Value

/-! ## Evaluation -/

/-- The values of the operands of a range, from the first to the last. -/
def Steps.rangeOperands (s : Steps) (req : Request) (start : Expr) (step : Option Expr)
    (stop : Expr) : EvalM (Value × Option Value × Value) := do
  let a ← s.eval req start
  let d ← step.mapM (s.eval req)
  let b ← s.eval req stop
  return (a, d, b)

/-- A range is evaluated by its elements, after its operands. -/
theorem Steps.range_eq (s : Steps) (req : Request) (ty : Ty) (start : Expr) (step : Option Expr)
    (stop : Expr) :
    s.range req ty start step stop
      = s.rangeOperands req start step stop >>= fun operands =>
        EvalM.ofOutcome (Value.rangeElements operands.1 operands.2.1 operands.2.2 ty.elementType)
          >>= fun elements => pure (.array elements [elements.size]) := by
  simp only [Steps.range, Steps.rangeOperands, bind_assoc, pure_bind]
  rfl

section Evaluation

variable {ev : Evaluator} {req : Request} (ty : Ty) {start stop : Expr} {step : Option Expr}
  {ctx ctx' : Context} {log log' : Log}

/-- The outcome of a range from its operands and its elements. -/
theorem Evaluator.evaluate_range {a b : Value} {d : Option Value}
    (h : ((ev.steps ev.config.recursionLimit).rangeOperands req start step stop).Gives ctx
      log.visiting (a, d, b) ctx' log') :
    (∀ elements, Value.rangeElements a d b ty.elementType = .ok elements →
        (ev.evaluate req (.range ty start step stop) ctx log).1
          = .ok (.array elements [elements.size], ctx'))
      ∧ ∀ c, Value.rangeElements a d b ty.elementType = c.fail →
        FailsFor c (ev.evaluate req (.range ty start step stop) ctx log).1 := by
  have hrule : ev.start.eval req (.range ty start step stop) ctx log
      = (EvalM.ofOutcome (Value.rangeElements a d b ty.elementType)
          >>= fun elements => pure (.array elements [elements.size])) ctx' log' := by
    change (ev.steps ev.config.recursionLimit).range req ty start step stop ctx log.visiting = _
    rw [Steps.range_eq, EvalM.bind_apply, h]
  constructor
  · intro elements helements
    refine EvalM.reporting_of_ok ?_ req.reporting
    rw [hrule, helements]
    rfl
  · intro c hc
    refine EvalM.reporting_of_error (f := Failure.of c) ?_ req.reporting
    rw [hrule, hc]
    rfl

/-- The outcome of a range that is only limited in its length. -/
theorem Evaluator.evaluate_range_withinLimit {a b : Value} {d : Option Value}
    (h : ((ev.steps ev.config.recursionLimit).rangeOperands req start step stop).Gives ctx
      log.visiting (a, d, b) ctx' log') {elements : List Value}
    (helements : Value.rangeElements a d b ty.elementType = Value.withinLimit elements) :
    if elements.length ≤ maxRangeLength then
      (ev.evaluate req (.range ty start step stop) ctx log).1
        = .ok (.array elements.toArray [elements.length], ctx')
    else FailsFor (.iterationLimit maxRangeLength)
      (ev.evaluate req (.range ty start step stop) ctx log).1 := by
  obtain ⟨hok, hfail⟩ := Evaluator.evaluate_range ty h
  rw [helements, Value.withinLimit] at hok hfail
  split
  · rename_i hlength
    have hvalue := hok _ (if_pos hlength)
    rwa [List.size_toArray] at hvalue
  · rename_i hlength
    exact hfail _ (if_neg hlength)

/-- What a range of Integers evaluates to. A step of zero is refused. Otherwise let `k` be the number
of elements of the progression that are not beyond the stop: the range is these `k` numbers, unless
they are more than a range may have. A range that overshoots has one element more, the next number of
the progression in the form that a word gives it. -/
theorem integer_range {a b : Int} {d : Option Int} (ha : IsWord a) (hb : IsWord b)
    (hoperands : ((ev.steps ev.config.recursionLimit).rangeOperands req start step stop).Gives ctx
      log.visiting (.integer a, d.map .integer, .integer b) ctx' log') :
    let s := d.getD 1
    let outcome := (ev.evaluate req (.range ty start step stop) ctx log).1
    (s = 0 → FailsFor (.invalidArgument "range" "step must not be zero") outcome)
      ∧ (s ≠ 0 → ∃ k : Nat, (∀ i : Nat, i < k ↔ Value.NotBeyond s b (a + i * s))
        ∧ (¬Value.Overshoots a s b →
          if k ≤ maxRangeLength then
            outcome = .ok (.array (Value.progression a s k).toArray [k], ctx')
          else FailsFor (.iterationLimit maxRangeLength) outcome)
        ∧ (Value.Overshoots a s b →
          if k + 1 ≤ maxRangeLength then
            outcome = .ok (.array (Value.progression a s k
              ++ [Value.integer (wrapInteger (a + k * s))]).toArray [k + 1], ctx')
          else FailsFor (.iterationLimit maxRangeLength) outcome)) := by
  intro s outcome
  have helements := Value.rangeElements_integer a b d ty.elementType
  refine ⟨fun hzero => ?_, fun hstep => ?_⟩
  · refine (Evaluator.evaluate_range ty hoperands).2 _ (helements.trans ?_)
    unfold Value.integerRange
    rw [if_pos hzero]
    rfl
  · obtain ⟨k, hcount, hexact, hover⟩ := Value.integerRange_progression hstep ha hb
    refine ⟨k, hcount, fun h => ?_, fun h => ?_⟩
    · simpa using Evaluator.evaluate_range_withinLimit ty hoperands (helements.trans (hexact h))
    · simpa using Evaluator.evaluate_range_withinLimit ty hoperands (helements.trans (hover h))

end Evaluation

/-! ## Ranges of literals -/

/-- The operands of a range of literals, evaluated from the empty context. -/
theorem literalRange_operands (a s b : Int) :
    ∃ log', (((Evaluator.alone ⟨9, .none⟩).steps 9).rangeOperands ⟨.empty, .explicit, .silent⟩
      (.integer a) (some (.integer s)) (.integer b)).Gives .empty (Log.start .standard).visiting
      (.integer a, (some s).map .integer, .integer b) .empty log' :=
  ⟨_, rfl⟩

/-- The range `9223372036854775800:5:9223372036854775807`: a third element would be no Integer. -/
theorem integer_range_nearLargest :
    IsWord 9223372036854775800 ∧ IsWord 9223372036854775807
      ∧ ((Evaluator.alone ⟨9, .none⟩).evaluate ⟨.empty, .explicit, .silent⟩
          (.rangeOf (.integer 9223372036854775800) (some (.integer 5))
            (.integer 9223372036854775807)) .empty (.start .standard)).1
        = .ok (.array #[.integer 9223372036854775800, .integer 9223372036854775805] [2], .empty) := by
  have ha : IsWord 9223372036854775800 := by decide
  have hb : IsWord 9223372036854775807 := by decide
  obtain ⟨_, hoperands⟩ := literalRange_operands 9223372036854775800 5 9223372036854775807
  refine ⟨ha, hb, ?_⟩
  obtain ⟨k, hcount, hexact, -⟩ := (integer_range .unknown ha hb hoperands).2 (by decide)
  have hsecond : 1 < k := (hcount 1).mpr (by decide)
  have hthird : ¬2 < k := fun h => absurd ((hcount 2).mp h) (by decide)
  obtain rfl : k = 2 := by omega
  exact hexact fun h => absurd h.1 (by decide)

/-- What a range of literals with a step other than zero evaluates to. -/
theorem evaluate_literalRange {a s b : Int} (hs : s ≠ 0) {elements : Array Value}
    (h : Value.withinLimit ((List.range (Value.progressionLength a s b)).map fun (i : Nat) =>
      .integer (wrapInteger (a + i * s))) = .ok elements) :
    ((Evaluator.alone ⟨9, .none⟩).evaluate ⟨.empty, .explicit, .silent⟩
        (.rangeOf (.integer a) (some (.integer s)) (.integer b)) .empty (.start .standard)).1
      = .ok (.array elements [elements.size], .empty) := by
  obtain ⟨_, hoperands⟩ := literalRange_operands a s b
  refine (Evaluator.evaluate_range .unknown hoperands).1 elements ?_
  rw [Value.rangeElements_integer, ← h]
  exact Value.integerRange_of_ne_zero hs

/-- Ranges that go too far: `5:-3:1` ends with `-1`, and `1:-3:2`, which steps away from its stop, is
not empty. -/
theorem range_overshoots :
    ((Evaluator.alone ⟨9, .none⟩).evaluate ⟨.empty, .explicit, .silent⟩
        (.rangeOf (.integer 5) (some (.integer (-3))) (.integer 1)) .empty (.start .standard)).1
        = .ok (.array #[.integer 5, .integer 2, .integer (-1)] [3], .empty)
      ∧ ¬Value.NotBeyond (-3) 1 (-1)
      ∧ ((Evaluator.alone ⟨9, .none⟩).evaluate ⟨.empty, .explicit, .silent⟩
        (.rangeOf (.integer 1) (some (.integer (-3))) (.integer 2)) .empty (.start .standard)).1
        = .ok (.array #[.integer 1] [1], .empty)
      ∧ ¬Value.NotBeyond (-3) 2 1 :=
  ⟨evaluate_literalRange (by decide) rfl, by decide, evaluate_literalRange (by decide) rfl,
    by decide⟩

end ModelicaFold
