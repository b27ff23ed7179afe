import Mathlib.Data.List.MinMax
import ModelicaFold.Eval.Rule
import ModelicaFold.Proofs.Runs.Alternatives
import ModelicaFold.Proofs.Runs.Calls
import ModelicaFold.Proofs.Runs.Outcome
import ModelicaFold.Proofs.Runs.Success
import ModelicaFold.Proofs.Shape.Operators

/-!
# Ordered alternatives

`Searched` says how a search among alternatives ends, apart from how it is executed. Either the
alternatives before some one are abandoned (`Abandons`) and that one decides, or all are abandoned,
and the most telling of their failures is left. What comes after the one that decides has no part in
it. The search that `firstMatch` makes is the only one there is (`firstMatch_eq_iff`).

Of the alternatives of a cast exactly one applies, whatever the type. A cast leaves what an earlier
cast to the type has given as it is, so that a cast of a cast is the inner cast, one level further
down and with one more expression counted.
-/

namespace ModelicaFold

namespace EvalM

variable {α β : Type} {ctx : Context} {log log' : Log}

/-! ## Searches -/

/-- A success or a fatal failure, which ends a search. -/
def Decides : Except Failure β → Prop
  | .ok _ => True
  | .error f => f.cause.isFatal = true

/-- Alternatives that are tried one after the other do not apply, or fail and do not end the search.
All are tried in the same context; the log is handed on. -/
inductive Abandons (ctx : Context) : Log → List (Option (EvalM α)) → List Failure → Log → Prop
  | nil (log : Log) : Abandons ctx log [] [] log
  | inapplicable {log log' : Log} {more : List (Option (EvalM α))} {failures : List Failure}
      (hmore : Abandons ctx log more failures log') :
      Abandons ctx log (none :: more) failures log'
  | failed {x : EvalM α} {f : Failure} {log log₁ log' : Log} {more : List (Option (EvalM α))}
      {failures : List Failure} (hx : x ctx log = (.error f, log₁)) (hf : f.cause.isFatal = false)
      (hmore : Abandons ctx log₁ more failures log') :
      Abandons ctx log (some x :: more) (f :: failures) log'

/-- The most telling of some failures, the earliest one if several are. -/
def mostTelling (failures : List Failure) : Option Failure :=
  failures.argmax fun f => f.cause.precedence

/-- How a search among alternatives ends: as the first one that decides, or else with the most
telling failure, which is that nothing is constant if no alternative applied. -/
inductive Searched (alternatives : List (Option (EvalM α))) (ctx : Context) (log : Log) :
    Except Failure (α × Context) × Log → Prop
  | decided {before after : List (Option (EvalM α))} {x : EvalM α} {failures : List Failure}
      {log' : Log} (hsplit : alternatives = before ++ some x :: after)
      (hbefore : Abandons ctx log before failures log') (hx : Decides (x ctx log').1) :
      Searched alternatives ctx log (x ctx log')
  | exhausted {failures : List Failure} {log' : Log}
      (hall : Abandons ctx log alternatives failures log') :
      Searched alternatives ctx log
        (.error ((mostTelling failures).getD (Failure.of .notConstant)), log')

/-- The failure that is kept is the most telling one so far. -/
theorem mostTelling_concat (failures : List Failure) (f : Failure) :
    mostTelling (failures ++ [f])
      = some (((mostTelling failures).map (moreTelling · f)).getD f) := by
  rw [mostTelling, List.argmax_concat, ← mostTelling]
  cases mostTelling failures with
  | none => rfl
  | some kept =>
    show (if kept.cause.precedence < f.cause.precedence then some f else some kept) = _
    rw [Option.map_some, Option.getD_some, moreTelling]
    by_cases hlt : kept.cause.precedence < f.cause.precedence
    · rw [if_pos hlt, if_neg (Nat.not_le_of_lt hlt)]
    · rw [if_neg hlt, if_pos (Nat.le_of_not_lt hlt)]

/-- An alternative that decides is the outcome, whatever comes after it. -/
theorem firstMatchAfter_of_decides {x : EvalM α} (hx : Decides (x ctx log).1)
    (kept : Option Failure) (more : List (Option (EvalM α))) :
    firstMatchAfter kept (some x :: more) ctx log = x ctx log := by
  rw [firstMatchAfter, bind_apply]
  cases h : (x ctx log).1 with
  | ok done =>
    rw [attempt_of_ok h, run_eq h]
    rfl
  | error f =>
    have hf : f.cause.isFatal = true := by rwa [h] at hx
    simp only [attempt_of_error h, hf, if_true]
    rw [throw, run_eq h]

/-- A search that has abandoned alternatives goes on with the others. -/
theorem Abandons.firstMatchAfter_append {before : List (Option (EvalM α))}
    {failures : List Failure} (h : Abandons ctx log before failures log') (seen : List Failure)
    (more : List (Option (EvalM α))) :
    firstMatchAfter (mostTelling seen) (before ++ more) ctx log
      = firstMatchAfter (mostTelling (seen ++ failures)) more ctx log' := by
  -- what is kept is the most telling of all failures so far, those before this search included
  induction h generalizing seen with
  | nil log => rw [List.nil_append, List.append_nil]
  | inapplicable _ ih => exact ih seen
  | @failed x f log log₁ log' rest failures hx hf _ ih =>
    rw [List.append_cons seen f failures, ← ih, mostTelling_concat, List.cons_append,
      firstMatchAfter, bind_apply, attempt, hx]
    simp only [hf, Bool.false_eq_true, if_false]

/-- Either all alternatives are abandoned, or a first one decides. -/
theorem abandons_or_decides (alternatives : List (Option (EvalM α))) (ctx : Context) (log : Log) :
    (∃ failures log', Abandons ctx log alternatives failures log')
      ∨ ∃ before x after failures log', alternatives = before ++ some x :: after
        ∧ Abandons ctx log before failures log' ∧ Decides (x ctx log').1 := by
  induction alternatives generalizing log with
  | nil => exact .inl ⟨[], log, .nil log⟩
  | cons alternative more ih =>
    cases alternative with
    | none =>
      rcases ih log with ⟨failures, log', hall⟩ | ⟨before, x, after, failures, log', rfl, hb, hx⟩
      · exact .inl ⟨failures, log', .inapplicable hall⟩
      · exact .inr ⟨none :: before, x, after, failures, log', rfl, .inapplicable hb, hx⟩
    | some y =>
      rcases hy : y ctx log with ⟨f | done, log₁⟩
      · cases hf : f.cause.isFatal with
        | true => exact .inr ⟨[], y, more, [], log, rfl, .nil log, hy ▸ hf⟩
        | false =>
          rcases ih log₁ with
            ⟨failures, log', hall⟩ | ⟨before, x, after, failures, log', rfl, hb, hx⟩
          · exact .inl ⟨f :: failures, log', .failed hy hf hall⟩
          · exact .inr ⟨some y :: before, x, after, f :: failures, log', rfl, .failed hy hf hb, hx⟩
      · exact .inr ⟨[], y, more, [], log, rfl, .nil log, hy ▸ trivial⟩

/-- A search that ends in some way is the search that is made. -/
theorem Searched.firstMatch_eq {alternatives : List (Option (EvalM α))}
    {r : Except Failure (α × Context) × Log} (h : Searched alternatives ctx log r) :
    firstMatch alternatives ctx log = r := by
  cases h with
  | @decided before after x failures log' hsplit hbefore hx =>
    rw [hsplit, firstMatch]
    exact (hbefore.firstMatchAfter_append [] _).trans (firstMatchAfter_of_decides hx _ after)
  | @exhausted failures log' hall =>
    have hrun := hall.firstMatchAfter_append [] []
    rw [List.append_nil] at hrun
    exact hrun

/-- The alternatives are searched, and there is no other way for the search to end. -/
theorem firstMatch_eq_iff {alternatives : List (Option (EvalM α))}
    {r : Except Failure (α × Context) × Log} :
    firstMatch alternatives ctx log = r ↔ Searched alternatives ctx log r := by
  refine ⟨?_, Searched.firstMatch_eq⟩
  rintro rfl
  have hsearched : ∃ r, Searched alternatives ctx log r := by
    rcases abandons_or_decides alternatives ctx log with
      ⟨_, _, hall⟩ | ⟨_, _, _, _, _, hsplit, hbefore, hx⟩
    · exact ⟨_, .exhausted hall⟩
    · exact ⟨_, .decided hsplit hbefore hx⟩
  obtain ⟨r, hr⟩ := hsearched
  rwa [hr.firstMatch_eq]

/-- A division by zero is more telling than that something is not constant. -/
example :
    ((firstMatch [none, some (fail .notConstant), some (fail (.divisionByZero "1" "0")),
      some (fail .notConstant)] : EvalM Value) .empty (.start .standard)).1
      = .error (Failure.of (.divisionByZero "1" "0")) := rfl

end EvalM

open EvalM

/-! ## Casts -/

namespace Value

/-- A leaf that was converted is not converted any further. -/
theorem castLeaf_again {ty : Ty} {convert : Value → Outcome Value}
    (hconvert : castLeaf? ty = some convert) {v w : Value} (h : convert v = .ok w) :
    convert w = .ok w := by
  unfold castLeaf? at hconvert
  split at hconvert
  · cases hconvert
    unfold castRealLeaf at h
    split at h <;> cases h <;> rfl
  · cases hconvert
    unfold castIntegerLeaf at h
    split at h
    · cases h
      rfl
    · unfold wholeReal at h
      split at h <;> cases h
      rfl
    · cases h
  · cases hconvert
    unfold castEnumerationLeaf at h
    split at h
    · unfold literal at h
      split at h <;> cases h
      rfl
    · cases h
      rfl
    · cases h
  · cases hconvert

/-- A function that gives leaves, and gives back what it has given, does so on arrays, too. -/
theorem mapLeaves_again {f : Value → Outcome Value}
    (hf : ∀ v w, f v = .ok w → w.isArray = false ∧ f w = .ok w) {v w : Value}
    (h : v.mapLeaves f = .ok w) : w.mapLeaves f = .ok w := by
  induction v using arrayInduction generalizing w with
  | leaf v hv =>
    rw [mapLeaves_leaf hv] at h
    obtain ⟨hleaf, hagain⟩ := hf v w h
    rwa [mapLeaves_leaf hleaf]
  | array elements dims ih =>
    rw [mapLeaves, mapAllLeaves_eq_mapM] at h
    obtain ⟨mapped, hmapped, rfl⟩ := Outcome.map_eq_ok.mp h
    have hagain : mapped.mapM (mapLeaves f) = .ok mapped := by
      refine Outcome.mapM_eq_ok.mpr (List.forall₂_same.mpr fun w hw => ?_)
      obtain ⟨v, hv, hvw⟩ := Outcome.mem_of_mapM_eq_ok hmapped hw
      exact ih v hv hvw
    rw [mapLeaves, mapAllLeaves_eq_mapM, hagain]
    rfl

end Value

namespace Steps

variable {s s' : Steps} {req req' : Request} {ty : Ty} {e e' : Expr}

/-- Whatever the type, one of the ways to evaluate a cast applies. -/
theorem countP_castAlternatives (s : Steps) (req : Request) (ty : Ty) (e : Expr) :
    (s.castAlternatives req ty e).countP Option.isSome = 1 := by
  unfold castAlternatives Value.castNumberLeaf? Value.castLiteralLeaf? Value.castLeaf?
  cases ty.elementType <;> rfl

/-- What a cast has given is what it gives for it. -/
theorem gives_cast_again {v : Value} {ctx₁ ctx₂ ctx ctx' : Context} {log₁ log₂ log log' : Log}
    (h : (s.cast req ty e).Gives ctx₁ log₁ v ctx₂ log₂)
    (hv : (s'.eval req' e').Gives ctx log v ctx' log') :
    (s'.cast req' ty e').Gives ctx log v ctx' log' := by
  rw [cast_eq] at h ⊢
  cases hconvert : Value.castLeaf? ty with
  | none => exact hv
  | some convert =>
    simp only [hconvert] at h
    obtain ⟨u, _, _, -, hu⟩ := gives_bind.mp h
    obtain ⟨hu, -, -⟩ := gives_ofOutcome.mp hu
    have hagain : v.mapLeaves convert = .ok v :=
      Value.mapLeaves_again (fun _ _ hleaf =>
        ⟨(Value.isAtom_castLeaf hconvert hleaf).not_isArray,
          Value.castLeaf_again hconvert hleaf⟩) hu
    exact gives_bind.mpr ⟨v, _, _, hv, gives_ofOutcome.mpr ⟨hagain, rfl, rfl⟩⟩

/-- A cast fails as its operand does. -/
theorem cast_of_error {f : Failure} {ctx : Context} {log : Log}
    (h : (s.eval req e ctx log).1 = .error f) (ty : Ty) :
    s.cast req ty e ctx log = s.eval req e ctx log := by
  rw [cast_eq]
  cases Value.castLeaf? ty with
  | none => rfl
  | some convert => exact (bind_of_error h _).trans (run_eq h).symm

end Steps

/-- A cast of a cast to the same type is the inner cast. -/
theorem Evaluator.eval_cast_cast (ev : Evaluator) (n : Nat) (req : Request) (ty : Ty) (e : Expr)
    (ctx : Context) (log : Log) :
    (ev.steps (n + 1)).eval req (.cast ty (.cast ty e)) ctx log
      = (ev.steps n).eval req (.cast ty e) ctx log.visiting := by
  have hrule : (ev.steps (n + 1)).eval req (.cast ty (.cast ty e)) ctx log
      = (ev.steps n).cast req ty (.cast ty e) ctx log.visiting := rfl
  rw [hrule]
  cases hrun : ((ev.steps n).eval req (.cast ty e) ctx log.visiting).1 with
  | error f => exact Steps.cast_of_error hrun ty
  | ok done =>
    obtain ⟨v, ctx'⟩ := done
    cases n with
    | zero => cases hrun
    | succ n =>
      have hinner : ((ev.steps (n + 1)).eval req (.cast ty e)).Gives ctx log.visiting v ctx' _ :=
        run_eq hrun
      have hcast : ((ev.steps n).cast req ty e).Gives ctx log.visiting.visiting v ctx' _ := hinner
      exact (Steps.gives_cast_again hcast hinner).trans hinner.symm

/-- A search tries the alternatives in order and ends with the first one that decides, or else with
the most telling failure. A cast is a search in which exactly one alternative applies. What it has
given is left as it is by a cast to the same type, and a cast of a cast is the inner one, which is
then a level further down, with one more expression counted. -/
theorem ordered_alternatives :
    (∀ {α : Type} (alternatives : List (Option (EvalM α))) (ctx : Context) (log : Log)
        (r : Except Failure (α × Context) × Log),
      firstMatch alternatives ctx log = r ↔ Searched alternatives ctx log r)
    ∧ (∀ (s : Steps) (req : Request) (ty : Ty) (e : Expr),
      s.cast req ty e = firstMatch (s.castAlternatives req ty e)
        ∧ (s.castAlternatives req ty e).countP Option.isSome = 1)
    ∧ (∀ {s s' : Steps} {req req' : Request} {ty : Ty} {e e' : Expr} {v : Value}
        {ctx₁ ctx₂ ctx ctx' : Context} {log₁ log₂ log log' : Log},
      (s.cast req ty e).Gives ctx₁ log₁ v ctx₂ log₂ →
      (s'.eval req' e').Gives ctx log v ctx' log' →
      (s'.cast req' ty e').Gives ctx log v ctx' log')
    ∧ ∀ (ev : Evaluator) (n : Nat) (req : Request) (ty : Ty) (e : Expr) (ctx : Context) (log : Log),
      (ev.steps (n + 1)).eval req (.cast ty (.cast ty e)) ctx log
        = (ev.steps n).eval req (.cast ty e) ctx log.visiting :=
  ⟨fun _ _ _ _ => firstMatch_eq_iff, fun s req ty e => ⟨rfl, s.countP_castAlternatives req ty e⟩,
    Steps.gives_cast_again, Evaluator.eval_cast_cast⟩

/-- The second colour is cast from its number, and is then what a cast of its literal gives. -/
theorem ordered_alternatives_colour :
    let s := (Evaluator.alone .standard).steps 1
    let req : Request := ⟨.empty, .explicit, .silent⟩
    let colour : Ty := .enumeration (.ident "Colour") ["red", "green"]
    let green := (Path.ident "Colour").join "green"
    (s.cast req colour (.integer 2)).Gives .empty (.start .standard) (.enumeration green 2) .empty
        (Log.start .standard).visiting
      ∧ (s.cast req colour (.enumeration green 2)).Gives .empty (.start .standard)
        (.enumeration green 2) .empty (Log.start .standard).visiting := by
  intro s req colour green
  have hcast : (s.cast req colour (.integer 2)).Gives .empty (.start .standard)
      (.enumeration green 2) .empty (Log.start .standard).visiting := rfl
  have hliteral : (s.eval req (.enumeration green 2)).Gives .empty (.start .standard)
      (.enumeration green 2) .empty (Log.start .standard).visiting := rfl
  exact ⟨hcast, ordered_alternatives.2.2.1 hcast hliteral⟩

end ModelicaFold
