import ModelicaFold.Proofs.Memory.Transparency
import ModelicaFold.Proofs.Modes.Fixed

/-!
# Values that are remembered in another mode

The context remembers the value of a variable, but not the mode in which it was found. A parameter
that is bound to a varying variable has a value in implicit mode and none in explicit mode; where it
has been read in implicit mode, explicit evaluation finds its value all the same (`explicit_leaks`).

What is remembered in one mode does no harm in the other if bindings have the same values in both
(`explicit_unaffected`). They have, if the expressions that are met refer to constants and
parameters only (`Evaluator.modesAgree_of_fixed`).
-/

namespace ModelicaFold

open Outcome

/-! ## Runs of evaluations in both modes -/

/-- The contexts in which a run of evaluations ends that starts with nothing remembered, and in
which every evaluation has a mode of its own. -/
inductive Evaluator.Reached (ev : Evaluator) (env : Env) (functions : FunctionTable) :
    Context → Prop where
  | start : Reached ev env functions (.ofFunctions functions)
  | next {C C' : Context} (h : Reached ev env functions C) {entry : Entry}
      (henv : entry.request.env = env) {log log' : Log} {result : entry.Result}
      (hrun : entry.run ev C log = (.ok (result, C'), log')) : Reached ev env functions C'

section

variable {ev : Evaluator} {env : Env} (hkeys : env.KeysDistinct) (hcall : ev.ExecutesBodies)
  (hmodes : ev.ModesAgree env)

include hkeys hcall hmodes

/-- What a run of evaluations remembers is, for either mode, what fresh evaluation gives. -/
theorem Evaluator.Reached.faithful {functions : FunctionTable} {C : Context}
    (h : ev.Reached env functions C) (mode : Mode) :
    (Setting.mk ev env mode).Faithful C ∧ C.functions = functions := by
  induction h generalizing mode with
  | start => exact ⟨Setting.faithful_ofFunctions functions, rfl⟩
  | @next C C' _ entry henv log log' result hrun ih =>
    obtain ⟨hC, rfl⟩ := ih entry.request.mode
    obtain ⟨hC', hwithin⟩ := hC.run hkeys hcall ⟨henv, rfl⟩ (congrArg Prod.fst hrun)
    refine ⟨fun scope name e v hdecl hv => ?_, hwithin.functions.symm⟩
    obtain ⟨hrefers, hvalue⟩ := hC' hdecl hv
    exact ⟨hrefers, hmodes hdecl _ mode C' v hvalue⟩

end

/-- Values remembered in one mode do not make evaluation succeed in the other: whatever modes the
evaluations before had, one succeeds only if it does where nothing is remembered, with the same
result, or if the limit refuses a step of it there. Bindings must have the same values in both
modes. -/
theorem explicit_unaffected (ev : Evaluator) {env : Env} (hkeys : env.KeysDistinct)
    (hcall : ev.ExecutesBodies) (hmodes : ev.ModesAgree env) {functions : FunctionTable}
    {C C' : Context} (hC : ev.Reached env functions C) {entry : Entry}
    (henv : entry.request.env = env) {log : Log} {result : entry.Result}
    (hrun : (entry.run ev C log).1 = .ok (result, C')) (log' : Log) :
    (entry.run ev).answer (.ofFunctions functions) log' = .ok result
      ∨ ∃ limit, (entry.run ev).answer (.ofFunctions functions) log'
        = .error (.recursionLimit limit) := by
  obtain ⟨hfaithful, rfl⟩ := hC.faithful hkeys hcall hmodes entry.request.mode
  have hasks : (Setting.mk ev env entry.request.mode).Asks entry := ⟨henv, rfl⟩
  have hagrees := hfaithful.followsStart hkeys hcall hasks log' log
  cases hstart : (entry.run ev (.ofFunctions C.functions) log').1 with
  | ok done =>
    obtain ⟨w, D⟩ := done
    obtain ⟨_, D', hrun', -⟩ := (hagrees.ok hstart).2.exists
    rw [hrun'] at hrun
    cases hrun
    exact .inl (EvalM.answer_of_ok hstart)
  | error f =>
    rcases hagrees.error hstart with hfatal | hothers
    · obtain ⟨limit, hf⟩ := Cause.eq_recursionLimit_of_isFatal hfatal
      exact .inr ⟨limit, by rw [EvalM.answer_of_error hstart, hf]⟩
    · obtain ⟨_, g, hrun', -⟩ := hothers.exists
      rw [hrun'] at hrun
      cases hrun

/-- A varying variable `v` that is bound to the parameter `p`, which is 1 + 1. -/
def Env.boundToParameter : Env :=
  (Env.empty.define "v" ⟨.integer, .varying,
      .expression (.reference [.mk "p" []] .integer) .varying none⟩).define "p"
    ⟨.integer, .parameter, .expression (.binary (.integer 1) (.arith .add .scalars) (.integer 1))
      .parameter none⟩

/-- The expressions that evaluation meets which starts with a reference to `p` or to `v`. -/
inductive Env.MeetsBoundToParameter : Expr → Prop where
  | reference : MeetsBoundToParameter (.reference [.mk "p" []] .integer)
  | sum : MeetsBoundToParameter (.binary (.integer 1) (.arith .add .scalars) (.integer 1))
  | one : MeetsBoundToParameter (.integer 1)

/-- The environment with a variable bound to a parameter fixes what evaluation meets in it. -/
theorem Env.fixes_boundToParameter : Env.boundToParameter.Fixes Env.MeetsBoundToParameter where
  keeps := by
    intro frame hframe
    obtain rfl := List.mem_singleton.mp hframe
    refine ⟨fun hmem hbound => ?_, nofun⟩
    rcases List.mem_cons.mp hmem with heq | hmem
    · cases heq
      cases hbound
      exact .sum
    · cases List.mem_singleton.mp hmem
      cases hbound
      exact .reference
  fixed := by
    rintro parts ty ⟨⟩ n frame hframe declared hlookup
    obtain rfl := List.mem_singleton.mp hframe
    cases n with
    | zero => cases hlookup
    | succ n =>
      have htake : [RefPart.mk "p" []].take (n + 1) = [.mk "p" []] :=
        List.take_of_length_le (Nat.le_add_left 1 n)
      rw [htake] at hlookup
      cases hlookup
      rfl

/-- Explicit evaluation of `p` gives 2 after `v` has been read in implicit mode, and it does so
where nothing is remembered. -/
theorem explicit_unaffected_boundToParameter :
    (Evaluator.alone ⟨9, .none⟩).Reached .boundToParameter .empty
        ⟨[("v", .integer 2), ("p", .integer 2)], .empty⟩
      ∧ ((Entry.expression ⟨.boundToParameter, .explicit, .silent⟩
            (.reference [.mk "p" []] .integer)).run (.alone ⟨9, .none⟩)).answer
            (.ofFunctions .empty) (.start .standard) = .ok (.integer 2) := by
  have hmodeless : (Evaluator.alone ⟨9, .none⟩).Modeless
      (fun _ _ _ _ _ => .finish (Cause.fail .notConstant)) Env.MeetsBoundToParameter := by
    refine ⟨⟨fun _ _ _ _ _ => rfl, fun _ _ _ _ _ => .finish _, ?_, id, fun h => by cases h⟩,
      fun _ _ _ _ _ _ => rfl⟩
    rintro e ⟨⟩ part hpart
    · cases hpart
    · simp only [Expr.parts, Expr.children, List.mem_cons, List.not_mem_nil, or_false,
        or_self] at hpart
      exact hpart ▸ .one
    · cases hpart
  have hmodes := Evaluator.modesAgree_of_fixed Env.fixes_boundToParameter hmodeless
  have hreached : (Evaluator.alone ⟨9, .none⟩).Reached .boundToParameter .empty
      ⟨[("v", .integer 2), ("p", .integer 2)], .empty⟩ := by
    have hread : ∃ log, (Entry.expression ⟨.boundToParameter, .implicit, .silent⟩
        (.reference [.mk "v" []] .integer)).run (.alone ⟨9, .none⟩) .empty (.start .standard)
          = (.ok (Value.integer 2, ⟨[("v", .integer 2), ("p", .integer 2)], .empty⟩), log) :=
      ⟨_, rfl⟩
    obtain ⟨log, hread⟩ := hread
    exact .next .start rfl hread
  have hkeys : Env.boundToParameter.KeysDistinct := Env.keysDistinct_of_outer_eq_nil rfl
  have hcall := executesBodies_alone ⟨9, .none⟩
  have hrun : ((Entry.expression ⟨.boundToParameter, .explicit, .silent⟩
      (.reference [.mk "p" []] .integer)).run (.alone ⟨9, .none⟩)
        ⟨[("v", .integer 2), ("p", .integer 2)], .empty⟩ (.start .standard)).1
      = .ok (Value.integer 2, ⟨[("v", .integer 2), ("p", .integer 2)], .empty⟩) := rfl
  have hfresh := explicit_unaffected _ hkeys hcall hmodes hreached rfl hrun (.start .standard)
  refine ⟨hreached, hfresh.resolve_right ?_⟩
  rintro ⟨limit, hlimit⟩
  cases hlimit

/-- A parameter `p` that is bound to the varying variable `v`, which is 5. -/
def Env.boundToVarying : Env :=
  (Env.empty.define "v" ⟨.integer, .varying, .expression (.integer 5) .varying none⟩).define "p"
    ⟨.integer, .parameter, .expression (.reference [.mk "v" []] .integer) .parameter none⟩

/-- Explicit evaluation of `p` gives 5 after `p` has been read in implicit mode, and fails where
nothing is remembered. -/
theorem explicit_leaks :
    Env.boundToVarying.KeysDistinct
      ∧ ∃ C, (Evaluator.alone ⟨9, .none⟩).Reached .boundToVarying .empty C
        ∧ ((Entry.expression ⟨.boundToVarying, .explicit, .silent⟩
            (.reference [.mk "p" []] .integer)).run (.alone ⟨9, .none⟩)).answer C
            (.start .standard) = .ok (.integer 5)
        ∧ ((Entry.expression ⟨.boundToVarying, .explicit, .silent⟩
            (.reference [.mk "p" []] .integer)).run (.alone ⟨9, .none⟩)).answer .empty
            (.start .standard) = .error .notConstant := by
  have hread : ∃ log, (Entry.expression ⟨.boundToVarying, .implicit, .silent⟩
      (.reference [.mk "p" []] .integer)).run (.alone ⟨9, .none⟩) .empty (.start .standard)
        = (.ok (Value.integer 5, ⟨[("p", .integer 5), ("v", .integer 5)], .empty⟩), log) := ⟨_, rfl⟩
  obtain ⟨log, hread⟩ := hread
  exact ⟨Env.keysDistinct_of_outer_eq_nil rfl, _, .next .start rfl hread, rfl, rfl⟩

end ModelicaFold
