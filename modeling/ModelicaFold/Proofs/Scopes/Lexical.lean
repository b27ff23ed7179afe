import ModelicaFold.Eval.Evaluate
import ModelicaFold.Proofs.Memory.Declarations
import ModelicaFold.Proofs.Runs.Success

/-!
# Lexical scoping

A variable that is read below scopes pushed onto its environment is found where it was declared, if
none of these scopes declares it. Its binding is evaluated there, so the value is the one it has
outside (`reading_lexical`): no iterator and no parameter captures a name of the binding.

The defaults of a record are no bindings of the variable. They are evaluated in the scope of the
reader, which may capture their names (`defaults_captured`); the theorem is about all other
variables.
-/

namespace ModelicaFold

namespace Env

/-- An environment with frames pushed onto it, none of which declares a name. -/
def PushedAbove (name : String) (env env' : Env) : Prop :=
  ∃ pushed : List Frame, env'.frames = pushed ++ env.frames
    ∧ ∀ frame ∈ pushed, frame.vars.lookup name = none

/-- What the pushed frames do not declare is found where it was found before. -/
theorem PushedAbove.lookup_eq {name : String} {env env' : Env} (h : PushedAbove name env env') :
    env'.lookup name = env.lookup name := by
  obtain ⟨pushed, hframes, hnone⟩ := h
  induction pushed generalizing env' with
  | nil => rw [frames_injective hframes]
  | cons frame pushed ih =>
    obtain ⟨innermost, outer⟩ := env'
    obtain ⟨rfl, houter⟩ := List.cons.inj hframes
    have hframe : innermost.vars.lookup name = none := hnone innermost List.mem_cons_self
    cases outer with
    | nil => exact absurd houter.symm (by simp [frames])
    | cons next more =>
      have hbelow : (Env.mk next more).lookup name = env.lookup name :=
        ih houter fun frame hframe => hnone frame (List.mem_cons_of_mem _ hframe)
      rw [← hbelow]
      simp only [lookup, findVariable, hframe]

/-- The longest declared prefix of a declared reference is the reference itself. -/
theorem splitReference_of_declared {env : Env} {r : Reference}
    (h : (env.lookup r.name).isSome = true) : env.splitReference r = (r, []) := by
  cases r with
  | nil => rfl
  | cons part more => simp [splitReference, declaredPrefix, h]

end Env

namespace Steps

variable {s : Steps} {ev : Evaluator}

/-- A declared reference without subscripts is read as a variable. -/
theorem reference_of_declared {req : Request} {r : Reference} {ty : Ty}
    (hsubscripts : r.subscripts = []) (h : (req.env.lookup r.name).isSome = true) :
    s.reference ev req r ty
      = (do
        EvalM.count fun c => { c with references := c.references + 1 }
        s.readVariable ev req r.name ty) := by
  simp [reference, Env.splitReference_of_declared h, hsubscripts, applySubscripts, selectFields]

/-- Reading a variable at two places that find the same declaration: two successes are one. -/
theorem readVariable_lexical {env env' : Env} {mode : Mode} {reporting : Reporting} {x : String}
    {ty : Ty} {found : Found} (hfound : env.lookup x = some found)
    (hfound' : env'.lookup x = some found)
    (hrecord : found.declared.binding = .unbound →
      env.defaultedRecord? found.declared.ty = none
        ∧ env'.defaultedRecord? found.declared.ty = none)
    {ctx ctx₁ ctx₂ : Context} {log log₁ log₂ : Log} {v w : Value}
    (h : (s.readVariable ev ⟨env, mode, reporting⟩ x ty).Gives ctx log v ctx₁ log₁)
    (h' : (s.readVariable ev ⟨env', mode, reporting⟩ x ty).Gives ctx log w ctx₂ log₂) :
    v = w ∧ ctx₁ = ctx₂ := by
  suffices hsame : s.readVariable ev ⟨env, mode, reporting⟩ x ty ctx log
      = s.readVariable ev ⟨env', mode, reporting⟩ x ty ctx log by
    have := h.symm.trans (hsame.trans h')
    simp only [Prod.mk.injEq, Except.ok.injEq] at this
    exact this.1
  simp only [EvalM.Gives, readVariable, hfound, hfound'] at h h' ⊢
  cases hbinding : found.declared.binding with
  | value v => rfl
  | unbound =>
    obtain ⟨hnone, hnone'⟩ := hrecord hbinding
    simp only [unbound, hnone, hnone']
  | expression e variability cached =>
    simp only [hbinding] at h h' ⊢
    -- a reader that may not look at the variable does not succeed
    split at h
    · cases h
    · split at h'
      · cases h'
      · rename_i hread hread'
        rw [if_neg hread, if_neg hread']
        rfl

end Steps

/-- Lexical scoping: if a declared variable can be read from an environment and from one with scopes
pushed onto it that do not declare the variable, both readings give the same value. The variable is
not one that gets its value from the defaults of a record. -/
theorem reading_lexical (ev : Evaluator) {n : Nat} {env env' : Env} {r : Reference}
    (hsubscripts : r.subscripts = []) (hpushed : env.PushedAbove r.name env') {found : Found}
    (hfound : env.lookup r.name = some found)
    (hrecord : found.declared.binding = .unbound →
      env.defaultedRecord? found.declared.ty = none
        ∧ env'.defaultedRecord? found.declared.ty = none)
    {mode : Mode} {reporting : Reporting} {ty : Ty} {ctx ctx₁ ctx₂ : Context} {log log₁ log₂ : Log}
    {v w : Value}
    (h : ((ev.steps (n + 1)).eval ⟨env, mode, reporting⟩ (.reference r ty)).Gives
      ctx log v ctx₁ log₁)
    (h' : ((ev.steps (n + 1)).eval ⟨env', mode, reporting⟩ (.reference r ty)).Gives
      ctx log w ctx₂ log₂) : v = w ∧ ctx₁ = ctx₂ := by
  have hfound' : env'.lookup r.name = some found := hpushed.lookup_eq.trans hfound
  obtain ⟨_, _, _, hcount, h⟩ := EvalM.gives_bind.mp h
  obtain ⟨_, _, _, hcount', h'⟩ := EvalM.gives_bind.mp h'
  cases hcount
  cases hcount'
  simp only [Steps.rule] at h h'
  rw [Steps.reference_of_declared hsubscripts (by rw [hfound]; rfl)] at h
  rw [Steps.reference_of_declared hsubscripts (by rw [hfound']; rfl)] at h'
  obtain ⟨_, _, _, hcount, h⟩ := EvalM.gives_bind.mp h
  obtain ⟨_, _, _, hcount', h'⟩ := EvalM.gives_bind.mp h'
  cases hcount
  cases hcount'
  exact Steps.readVariable_lexical hfound hfound' hrecord h h'

/-- The variable `n` with the value 2, a variable `p` with the binding `n`, and an unbound variable
`r` of a record class whose only field has the default `n`. -/
def Env.readingN : Env :=
  (((Env.empty.define "n" ⟨.integer, .parameter, .value (.integer 2)⟩).define "p"
      ⟨.integer, .parameter, .expression (.reference [.mk "n" []] .integer) .parameter none⟩).define
      "r" ⟨.record (.ident "R"), .parameter, .unbound⟩).defineClass
    (.record ⟨.ident "R", [⟨"a", .integer, some (.reference [.mk "n" []] .integer)⟩]⟩)

/-- The same inside a function with a parameter `n`, which has the value 100. -/
def Env.hidingN : Env :=
  (Env.readingN.push "f" .functionScope).define "n" ⟨.integer, .parameter, .value (.integer 100)⟩

/-- The scope that hides `n` is pushed above every other name. -/
theorem Env.pushedAbove_hidingN {name : String} (h : name ≠ "n") :
    Env.readingN.PushedAbove name Env.hidingN := by
  refine ⟨[Env.hidingN.innermost], rfl, fun frame hframe => ?_⟩
  rw [List.mem_singleton.mp hframe]
  have hne : (name == "n") = false := by simpa using h
  simp [Env.hidingN, Env.define, Env.push, Frame.empty, List.lookup_cons, hne]

/-- The variable `p` has the value 2 inside the function as well. -/
theorem reading_lexical_parameter :
    ∃ log log' ctx v w,
      (((Evaluator.alone ⟨9, .none⟩).steps 5).eval ⟨Env.readingN, .explicit, .silent⟩
          (.reference [.mk "p" []] .integer)).Gives .empty (.start .unlimited) v ctx log
        ∧ (((Evaluator.alone ⟨9, .none⟩).steps 5).eval ⟨Env.hidingN, .explicit, .silent⟩
          (.reference [.mk "p" []] .integer)).Gives .empty (.start .unlimited) w ctx log'
        ∧ v = w := by
  have hread : ∃ log, (((Evaluator.alone ⟨9, .none⟩).steps 5).eval
      ⟨Env.readingN, .explicit, .silent⟩ (.reference [.mk "p" []] .integer)).Gives .empty
      (.start .unlimited) (.integer 2) ⟨[("p", .integer 2)], .empty⟩ log := ⟨_, rfl⟩
  have hread' : ∃ log, (((Evaluator.alone ⟨9, .none⟩).steps 5).eval
      ⟨Env.hidingN, .explicit, .silent⟩ (.reference [.mk "p" []] .integer)).Gives .empty
      (.start .unlimited) (.integer 2) ⟨[("p", .integer 2)], .empty⟩ log := ⟨_, rfl⟩
  obtain ⟨log, hread⟩ := hread
  obtain ⟨log', hread'⟩ := hread'
  have hfound : ∃ found, Env.readingN.lookup (Reference.name [.mk "p" []]) = some found
      ∧ found.declared.binding ≠ .unbound := ⟨_, rfl, nofun⟩
  obtain ⟨found, hfound, hbound⟩ := hfound
  exact ⟨log, log', _, _, _, hread, hread',
    (reading_lexical _ rfl (Env.pushedAbove_hidingN (by decide)) hfound
      (fun hunbound => absurd hunbound hbound) hread hread').1⟩

/-- Records that are built from defaults are different: the parameter of the function is read for
the `n` of the default, although the function does not declare the variable `r`. -/
theorem defaults_captured :
    Env.readingN.PushedAbove "r" Env.hidingN
      ∧ ∃ log log', (((Evaluator.alone ⟨9, .none⟩).steps 5).eval
          ⟨Env.readingN, .explicit, .silent⟩ (.reference [.mk "r" []] .unknown)).Gives .empty
          (.start .unlimited) (.record (.ident "R") [.integer 2] ["a"] (-1)) .empty log
        ∧ (((Evaluator.alone ⟨9, .none⟩).steps 5).eval
          ⟨Env.hidingN, .explicit, .silent⟩ (.reference [.mk "r" []] .unknown)).Gives .empty
          (.start .unlimited) (.record (.ident "R") [.integer 100] ["a"] (-1)) .empty log' :=
  ⟨Env.pushedAbove_hidingN (by decide), _, _, rfl, rfl⟩

end ModelicaFold
