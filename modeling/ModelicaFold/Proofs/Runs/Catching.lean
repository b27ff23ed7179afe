import ModelicaFold.Proofs.Runs.Rules

/-!
# Rules that catch failures

Three rules go on after a failure: that for a declared dimension, which gives a failure of its own
instead, that for sizes, which asks the value where the declared type does not tell, and that for a
call, which asks the executor where the known meaning of a function fails. An alignment under which
failures may be caught and handed over as diagnostics is kept by these rules as well
(`Alignment.stepwise_of_rescues`).
-/

namespace ModelicaFold

open Outcome

namespace Alignment

variable {ι : Type} {A : Alignment ι}

section

variable {s : ι → Steps} {env : Env} {mode : Mode} {r : ι → Reporting}
  (heval : ∀ k {e}, A.Meets e → A.Aligned fun i => (s i).evalAfter k ⟨env, mode, r i⟩ e)

include heval

/-! ## Sizes -/

section

variable (hrescues : A.Rescues)

include hrescues

/-- A dimension given by an expression is aligned if evaluation is. -/
theorem dimension_computed {e : Expr} (he : A.Meets e) :
    A.Aligned fun i => (s i).dimension ⟨env, mode, r i⟩ (.computed e) := by
  refine hrescues (heval 1 he) (fun v => ?_) (fun f hf _ => ?_) fun i f hf => if_pos hf
  · cases v with
    | integer n => exact A.ite (fun _ => A.fail _) fun _ => A.pure n.toNat
    | _ => exact A.fail _
  · exact A.throwIfFatal hf fun _ => A.fail _

/-- The sizes of a value are aligned if its evaluation is. -/
theorem evaluatedSizes {e : Expr} (he : A.Meets e) :
    A.Aligned fun i => (s i).evaluatedSizes ⟨env, mode, r i⟩ e := by
  refine hrescues (heval 0 he) (fun v => ?_) (fun f hf _ => ?_) fun i f hf => if_pos hf
  · cases v with
    | array elements dims => exact A.pure dims
    | _ => exact A.fail _
  · exact A.throwIfFatal hf fun _ => A.fail _

end

/-- A dimension that is not computed is known at once, or not at all. -/
theorem dimension {d : Dimension} (hd : ∀ e, d = .computed e → A.Rescues ∧ A.Meets e) :
    A.Aligned fun i => (s i).dimension ⟨env, mode, r i⟩ d := by
  cases d with
  | known n => exact A.pure n
  | enumeration path n => exact A.pure n
  | boolean => exact A.pure 2
  | unknown => exact A.fail _
  | computed e => exact dimension_computed heval (hd e rfl).1 (hd e rfl).2

/-- Sizes are aligned if evaluation is and failures may be caught. -/
theorem sizes_of_rescues (hrescues : A.Rescues) {ev : Evaluator} (hkeeps : ev.KeepsTo A.Meets)
    {e : Expr} (he : A.Meets e) : A.Aligned fun i => (s i).sizes ⟨env, mode, r i⟩ e := by
  have hdims : ∀ d ∈ Steps.announced e, ∀ size, d = .computed size → A.Meets size := by
    intro d hd size hsize
    cases e with
    | reference parts ty =>
      refine hkeeps.parts he size (List.mem_append_right _ (List.mem_filterMap.mpr ⟨d, hd, ?_⟩))
      rw [hsize, Dimension.expr?]
    | _ => cases hd
  simp only [Steps.sizes]
  cases hannounced : Steps.announced e with
  | nil => exact A.map (heval 0 he) Value.dims
  | cons d ds =>
    rw [hannounced] at hdims
    refine hrescues (A.mapM fun d hd => ?_) A.pure (fun f hf _ => ?_) fun i f hf => if_pos hf
    · exact dimension heval fun size hsize => ⟨hrescues, hdims d hd size hsize⟩
    · exact A.throwIfFatal hf fun _ => evaluatedSizes heval hrescues he

/-! ## Calls of functions of the model -/

/-- The arguments of a call are aligned if evaluation is and failures may be reported. -/
theorem arguments (hr : A.Admits env mode r) (hreports : A.Reports) {args : List Expr}
    (hargs : ∀ e ∈ args, A.Meets e) :
    A.Aligned fun i => (s i).arguments ⟨env, mode, r i⟩ args :=
  A.mapM fun arg harg => hreports hr (heval 0 (hargs arg harg))

/-- A call of a function is aligned if evaluation and delegated calls are. -/
theorem callFunction_of_rescues (hr : A.Admits env mode r) (hrescues : A.Rescues)
    (hreports : A.Reports) {ev : ι → Evaluator} {path : Path} {args : List Expr}
    (hargs : ∀ e ∈ args, A.Meets e) {call : Expr}
    (hdelegate : ∀ values,
      A.Aligned fun i => (s i).delegate (ev i) ⟨env, mode, r i⟩ call values) :
    A.Aligned fun i => (s i).callFunction (ev i) ⟨env, mode, r i⟩ call path args := by
  refine A.bind (arguments heval hr hreports hargs) fun values => ?_
  simp only
  cases hfunction : Builtin.External.function? env path with
  | none => exact hdelegate values
  | some f =>
    refine A.bind (A.count fun _ => rfl) fun _ => ?_
    cases hknown : f values with
    | ok v => exact A.pure v
    | error known =>
      obtain ⟨c, rfl, -⟩ := Builtin.External.ordinary_of_external hfunction values known hknown
      refine hrescues (hdelegate values) A.pure (fun f hf _ => ?_) fun i f hf => if_pos hf
      refine A.throwIfFatal hf fun _ => A.throw ?_
      exact A.alike_moreTelling (A.alike_of c) hf

end

/-! ## Properties that do not look into the context -/

/-- Forcing a binding comes to evaluating it, for a property that does not depend on what is
remembered. -/
theorem force_of_eval {s : ι → Steps} {env : Env} {mode : Mode} {r : ι → Reporting} {found : Found}
    {name : String} {e : Expr} (hget : A.Aligned fun _ => EvalM.getContext)
    (hmodify : ∀ g, A.Aligned fun _ => EvalM.modifyContext g)
    (heval : A.Aligned fun i => (s i).eval ⟨found.env, mode, r i⟩ e) :
    A.Aligned fun i => (s i).force ⟨env, mode, r i⟩ found name e := by
  refine A.bind hget fun ctx => ?_
  cases if found.isIterator then none else ctx.constant? (Context.key found.scope name) with
  | some v => exact A.pure v
  | none =>
    refine A.ite (fun _ => A.fail _) fun _ => A.bind heval fun v => ?_
    cases found.isIterator with
    | true => exact A.pure v
    | false => exact A.bind (hmodify _) fun _ => A.pure v

/-! ## Every step -/

/-- Evaluation, splicing, forcing and delegation suffice where failures may be caught and handed
over. -/
theorem stepwise_of_rescues {ev : Evaluator} {limit : ι → Nat} {s : ι → Steps}
    (hkeeps : ev.KeepsTo A.Meets) (hrescues : A.Rescues) (hreports : A.Reports)
    (heval : ∀ {env : Env} {mode : Mode} {r : ι → Reporting}, A.Admits env mode r →
      ∀ k {e}, A.Meets e → A.Aligned fun i => (s i).evalAfter k ⟨env, mode, r i⟩ e)
    (hsplice : ∀ {env : Env} {mode : Mode} {r : ι → Reporting}, A.Admits env mode r →
      ∀ code, A.Aligned fun i => (s i).splice ⟨env, mode, r i⟩ code)
    (hforce : ∀ {env : Env} {mode : Mode} {r : ι → Reporting}, A.Admits env mode r →
      ∀ {name : String} {found : Found} {e : Expr} {v : Variability},
        env.lookup name = some found → found.declared.binding = .expression e v none →
        A.Aligned fun i => (s i).force ⟨env, mode, r i⟩ found name e)
    (hdelegate : ∀ {env : Env} {mode : Mode} {r : ι → Reporting}, A.Admits env mode r →
      ∀ call values,
        A.Aligned fun i => (s i).delegate (ev.withLimit (limit i)) ⟨env, mode, r i⟩ call values) :
    A.Stepwise ev limit s where
  inside := hkeeps.inside
  simplify := hkeeps.simplify
  keeps := hkeeps
  evalAfter hr := heval hr
  splice hr := hsplice hr
  force hr := hforce hr
  sizes hr _ _ hwhole hmeasured :=
    sizes_of_rescues (heval hr) hrescues hkeeps (hkeeps.measured hwhole hmeasured)
  callFunction hr _ _ _ hcall :=
    callFunction_of_rescues (heval hr) hr hrescues hreports (hkeeps.parts hcall) (hdelegate hr _)

/-- With any number of levels left the steps do the same in all runs, if they do wherever evaluation
and splicing do. -/
theorem stepwise_steps {ev : Evaluator} {limit : ι → Nat}
    (hrefuse : ∀ {α : Type}, A.Aligned fun i => ((ev.withLimit (limit i)).refuse : EvalM α))
    (hsteps : ∀ {s : ι → Steps},
      (∀ {env : Env} {mode : Mode} {r : ι → Reporting}, A.Admits env mode r →
        ∀ k {e}, A.Meets e → A.Aligned fun i => (s i).evalAfter k ⟨env, mode, r i⟩ e) →
      (∀ {env : Env} {mode : Mode} {r : ι → Reporting}, A.Admits env mode r →
        ∀ code, A.Aligned fun i => (s i).splice ⟨env, mode, r i⟩ code) →
      A.Stepwise ev limit s) (n : Nat) :
    A.Stepwise ev limit fun i => (ev.withLimit (limit i)).steps n := by
  induction n with
  | zero => exact hsteps (fun _ _ _ _ => hrefuse) fun _ _ => hrefuse
  | succ n ih =>
    have below : A.Stepwise ev limit fun i => (ev.withLimit (limit i)).steps ((fun _ => n) i) := ih
    exact hsteps (fun hr k _ he => below.evalAfter_succ hr k he) fun hr code =>
      below.splice_succ hr code

end Alignment

end ModelicaFold
