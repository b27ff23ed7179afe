import Mathlib.Data.List.Perm.Subperm
import ModelicaFold.Proofs.Depth.Machine

/-!
# Steps are nested up to the limit

With the depths in the open, evaluation ends because every step is entered at a greater depth than
the step around it, a body that an executor evaluates included: the cell from which its depth is
read is above the depth of the call. The machine of `Depth.Machine` then does what the levels of
`Evaluator.steps` do (`Evaluator.Scripts.mirrors_steps`), its steps are nested, and every public call
leaves the cell as it has been found (`bounded_nesting`).
-/

namespace ModelicaFold

/-- The depths of open steps, the innermost first. Every step is deeper than the one around it, and
none is beyond the limit. -/
structure Nested (limit : Nat) (opened : List Nat) : Prop where
  deeper : opened.Pairwise (· > ·)
  within : ∀ depth ∈ opened, depth ≤ limit

namespace Nested

variable {limit : Nat} {opened : List Nat}

/-- Without open steps the steps are nested. -/
theorem nil : Nested limit [] := ⟨.nil, nofun⟩

/-- A step that is opened deeper than all others, not beyond the limit, leaves the steps nested. -/
theorem cons {depth : Nat} (h : Nested limit opened) (hbelow : ∀ d ∈ opened, d < depth)
    (hdepth : depth ≤ limit) : Nested limit (depth :: opened) :=
  ⟨.cons hbelow h.deeper, List.forall_mem_cons.2 ⟨hdepth, h.within⟩⟩

/-- There are only so many depths. -/
theorem length_le (h : Nested limit opened) : opened.length ≤ limit + 1 := by
  have hnodup : opened.Nodup := h.deeper.imp fun hgt => Nat.ne_of_gt hgt
  have hsubset : opened ⊆ List.range (limit + 1) := fun depth hdepth =>
    List.mem_range.2 (Nat.lt_succ_of_le (h.within depth hdepth))
  have hlength := (hnodup.subperm hsubset).length_le
  rwa [List.length_range] at hlength

end Nested

/-! ## What the machine does -/

/-- With public calls starting at `entry` and some steps open, the machine does what a step of
evaluation does. Every step that it enters is nested, and it leaves the cells as they were, but for
the trace. -/
def Mirrors (limit entry : Nat) (opened : List Nat) {α : Type} (x : Machine α) (y : EvalM α) :
    Prop :=
  ∀ earlier ctx log, ∃ entered : List (List Nat), (∀ stack ∈ entered, Nested limit stack) ∧
    x ⟨entry, opened, earlier⟩ ctx log = some (y ctx log, ⟨entry, opened, entered ++ earlier⟩)

namespace Mirrors

variable {limit entry depth : Nat} {opened : List Nat} {α β : Type} {x : Machine α} {y : EvalM α}

/-- A lifted step mirrors itself. -/
theorem lift : Mirrors limit entry opened (.lift y) y :=
  fun _ _ _ => ⟨[], nofun, rfl⟩

/-- A sequence mirrors another one if its parts do. -/
theorem bind (h : Mirrors limit entry opened x y) {k : α → Machine β} {l : α → EvalM β}
    (hk : ∀ a, Mirrors limit entry opened (k a) (l a)) :
    Mirrors limit entry opened (x.bind k) (y >>= l) := by
  intro earlier ctx log
  obtain ⟨entered, hentered, hrun⟩ := h earlier ctx log
  rw [EvalM.bind_apply]
  simp only [Machine.bind, hrun]
  rcases y ctx log with ⟨f | ⟨a, ctx'⟩, log'⟩
  · exact ⟨entered, hentered, rfl⟩
  · obtain ⟨more, hmore, hnext⟩ := hk a (entered ++ earlier) ctx' log'
    refine ⟨more ++ entered, List.forall_mem_append.2 ⟨hmore, hentered⟩, hnext.trans ?_⟩
    rw [List.append_assoc]

/-- What is done to the outcome of a step leaves the cells alone. -/
theorem mapStep (h : Mirrors limit entry opened x y) {g : EvalM α → EvalM β}
    (hg : ∀ ctx log, g y ctx log = g (fun _ _ => y ctx log) ctx log) :
    Mirrors limit entry opened (x.mapStep g) (g y) := by
  intro earlier ctx log
  obtain ⟨entered, hentered, hrun⟩ := h earlier ctx log
  refine ⟨entered, hentered, ?_⟩
  rw [Machine.mapStep, hrun, hg]
  rfl

/-- What starts at a depth mirrors the same, and restores the depth before. -/
theorem startingAt (h : Mirrors limit depth opened x y) :
    Mirrors limit entry opened (x.startingAt depth) y := by
  intro earlier ctx log
  obtain ⟨entered, hentered, hrun⟩ := h earlier ctx log
  refine ⟨entered, hentered, ?_⟩
  rw [Machine.startingAt, hrun]
  rfl

/-- What is opened within the limit mirrors the same. -/
theorem opening (hnested : Nested limit (depth :: opened))
    (h : Mirrors limit entry (depth :: opened) x y) :
    Mirrors limit entry opened (x.opening depth) y := by
  intro earlier ctx log
  obtain ⟨entered, hentered, hrun⟩ := h ((depth :: opened) :: earlier) ctx log
  refine ⟨entered ++ [depth :: opened], ?_, ?_⟩
  · simpa only [List.forall_mem_append, List.forall_mem_singleton] using ⟨hentered, hnested⟩
  · rw [Machine.opening, hrun, List.append_assoc]
    rfl

/-- A script does on the machine what it stands for if its requests do. -/
theorem perform {R : Type → Type} {answer : {α : Type} → R α → Machine α}
    {answer' : {α : Type} → R α → EvalM α}
    (h : ∀ {α : Type} (r : R α), Mirrors limit entry opened (answer r) (answer' r))
    (script : Script R α) :
    Mirrors limit entry opened (script.perform answer) (script.run answer') := by
  induction script with
  | pure a => exact lift
  | throw f => exact lift
  | getContext => exact lift
  | modifyContext f => exact lift
  | modifyLog f => exact lift
  | request r => exact h r
  | bind x k hx hk => exact hx.bind hk
  | attempt x hx => exact hx.mapStep fun _ _ => rfl
  | reporting r x hx => exact hx.mapStep fun _ _ => rfl

end Mirrors

/-! ## Levels and depths -/

namespace Evaluator

variable (ev : Evaluator)

/-- Giving up levels before a step. -/
theorem evalAfter_steps (n k : Nat) : (ev.steps n).evalAfter k = (ev.steps (n - k)).eval := by
  induction k generalizing n with
  | zero => rfl
  | succ k ih =>
    cases n with
    | zero =>
      rw [Nat.zero_sub]
      rfl
    | succ n =>
      rw [Nat.add_sub_add_right]
      exact ih n

/-- A step at a depth has one level for this depth and for every further one up to the limit. If
there is no level, then the depth is beyond the limit. -/
theorem mirrors_entering {limit entry depth : Nat} {opened : List Nat} {α : Type} {x : Machine α}
    {y : Nat → EvalM α} (hopened : Nested limit opened) (hbelow : ∀ d ∈ opened, d < depth)
    (hrefused : y 0 = ev.refuse)
    (hrun : depth ≤ limit → Mirrors limit entry (depth :: opened) x (y (limit - depth + 1))) :
    Mirrors limit entry opened (.entering limit depth ev.refuse x) (y (limit + 1 - depth)) := by
  by_cases hlimit : limit < depth
  · rw [Machine.entering, if_pos hlimit, Nat.sub_eq_zero_of_le hlimit, hrefused]
    exact .lift
  · have hdepth : depth ≤ limit := Nat.le_of_not_lt hlimit
    rw [Machine.entering, if_neg hlimit, Nat.sub_add_comm hdepth]
    exact (hrun hdepth).opening (hopened.cons hbelow hdepth)

end Evaluator

/-- Evaluation and splicing at a depth, below the steps that are open. -/
structure Floors.MirrorsAt (floors : Floors) (ev : Evaluator) (limit : Nat) (opened : List Nat)
    (depth : Nat) : Prop where
  eval : ∀ entry req e,
    Mirrors limit entry opened (floors.eval depth req e)
      ((ev.steps (limit + 1 - depth)).eval req e)
  splice : ∀ entry req code,
    Mirrors limit entry opened (floors.splice depth req code)
      ((ev.steps (limit + 1 - depth)).splice req code)

namespace Floors.MirrorsAt

variable {floors : Floors} {ev : Evaluator} {limit depth : Nat} {opened : List Nat}
  (h : ∀ after, floors.MirrorsAt ev limit opened (depth + after)) (entry : Nat)

include h

/-- Evaluation at a depth mirrors evaluation with the levels that are left. -/
theorem evalAfter (after : Nat) (req : Request) (e : Expr) :
    Mirrors limit entry opened (floors.eval (depth + after) req e)
      ((ev.steps (limit + 1 - depth)).evalAfter after req e) := by
  rw [ev.evalAfter_steps, Nat.sub_sub]
  exact (h after).eval entry req e

/-- Where all depths from that of the subexpressions on are mirrored, the requests of a step are. An
executor starts above this depth, which it only finds in the cell. -/
theorem answer {conduct : Conduct} (hfollows : ev.Follows conduct) {α : Type} (r : StepRequest α) :
    Mirrors limit entry opened (floors.answer conduct depth r)
      ((ev.steps (limit + 1 - depth)).answer ev.call r) := by
  cases r with
  | eval after req e => exact evalAfter h entry after req e
  | splice req code => exact (h 0).splice entry req code
  | execute env call values mode =>
    show Mirrors limit entry opened _ (ev.call _ env call values mode)
    rw [hfollows]
    apply Mirrors.startingAt
    apply Mirrors.perform
    rintro _ ⟨env, e, mode, r⟩
    exact (evalAfter h (depth + 1) 1 ⟨env, mode, r⟩ e).mapStep fun _ _ => rfl

end Floors.MirrorsAt

namespace Evaluator.Scripts

variable {ev : Evaluator} (S : ev.Scripts) {conduct : Conduct}

/-- With as much fuel as there are levels left, the machine does what the steps of the evaluator do:
where it would need more, the limit refuses. -/
theorem mirrors_steps (hfollows : ev.Follows conduct) {fuel depth : Nat}
    (hfuel : ev.config.recursionLimit < fuel + depth) {opened : List Nat}
    (hopened : Nested ev.config.recursionLimit opened) (hbelow : ∀ d ∈ opened, d < depth) :
    (S.floors conduct fuel).MirrorsAt ev ev.config.recursionLimit opened depth := by
  induction fuel generalizing depth opened with
  | zero =>
    have hbeyond : ¬depth ≤ ev.config.recursionLimit := by omega
    constructor
    · intro entry req e
      exact ev.mirrors_entering (y := fun n => (ev.steps n).eval req e) hopened hbelow rfl
        fun hlimit => absurd hlimit hbeyond
    · intro entry req code
      exact ev.mirrors_entering (y := fun n => (ev.steps n).splice req code) hopened hbelow rfl
        fun hlimit => absurd hlimit hbeyond
  | succ fuel ih =>
    -- what the step asks for is entered while it is open
    have hanswer : depth ≤ ev.config.recursionLimit → ∀ (entry : Nat) {α : Type} (r : StepRequest α),
        Mirrors ev.config.recursionLimit entry (depth :: opened)
          ((S.floors conduct fuel).answer conduct (depth + 1) r)
          ((ev.steps (ev.config.recursionLimit - depth)).answer ev.call r) := by
      intro hlimit entry α r
      have hdeeper : ∀ after, (S.floors conduct fuel).MirrorsAt ev ev.config.recursionLimit
          (depth :: opened) (depth + 1 + after) := by
        intro after
        apply ih
        · omega
        · exact hopened.cons hbelow hlimit
        · refine List.forall_mem_cons.2 ⟨by omega, fun d hd => ?_⟩
          have := hbelow d hd
          omega
      have hr := Floors.MirrorsAt.answer hdeeper entry hfollows r
      rwa [Nat.add_sub_add_right] at hr
    constructor
    · intro entry req e
      refine ev.mirrors_entering (y := fun n => (ev.steps n).eval req e) hopened hbelow rfl
        fun hlimit => .bind .lift fun _ => ?_
      have hrule := Mirrors.perform (hanswer hlimit entry) (S.rule req e)
      rwa [S.rule_run] at hrule
    · intro entry req code
      refine ev.mirrors_entering (y := fun n => (ev.steps n).splice req code) hopened hbelow rfl
        fun hlimit => ?_
      have hsplice := Mirrors.perform (hanswer hlimit entry) (S.splice req code)
      rwa [S.splice_run] at hsplice

end Evaluator.Scripts

/-! ## Bounded nesting -/

/-- A public call of an evaluator whose executor runs bodies through the evaluator itself, from
whatever depth it starts, as long as the steps around it are above: it comes to the end, having as
much fuel as there are levels left, and its outcome is that of the evaluator. Every step that is
entered meanwhile is deeper than the one around it, so that at most one step for each depth up to the
limit is open, and the depth at which public calls start is the one before. -/
theorem bounded_nesting {ev : Evaluator} {conduct : Conduct} (hfollows : ev.Follows conduct) :
    Nonempty ev.Scripts ∧ ∀ (S : ev.Scripts) (call : PublicCall) (cells : Cells) (fuel : Nat) ctx log,
      Nested ev.config.recursionLimit cells.opened →
      (∀ d ∈ cells.opened, d < cells.entry) →
      ev.config.recursionLimit < fuel + cells.entry →
      ∃ entered : List (List Nat),
        S.perform conduct fuel call cells ctx log
          = some (call.run ev (ev.steps (ev.config.recursionLimit + 1 - cells.entry)) ctx log,
              { cells with trace := entered ++ cells.trace })
        ∧ ∀ stack ∈ entered, stack.Pairwise (· > ·)
            ∧ stack.length ≤ ev.config.recursionLimit + 1 := by
  refine ⟨ev.exists_scripts, ?_⟩
  intro S call cells fuel ctx log hopened hbelow hfuel
  have hfloors : ∀ after, (S.floors conduct fuel).MirrorsAt ev ev.config.recursionLimit cells.opened
      (cells.entry + after) := by
    intro after
    apply S.mirrors_steps hfollows _ hopened
    · intro d hd
      exact Nat.lt_add_right after (hbelow d hd)
    · omega
  have hcall := Mirrors.perform (Floors.MirrorsAt.answer hfloors cells.entry hfollows)
    (S.publicCall call)
  rw [S.publicCall_run] at hcall
  obtain ⟨entered, hentered, hrun⟩ := hcall cells.trace ctx log
  exact ⟨entered, hrun, fun stack hstack =>
    ⟨(hentered stack hstack).deeper, (hentered stack hstack).length_le⟩⟩

/-- A function whose body is the call itself. -/
def Conduct.endless : Conduct := fun env call _ mode => .request (.evaluate env call mode .silent)

def Evaluator.endless : Evaluator :=
  { Evaluator.alone ⟨8, .none⟩ with
    call := fun reenter env call values mode =>
      (Conduct.endless env call values mode).run reenter.answer }

/-- The limit ends a function that calls itself. -/
theorem bounded_nesting_endless :
    ∃ (S : Evaluator.endless.Scripts) (log : Log) (entered : List (List Nat)),
      S.perform Conduct.endless 9
          (.ask (.expression ⟨.empty, .explicit, .silent⟩ (.call (.ident "f") [] .unknown false false)))
          ⟨0, [], []⟩ .empty (.start .unlimited)
        = some ((.error (Failure.of (.recursionLimit 8)), log), ⟨0, [], entered⟩)
      ∧ ∀ stack ∈ entered, stack.Pairwise (· > ·) ∧ stack.length ≤ 9 := by
  have hfollows : Evaluator.endless.Follows Conduct.endless := fun _ _ _ _ _ => rfl
  obtain ⟨⟨S⟩, hnested⟩ := bounded_nesting hfollows
  obtain ⟨entered, hrun, hentered⟩ := hnested S
    (.ask (.expression ⟨.empty, .explicit, .silent⟩ (.call (.ident "f") [] .unknown false false)))
    ⟨0, [], []⟩ 9 .empty (.start .unlimited) .nil nofun (by decide)
  rw [List.append_nil] at hrun
  exact ⟨S, _, entered, hrun, hentered⟩

end ModelicaFold
