import ModelicaFold.Eval.Rule
import ModelicaFold.Proofs.Memory.Declarations
import ModelicaFold.Proofs.Reductions.Positions
import ModelicaFold.Proofs.Runs.Threads

/-!
# Collecting reductions

What an array, list or reversed list reduction gives when it succeeds. Each iterator has a sequence,
the elements of its source that pass its guard. Combined iterators make one level each, the last one
outermost, and threaded ones a single level. The body is evaluated once for every position, from the
first position to the last, with every iterator bound to the item of its sequence at its index; the
result holds at every position the value of the body there.
-/

namespace ModelicaFold

open EvalM (Threads)
open Value (leafCount)

/-! ## Binding tuples -/

/-- One item of each sequence, given by their indices. -/
def pick? {α : Type} : List (List α) → List Nat → Option (List α)
  | [], [] => some []
  | items :: more, k :: ks => items[k]?.bind fun a => (pick? more ks).map (a :: ·)
  | _, _ => none

/-- The binding tuple at a position: combined iterators have an index each, the last iterator the
outermost, and threaded ones share the only index. -/
def IteratorKind.tupleAt? {α : Type} (kind : IteratorKind) (sequences : List (List α))
    (ks : List Nat) : Option (List α) :=
  match kind with
  | .combine => pick? sequences ks.reverse
  | .thread => pick? sequences (List.replicate sequences.length (ks.headD 0))

/-- Combinations come in the order of the positions, the first sequence varying fastest. -/
theorem combinations_positions {α : Type} (sequences : List (List α)) :
    (combinations sequences).map some
      = (positions (sequences.map List.length).reverse).map fun ks => pick? sequences ks.reverse := by
  induction sequences with
  | nil => rfl
  | cons items more ih =>
    have hitems : ∀ rest : List α, (items.map (· :: rest)).map some
        = (List.range items.length).map fun k =>
          items[k]?.bind fun a => (some rest).map (a :: ·) := by
      intro rest
      apply List.ext_getElem
      · simp
      · intro k h₁ h₂
        have hk : k < items.length := by simpa using h₂
        simp [hk]
    calc (combinations (items :: more)).map some
        = (combinations more).flatMap fun rest => (items.map (· :: rest)).map some := by
          rw [combinations_cons, List.map_flatMap]
      _ = ((combinations more).map some).flatMap fun rest =>
            (List.range items.length).map fun k =>
              items[k]?.bind fun a => rest.map (a :: ·) := by
          rw [List.flatMap_map]
          simp only [hitems]
      _ = (positions ((items :: more).map List.length).reverse).map fun ks =>
            pick? (items :: more) ks.reverse := by
          rw [ih, List.map_cons, List.reverse_cons, positions_append_singleton, List.map_flatMap,
            List.flatMap_map]
          simp only [List.map_map, Function.comp_def, List.reverse_append, List.reverse_singleton,
            List.singleton_append, pick?]

/-- The items at index zero of every sequence are the heads. -/
theorem pick?_heads {α : Type} {sequences : List (List α)}
    (h : ∀ items ∈ sequences, items ≠ []) :
    pick? sequences (List.replicate sequences.length 0)
      = some (sequences.filterMap List.head?) := by
  induction sequences with
  | nil => rfl
  | cons items more ih =>
    cases items with
    | nil => exact absurd rfl (h [] List.mem_cons_self)
    | cons a items =>
      have hmore := ih fun others hothers => h others (List.mem_cons_of_mem _ hothers)
      rw [List.length_cons, List.replicate_succ, pick?, hmore]
      rfl

/-- The items at the next index are those at the index in the tails. -/
theorem pick?_tails {α : Type} (sequences : List (List α)) (k : Nat) :
    pick? sequences (List.replicate sequences.length (k + 1))
      = pick? (sequences.map List.tail) (List.replicate (sequences.map List.tail).length k) := by
  induction sequences with
  | nil => rfl
  | cons items more ih =>
    simp only [List.length_cons, List.map_cons, List.replicate_succ, pick?, ih, List.getElem?_tail]

/-- Sequences of one length in lockstep. -/
theorem lockstep_positions {α : Type} {n : Nat} {sequences : List (List α)}
    (h : ∀ items ∈ sequences, items.length = n) :
    (lockstep n sequences).map some
      = (positions [n]).map fun ks =>
        pick? sequences (List.replicate sequences.length (ks.headD 0)) := by
  rw [positions_singleton, List.map_map]
  induction n generalizing sequences with
  | zero => rfl
  | succ n ih =>
    have hheads : ∀ items ∈ sequences, items ≠ [] := by
      intro items hitems hnil
      have := h items hitems
      simp [hnil] at this
    have htails : ∀ items ∈ sequences.map List.tail, items.length = n := by
      intro items hitems
      obtain ⟨longer, hlonger, rfl⟩ := List.mem_map.mp hitems
      rw [List.length_tail, h longer hlonger, Nat.add_sub_cancel]
    rw [lockstep, List.map_cons, ih htails, List.range_succ_eq_map, List.map_cons, List.map_map]
    congr 1
    · exact (pick?_heads hheads).symm
    · simp [Function.comp_def, pick?_tails]

/-- The sizes that the sequences of combined or threaded iterators make. -/
inductive IteratorKind.Shapes {α : Type} (sequences : List (List α)) :
    IteratorKind → List Nat → Prop
  | combine : Shapes sequences .combine (sequences.map List.length).reverse
  | thread {m : Nat} : (∀ items ∈ sequences, items.length = m) → Shapes sequences .thread [m]

/-- Sequences are run through in as many tuples as steps. -/
theorem length_lockstep {α : Type} (n : Nat) (sequences : List (List α)) :
    (lockstep n sequences).length = n := by
  induction n generalizing sequences with
  | zero => rfl
  | succ n ih => rw [lockstep, List.length_cons, ih]

/-- A shape without a zero has leaves. -/
theorem leafCount_pos {dims : List Nat} (h : ∀ d ∈ dims, 0 < d) : 0 < leafCount dims := by
  induction dims with
  | nil => exact Nat.one_pos
  | cons d ds ih =>
    rw [Value.leafCount_cons]
    exact Nat.mul_pos (h d List.mem_cons_self) (ih fun e he => h e (List.mem_cons_of_mem d he))

/-- With at least one sequence there is at least one level. -/
theorem IteratorKind.Shapes.ne_nil {α : Type} {kind : IteratorKind} {sequences : List (List α)}
    {shape : List Nat} (h : kind.Shapes sequences shape) (hsome : sequences ≠ []) : shape ≠ [] := by
  cases h with
  | combine => simpa using hsome
  | thread => exact List.cons_ne_nil _ _

/-- Binding tuples are those at the positions of a shape, in their order. -/
theorem bindingTuples_positions {α : Type} {kind : IteratorKind}
    {sequences tuples : List (List α)} (hsome : sequences ≠ [])
    (hall : ∀ items ∈ sequences, items ≠ []) (h : bindingTuples kind sequences = .ok tuples) :
    kind.Shapes sequences (kind.shape (sequences.map List.length) tuples.length)
      ∧ 0 < leafCount (kind.shape (sequences.map List.length) tuples.length)
      ∧ tuples.map some
        = (positions (kind.shape (sequences.map List.length) tuples.length)).map
            (kind.tupleAt? sequences) := by
  obtain ⟨items, more, rfl⟩ := List.exists_cons_of_ne_nil hsome
  cases kind with
  | combine =>
    have hlengths : ∀ d ∈ ((items :: more).map List.length).reverse, 0 < d := by
      intro d hd
      obtain ⟨others, hothers, rfl⟩ := List.mem_map.mp (List.mem_reverse.mp hd)
      exact List.length_pos_iff.mpr (hall others hothers)
    simp only [bindingTuples] at h
    split at h
    · split at h
      · cases h
        exact ⟨.combine, leafCount_pos hlengths, combinations_positions _⟩
      · simp at h
    · simp at h
  | thread =>
    simp only [bindingTuples] at h
    split at h
    · simp at h
    · rename_i hsame
      cases h
      have hlengths : ∀ others ∈ items :: more, others.length = items.length := by
        simpa using hsame
      have hfirst : 0 < items.length := List.length_pos_iff.mpr (hall items List.mem_cons_self)
      simp only [IteratorKind.shape, List.map_cons, List.headD_cons, length_lockstep]
      exact ⟨.thread hlengths, by simpa [leafCount] using hfirst, lockstep_positions hlengths⟩

/-! ## Variables of iterators -/

/-! ## Gathered values -/

/-- Builds one level of a gathered value. -/
def Gathering.level : Gathering → List Value → Value
  | .array => Value.arrayOf
  | _ => Value.listOf

/-- The entry of a gathered value at a position. Boxes around the elements of an array are stripped,
and a reversed list is mirrored at every level. -/
def Gathering.entry (g : Gathering) (shape : List Nat) (value : List Nat → Value)
    (ks : List Nat) : Value :=
  match g with
  | .array => (value ks).unboxed
  | .reversedList => value (mirrored shape ks)
  | _ => value ks

/-- The values of the body at all positions, gathered in their order, are tabulated. -/
theorem Gathering.gather_positions {g : Gathering} (hg : g ≠ .fold) {shape : List Nat}
    (hshape : shape ≠ []) (hpos : 0 < leafCount shape) (hword : leafCount shape.tail < wordCount)
    (value : List Nat → Value) :
    g.gather ((positions shape).map value) shape
      = Value.tabulate g.level shape (g.entry shape value) := by
  cases g with
  | array =>
    rw [gather, List.map_map]
    exact Value.nest_positions hshape hpos hword _
  | list => exact Value.nest_positions hshape hpos hword value
  | reversedList =>
    rw [gather, ← List.map_reverse, reverse_positions, List.map_map]
    exact Value.nest_positions hshape hpos hword _
  | fold => exact absurd rfl hg

/-- The elements of one level are the values gathered there. -/
theorem Gathering.elementList_level (g : Gathering) (vs : List Value) :
    (g.level vs).elementList = vs := by
  cases g <;> rfl

/-! ## Sequences and values of the body -/

namespace Steps

/-- An iterator has a sequence: the elements of its source, or those of them at which its guard is
true in the scope of this iterator alone. -/
def Selects (s : Steps) (req : Request) (it : Iterator) (ctx : Context) (log : Log)
    (items : List Value) (ctx' : Context) (log' : Log) : Prop :=
  ∃ source candidates ctx₁ log₁, (s.eval req it.source).Gives ctx log source ctx₁ log₁
    ∧ source.elements? = some candidates
    ∧ match it.guard with
      | none => items = candidates.toList ∧ ctx' = ctx₁ ∧ log' = log₁
      | some guard => ∃ verdicts : List Bool,
        Threads
            (fun v =>
              (s.evalInner (req.within (req.env.bindIterators [(it.name, it.ty, v)])) guard).Gives)
            candidates.toList ctx₁ log₁ (verdicts.map .bool) ctx' log'
          ∧ items = EvalM.selected candidates.toList verdicts

/-- A result is collected over sequences: the body is evaluated once for the binding tuple at each
position, in the order of the positions, and the result has these values for its entries. -/
def Collects (s : Steps) (req : Request) (info : ReductionInfo) (body : Expr)
    (iterators : List Iterator) (sequences : List (List Value)) (ctx : Context) (log : Log)
    (v : Value) (ctx' : Context) (log' : Log) : Prop :=
  ∃ (shape : List Nat) (tuples : List (List Value)) (value : List Nat → Value),
    info.kind.Shapes sequences shape
      ∧ tuples.map some = (positions shape).map (info.kind.tupleAt? sequences)
      ∧ Threads (fun tuple => (s.eval (req.within (req.env.bindTuple iterators tuple)) body).Gives)
          tuples ctx log ((positions shape).map value) ctx' log'
      ∧ v = Value.tabulate (Gathering.ofName info.path.last).level shape
          ((Gathering.ofName info.path.last).entry shape value)
      ∧ ∀ ks ∈ positions shape,
          v.entryAt? ks = some ((Gathering.ofName info.path.last).entry shape value ks)

variable {s : Steps} {req : Request} {ctx ctx' : Context} {log log' : Log}

/-- A guard that gives a verdict was evaluated to it with the iterator bound to the value. -/
theorem passes_gives {name : String} {ty : Ty} {guard : Expr} {v : Value} {verdict : Bool}
    (h : (s.passes req name ty guard v).Gives ctx log verdict ctx' log') :
    (s.evalInner (req.within (req.env.bindIterators [(name, ty, v)])) guard).Gives ctx log
      (.bool verdict) ctx' log' := by
  obtain ⟨w, ctx₁, log₁, hw, h⟩ := EvalM.gives_bind.mp h
  cases w with
  | bool b =>
    obtain ⟨rfl, rfl, rfl⟩ := EvalM.gives_pure.mp h
    exact hw
  | _ => cases h

/-- The values that an iterator runs through are selected from the elements of its source. -/
theorem sequence_selects {it : Iterator} {items : List Value}
    (h : (s.sequence req it).Gives ctx log items ctx' log') :
    s.Selects req it ctx log items ctx' log' := by
  obtain ⟨source, ctx₁, log₁, hsource, h⟩ := EvalM.gives_bind.mp h
  cases hcandidates : source.elements? with
  | none =>
    rw [hcandidates] at h
    cases h
  | some candidates =>
    refine ⟨source, candidates, ctx₁, log₁, hsource, hcandidates, ?_⟩
    rw [hcandidates] at h
    cases hguard : it.guard with
    | none =>
      simp only [hguard] at h ⊢
      obtain ⟨rfl, rfl, rfl⟩ := EvalM.gives_pure.mp h
      exact ⟨rfl, rfl, rfl⟩
    | some guard =>
      simp only [hguard] at h ⊢
      obtain ⟨verdicts, hverdicts, rfl⟩ := EvalM.threads_of_filterM h
      exact ⟨verdicts, hverdicts.map (fun hpasses => passes_gives hpasses), rfl⟩

/-- The sizes inside the outermost one are few enough to be counted in a word. -/
theorem leafCount_tail_lt {kind : IteratorKind} {sequences tuples : List (List Value)}
    (hpos : 0 < leafCount (kind.shape (sequences.map List.length) tuples.length))
    (h : bindingTuples kind sequences = .ok tuples) :
    leafCount (kind.shape (sequences.map List.length) tuples.length).tail < wordCount := by
  obtain ⟨hcount, hfew⟩ := length_bindingTuples h
  cases kind with
  | thread => exact (by decide : 1 < wordCount)
  | combine =>
    cases hshape : IteratorKind.combine.shape (sequences.map List.length) tuples.length with
    | nil => decide
    | cons n rest =>
      rw [hshape, Value.leafCount_cons] at hcount hpos
      have hn : 0 < n := Nat.pos_of_mul_pos_right hpos
      have hle : leafCount rest ≤ maxIterations :=
        Nat.le_trans (Nat.le_mul_of_pos_left _ hn) (hcount ▸ hfew rfl)
      exact Nat.lt_of_le_of_lt hle (by decide)

/-- A reduction that succeeds has sequences, and collects over them if none is empty. -/
theorem reduction_gives {info : ReductionInfo} {body : Expr} {iterators : List Iterator} {v : Value}
    (hname : Gathering.ofName info.path.last ≠ .fold) (hsome : iterators ≠ [])
    (h : (s.reduction req info body iterators).Gives ctx log v ctx' log') :
    ∃ sequences ctx₁ log₁, Threads (s.Selects req) iterators ctx log sequences ctx₁ log₁
      ∧ ((∀ items ∈ sequences, items ≠ []) →
        s.Collects req info body iterators sequences ctx₁ log₁ v ctx' log') := by
  obtain ⟨sequences, ctx₁, log₁, hsequences, h⟩ := EvalM.gives_bind.mp h
  have hthreads := EvalM.threads_of_mapM hsequences
  refine ⟨sequences, ctx₁, log₁, hthreads.mono sequence_selects, fun hall => ?_⟩
  obtain ⟨tuples, ctx₂, log₂, htuples, h⟩ := EvalM.gives_bind.mp h
  obtain ⟨hbinding, rfl, rfl⟩ := EvalM.gives_ofOutcome.mp htuples
  have hsequences : sequences ≠ [] := by
    intro hnil
    have hlength := hthreads.length_eq
    rw [hnil] at hlength
    exact hsome (List.length_eq_zero_iff.mp hlength.symm)
  obtain ⟨hshapes, hpos, hpositions⟩ := bindingTuples_positions hsequences hall hbinding
  have hword := leafCount_tail_lt hpos hbinding
  generalize hshape : info.kind.shape (sequences.map List.length) tuples.length = shape
    at hshapes hpos hpositions hword
  have hcount : tuples.length = (positions shape).length := by
    rw [← List.length_map some, hpositions, List.length_map]
  have hpositive : 0 < (positions shape).length := length_positions shape ▸ hpos
  cases tuples with
  | nil =>
    rw [← hcount] at hpositive
    cases hpositive
  | cons first others =>
    have hgather : ((first :: others).mapM (s.bodyValue req iterators body) >>= fun values =>
        pure ((Gathering.ofName info.path.last).gather values shape)).Gives ctx₁ log₁ v ctx' log' := by
      subst hshape
      cases hg : Gathering.ofName info.path.last with
      | fold => exact absurd hg hname
      | _ =>
        simp only [hg] at h
        exact h
    obtain ⟨values, ctx₃, log₃, hvalues, hpure⟩ := EvalM.gives_bind.mp hgather
    obtain ⟨rfl, rfl, rfl⟩ := EvalM.gives_pure.mp hpure
    have hbodies := EvalM.threads_of_mapM hvalues
    obtain ⟨value, rfl⟩ := exists_map_positions (hbodies.length_eq.trans hcount)
      (List.length_pos_iff.mp hpositive)
    have hv := Gathering.gather_positions hname (hshapes.ne_nil hsequences) hpos hword value
    refine ⟨shape, first :: others, value, hshapes, hpositions, hbodies, hv, fun ks hks => ?_⟩
    rw [hv]
    exact Value.entryAt?_tabulate (Gathering.elementList_level _) hks _

end Steps

/-- An array, list or reversed list reduction with iterators that succeeds, at any depth of an
evaluation: every iterator has a sequence, from the first iterator to the last, and if no sequence is
empty, the result is collected over them. -/
theorem reduction_collects (ev : Evaluator) {n : Nat} {req : Request} {info : ReductionInfo}
    {body : Expr} {iterators : List Iterator} {v : Value} {ctx ctx' : Context} {log log' : Log}
    (hname : Gathering.ofName info.path.last ≠ .fold) (hsome : iterators ≠ [])
    (h : ((ev.steps (n + 1)).eval req (.reduction info body iterators)).Gives ctx log v ctx' log') :
    ∃ sequences ctx₁ log₁,
      Threads ((ev.steps n).Selects req) iterators ctx
          { log with counters :=
            { log.counters with expressions := log.counters.expressions + 1 } }
          sequences ctx₁ log₁
        ∧ ((∀ items ∈ sequences, items ≠ []) →
          (ev.steps n).Collects req info body iterators sequences ctx₁ log₁ v ctx' log') := by
  obtain ⟨_, ctx₀, log₀, hcount, h⟩ := EvalM.gives_bind.mp h
  cases hcount
  exact Steps.reduction_gives hname hsome h

/-- The iterators `i in {1, 2, 3} guard i > 1` and `j in {1, 2}`. -/
def Iterator.tens : List Iterator :=
  [.mk "i" (.arrayOf [.integer 1, .integer 2, .integer 3])
      (some (.relation (.reference [.mk "i" []] .integer) .greater (.integer 1))) .integer,
    .mk "j" (.arrayOf [.integer 1, .integer 2]) none .integer]

/-- The expression `10 * i + j`. -/
def Expr.tens : Expr :=
  .binary (.binary (.integer 10) (.arith .mul .scalars) (.reference [.mk "i" []] .integer))
    (.arith .add .scalars) (.reference [.mk "j" []] .integer)

/-- Collecting into reversed lists. -/
def ReductionInfo.reversed : ReductionInfo :=
  .mk (.ident "listReverse") .combine .unknown none "value" "result" none

/-- The values of `10 * i + j` are 21, 31, 22 and 32 in this order; mirrored at both levels they are
the lists `{{32, 22}, {31, 21}}`. -/
theorem reduction_collects_reversed :
    ∃ log sequences ctx₁ log₁,
      (((Evaluator.alone ⟨9, .none⟩).steps 6).eval ⟨.empty, .explicit, .silent⟩
          (.reduction .reversed .tens Iterator.tens)).Gives .empty (.start .unlimited)
          (.listOf [.listOf [.integer 32, .integer 22], .listOf [.integer 31, .integer 21]]) .empty
          log
        ∧ Threads (((Evaluator.alone ⟨9, .none⟩).steps 5).Selects ⟨.empty, .explicit, .silent⟩)
          Iterator.tens .empty { Log.start .unlimited with counters := ⟨1, 0, 0, 0, 0⟩ }
          sequences ctx₁ log₁
        ∧ ((∀ items ∈ sequences, items ≠ []) →
          ((Evaluator.alone ⟨9, .none⟩).steps 5).Collects ⟨.empty, .explicit, .silent⟩ .reversed
            .tens Iterator.tens sequences ctx₁ log₁
            (.listOf [.listOf [.integer 32, .integer 22], .listOf [.integer 31, .integer 21]])
            .empty log) := by
  have hrun : ∃ log, (((Evaluator.alone ⟨9, .none⟩).steps 6).eval ⟨.empty, .explicit, .silent⟩
      (.reduction .reversed .tens Iterator.tens)).Gives .empty (.start .unlimited)
      (.listOf [.listOf [.integer 32, .integer 22], .listOf [.integer 31, .integer 21]]) .empty
      log := ⟨_, rfl⟩
  obtain ⟨log, hrun⟩ := hrun
  obtain ⟨sequences, ctx₁, log₁, hsequences, hcollects⟩ :=
    reduction_collects (Evaluator.alone ⟨9, .none⟩) (by decide) (by decide) hrun
  exact ⟨log, sequences, ctx₁, log₁, hrun, hsequences, hcollects⟩

end ModelicaFold
