import ModelicaFold.Proofs.Folding.Literals
import ModelicaFold.Proofs.Quoting.Markers

/-!
# Splicing is substitution

Splicing evaluates the outermost markers of quoted code, one after the other from left to right, and
puts the code of their values in their places; nothing else in the code changes. A marker is
evaluated with as many levels less as nodes are around it. The induction is over the code; one lemma
(`Code.gives_mapParts`) says of every form of node that its direct parts are spliced from left to
right and that it is put together from the results as it was.
-/

namespace ModelicaFold

/-! ## Steps on the direct parts -/

namespace EvalM

variable {α β : Type} {f : α → EvalM β} {ctx ctx₁ ctx' : Context} {log log₁ log' : Log}

/-- Nothing is done for an empty list. -/
theorem gives_mapM_nil : (([] : List α).mapM f).Gives ctx log [] ctx log :=
  gives_pure.mpr ⟨rfl, rfl, rfl⟩

/-- A step for the head and steps for the rest are steps for the whole list. -/
theorem Gives.cons {a : α} {items : List α} {b : β} {bs : List β}
    (ha : (f a).Gives ctx log b ctx₁ log₁) (hitems : (items.mapM f).Gives ctx₁ log₁ bs ctx' log') :
    ((a :: items).mapM f).Gives ctx log (b :: bs) ctx' log' := by
  rw [List.mapM_cons]
  exact gives_bind.mpr ⟨_, _, _, ha, gives_bind.mpr ⟨_, _, _, hitems,
    gives_pure.mpr ⟨rfl, rfl, rfl⟩⟩⟩

/-- Steps for two lists one after the other are steps for the lists together. -/
theorem Gives.append {items more : List α} {bs bs' : List β}
    (h : (items.mapM f).Gives ctx log bs ctx₁ log₁)
    (hmore : (more.mapM f).Gives ctx₁ log₁ bs' ctx' log') :
    ((items ++ more).mapM f).Gives ctx log (bs ++ bs') ctx' log' := by
  rw [List.mapM_append]
  exact gives_bind.mpr ⟨_, _, _, h, gives_bind.mpr ⟨_, _, _, hmore,
    gives_pure.mpr ⟨rfl, rfl, rfl⟩⟩⟩

/-- Steps for a list are a step for its head and steps for the rest. -/
theorem gives_mapM_cons {a : α} {items : List α} {results : List β}
    (h : ((a :: items).mapM f).Gives ctx log results ctx' log') :
    ∃ b bs ctx₁ log₁, (f a).Gives ctx log b ctx₁ log₁
      ∧ (items.mapM f).Gives ctx₁ log₁ bs ctx' log' ∧ results = b :: bs := by
  rw [List.mapM_cons] at h
  obtain ⟨b, ctx₁, log₁, hb, h⟩ := gives_bind.mp h
  obtain ⟨bs, ctx₂, log₂, hbs, h⟩ := gives_bind.mp h
  obtain ⟨rfl, rfl, rfl⟩ := gives_pure.mp h
  exact ⟨b, bs, ctx₁, log₁, hb, hbs, rfl⟩

/-- There are as many results as items. -/
theorem Gives.length_eq {items : List α} {bs : List β}
    (h : (items.mapM f).Gives ctx log bs ctx' log') : bs.length = items.length :=
  (gives_mapM h).length_eq.symm

/-- The result of a step, put together from it. -/
theorem gives_map {x : EvalM α} {g : α → β} {b : β}
    (h : (x >>= fun a => pure (g a)).Gives ctx log b ctx' log') :
    ∃ a, x.Gives ctx log a ctx' log' ∧ b = g a := by
  obtain ⟨a, ctx₁, log₁, ha, h⟩ := gives_bind.mp h
  obtain ⟨rfl, rfl, rfl⟩ := gives_pure.mp h
  exact ⟨a, ha, rfl⟩

end EvalM

open EvalM

namespace Code

variable {f : Code → EvalM Code} {ctx ctx' : Context} {log log' : Log}

/-! ### Nested parts -/

/-- The branches of a conditional are gone through from left to right. -/
theorem gives_branches {elseIfs elseIfs' : List (Code × Code)}
    (h : (elseIfs.mapM fun ((c, y) : Code × Code) => do
      let c ← f c
      let y ← f y
      return (c, y)).Gives ctx log elseIfs' ctx' log') :
    ((elseIfs.flatMap fun (c, y) => [c, y]).mapM f).Gives ctx log
      (elseIfs'.flatMap fun (c, y) => [c, y]) ctx' log' := by
  induction elseIfs generalizing elseIfs' ctx log with
  | nil =>
    obtain ⟨rfl, rfl, rfl⟩ := gives_pure.mp h
    exact gives_mapM_nil
  | cons branch elseIfs ih =>
    obtain ⟨branch', more, ctx₁, log₁, hbranch, hmore, rfl⟩ := gives_mapM_cons h
    obtain ⟨c, ctx₂, log₂, hc, hbranch⟩ := gives_bind.mp hbranch
    obtain ⟨y, hy, rfl⟩ := gives_map hbranch
    exact .cons hc (.cons hy (ih hmore))

/-- Named arguments are gone through from left to right and keep their names. -/
theorem gives_named {named named' : List (String × Code)}
    (h : (named.mapM fun ((name, arg) : String × Code) => do
      return (name, ← f arg)).Gives ctx log named' ctx' log') :
    ((named.map (·.2)).mapM f).Gives ctx log (named'.map (·.2)) ctx' log'
      ∧ named'.map (·.1) = named.map (·.1) := by
  induction named generalizing named' ctx log with
  | nil =>
    obtain ⟨rfl, rfl, rfl⟩ := gives_pure.mp h
    exact ⟨gives_mapM_nil, rfl⟩
  | cons arg named ih =>
    obtain ⟨arg', more, ctx₁, log₁, harg, hmore, rfl⟩ := gives_mapM_cons h
    obtain ⟨c, hc, rfl⟩ := gives_map harg
    obtain ⟨hargs, hnames⟩ := ih hmore
    exact ⟨.cons hc hargs, by rw [List.map_cons, List.map_cons, hnames]⟩

/-- The rows of a matrix are gone through from left to right and keep their lengths. -/
theorem gives_rows {rows rows' : List (List Code)}
    (h : (rows.mapM fun (row : List Code) => row.mapM f).Gives ctx log rows' ctx' log') :
    (rows.flatten.mapM f).Gives ctx log rows'.flatten ctx' log'
      ∧ (rows.map List.length).splitLengths rows'.flatten = rows' := by
  induction rows generalizing rows' ctx log with
  | nil =>
    obtain ⟨rfl, rfl, rfl⟩ := gives_pure.mp h
    exact ⟨gives_mapM_nil, rfl⟩
  | cons row rows ih =>
    obtain ⟨row', more, ctx₁, log₁, hrow, hmore, rfl⟩ := gives_mapM_cons h
    obtain ⟨hrows, hsplit⟩ := ih hmore
    refine ⟨hrow.append hrows, ?_⟩
    rw [List.map_cons, List.splitLengths_cons, List.flatten_cons, ← hrow.length_eq,
      List.take_left, List.drop_left, hsplit]

/-! ### Every form of node -/

/-- A step on the direct parts of a node takes them from left to right and leaves the node as it is
otherwise. -/
theorem gives_mapParts {c c' : Code} (h : (c.mapParts f).Gives ctx log c' ctx' log') :
    ∃ parts, (c.subcodes.mapM f).Gives ctx log parts ctx' log' ∧ c' = c.withSubcodes parts := by
  cases c with
  | reference path subscripts | array elements | tuple elements | list elements =>
    obtain ⟨parts, hparts, rfl⟩ := gives_map h
    exact ⟨parts, hparts, rfl⟩
  | unary op operand | logicalUnary op operand =>
    obtain ⟨part, hpart, rfl⟩ := gives_map h
    exact ⟨[part], .cons hpart gives_mapM_nil, rfl⟩
  | binary lhs op rhs | logical lhs op rhs | relation lhs op rhs =>
    obtain ⟨a, ctx₁, log₁, ha, h⟩ := gives_bind.mp h
    obtain ⟨b, hb, rfl⟩ := gives_map h
    exact ⟨[a, b], .cons ha (.cons hb gives_mapM_nil), rfl⟩
  | conditional condition yes elseIfs no =>
    obtain ⟨c, ctx₁, log₁, hc, h⟩ := gives_bind.mp h
    obtain ⟨y, ctx₂, log₂, hy, h⟩ := gives_bind.mp h
    obtain ⟨elseIfs', ctx₃, log₃, helseIfs, h⟩ := gives_bind.mp h
    obtain ⟨n, hn, rfl⟩ := gives_map h
    refine ⟨c :: y :: ((elseIfs'.flatMap fun (c, y) => [c, y]) ++ [n]), ?_, ?_⟩
    · exact .cons hc (.cons hy ((gives_branches helseIfs).append (.cons hn gives_mapM_nil)))
    · simp [withSubcodes, branches_append]
  | call function args named =>
    obtain ⟨args', ctx₁, log₁, hargs, h⟩ := gives_bind.mp h
    obtain ⟨named', hnamed, rfl⟩ := gives_map h
    obtain ⟨hnamed, hnames⟩ := gives_named hnamed
    refine ⟨args' ++ named'.map (·.2), hargs.append hnamed, ?_⟩
    rw [withSubcodes, ← hargs.length_eq, List.take_left, List.drop_left, ← hnames,
      ← List.unzip_fst, ← List.unzip_snd, List.zip_unzip]
  | matrix rows =>
    obtain ⟨rows', hrows, rfl⟩ := gives_map h
    obtain ⟨hrows, hsplit⟩ := gives_rows hrows
    exact ⟨rows'.flatten, hrows, by rw [withSubcodes, hsplit]⟩
  | range start step stop =>
    obtain ⟨a, ctx₁, log₁, ha, h⟩ := gives_bind.mp h
    obtain ⟨d, ctx₂, log₂, hd, h⟩ := gives_bind.mp h
    obtain ⟨b, hb, rfl⟩ := gives_map h
    cases step with
    | none =>
      obtain ⟨rfl, rfl, rfl⟩ := gives_pure.mp hd
      exact ⟨[a, b], .cons ha (.cons hb gives_mapM_nil), rfl⟩
    | some step =>
      obtain ⟨part, hpart, rfl⟩ := gives_map (x := f step) (g := some) hd
      exact ⟨[a, part, b], .cons ha (.cons hpart (.cons hb gives_mapM_nil)), rfl⟩
  | _ =>
    obtain ⟨rfl, rfl, rfl⟩ := gives_pure.mp h
    exact ⟨[], gives_mapM_nil, rfl⟩

end Code

/-! ## Every piece of code -/

/-- The value of an expression that is marked inside quoted code, with its depth there. -/
def Evaluator.markedValue (ev : Evaluator) (req : Request) (marker : Nat × Code) : EvalM Value :=
  match ev.elaborate req.env marker.2 with
  | none => EvalM.fail .notConstant
  | some e => (ev.steps (ev.config.recursionLimit - marker.1)).eval req e

/-- What splicing makes of pieces of code, and what it leaves behind: the markers are evaluated one
after the other, and the code of their values is put in their places. -/
def Evaluator.Substitutes (ev : Evaluator) (req : Request) (depth : Nat) (cs cs' : List Code)
    (ctx : Context) (log : Log) (ctx' : Context) (log' : Log) : Prop :=
  ∃ values codes,
    ((cs.flatMap (·.markers depth)).mapM (ev.markedValue req)).Gives ctx log values ctx' log'
      ∧ values.mapM Value.toCode? = some codes
      ∧ ∀ more, cs.mapM Code.fill (codes ++ more) = some (cs', more)

namespace Evaluator

variable {ev : Evaluator} {req : Request} {ctx ctx' : Context} {log log' : Log}

/-- Pieces of code are spliced one after the other. -/
theorem substitutes_mapM {depth : Nat} {f : Code → EvalM Code} {cs cs' : List Code}
    (hf : ∀ c ∈ cs, ∀ {c' ctx log ctx' log'}, (f c).Gives ctx log c' ctx' log' →
      ev.Substitutes req depth [c] [c'] ctx log ctx' log')
    (h : (cs.mapM f).Gives ctx log cs' ctx' log') :
    ev.Substitutes req depth cs cs' ctx log ctx' log' := by
  induction cs generalizing cs' ctx log with
  | nil =>
    obtain ⟨rfl, rfl, rfl⟩ := gives_pure.mp h
    exact ⟨[], [], gives_mapM_nil, rfl, fun _ => rfl⟩
  | cons c cs ih =>
    obtain ⟨c', cs', ctx₁, log₁, hc, hcs, rfl⟩ := gives_mapM_cons h
    obtain ⟨values, codes, hvalues, hcodes, hfill⟩ := hf c List.mem_cons_self hc
    obtain ⟨values', codes', hvalues', hcodes', hfill'⟩ :=
      ih (fun c' hc' => hf c' (List.mem_cons_of_mem c hc')) hcs
    refine ⟨values ++ values', codes ++ codes', ?_, ?_, fun more => ?_⟩
    · simpa only [List.flatMap_cons, List.flatMap_nil, List.append_nil]
        using hvalues.append hvalues'
    · rw [List.mapM_append, hcodes, hcodes']
      rfl
    · obtain ⟨_, _, _, hfill, hnil, heq⟩ := Code.mapM_fill_cons.mp (hfill (codes' ++ more))
      cases hnil
      cases heq
      rw [List.append_assoc]
      exact Code.mapM_fill_cons.mpr ⟨_, _, _, hfill, hfill' more, rfl⟩

/-- A marker is replaced by the code of its value. -/
theorem substitutes_marked {n depth : Nat} (hdepth : n + depth = ev.config.recursionLimit)
    {c marked c' : Code} (hmarked : c.marked? = some marked)
    (h : ((ev.steps n).spliceMarked ev req marked).Gives ctx log c' ctx' log') :
    ev.Substitutes req depth [c] [c'] ctx log ctx' log' := by
  obtain ⟨v, hv, hcode⟩ : ∃ v, (ev.markedValue req (depth, marked)).Gives ctx log v ctx' log'
      ∧ v.toCode? = some c' := by
    have hn : ev.config.recursionLimit - depth = n := by omega
    unfold Steps.spliceMarked at h
    unfold markedValue
    simp only [hn]
    cases helaborate : ev.elaborate req.env marked with
    | none =>
      rw [helaborate] at h
      cases h
    | some e =>
      rw [helaborate] at h
      obtain ⟨v, ctx₁, log₁, hv, h⟩ := gives_bind.mp h
      cases hcode : v.toCode? with
      | none =>
        rw [hcode] at h
        cases h
      | some code =>
        rw [hcode] at h
        obtain ⟨rfl, rfl, rfl⟩ := gives_pure.mp h
        exact ⟨v, hv, hcode⟩
  refine ⟨[v], [c'], ?_, ?_, fun more => ?_⟩
  · simpa [Code.markers_of_marked hmarked] using hv.cons gives_mapM_nil
  · rw [List.mapM_cons, hcode]
    rfl
  · exact Code.mapM_fill_cons.mpr
      ⟨_, _, _, Code.fill_of_marked hmarked c' more, rfl, rfl⟩

/-- Splicing at some depth inside the code, as many levels below the limit, substitutes. -/
theorem substitutes_splice {n depth : Nat} (hdepth : n + depth = ev.config.recursionLimit)
    {c c' : Code} (h : ((ev.steps (n + 1)).splice req c).Gives ctx log c' ctx' log') :
    ev.Substitutes req depth [c] [c'] ctx log ctx' log' := by
  induction c using Code.subcodeInduction generalizing n depth c' ctx log ctx' log' with
  | step c ih =>
    have h : ((ev.steps n).spliceParts ev req c).Gives ctx log c' ctx' log' := h
    unfold Steps.spliceParts at h
    cases hmarked : c.marked? with
    | some marked =>
      rw [hmarked] at h
      exact substitutes_marked hdepth hmarked h
    | none =>
      rw [hmarked] at h
      obtain ⟨parts, hparts, rfl⟩ := Code.gives_mapParts h
      obtain ⟨values, codes, hvalues, hcodes, hfill⟩ :
          ev.Substitutes req (depth + 1) c.subcodes parts ctx log ctx' log' := by
        refine substitutes_mapM (fun part hpart {_ _ _ _ _} hgives => ?_) hparts
        -- the parts are one level deeper, and with no level left they are refused
        cases n with
        | zero => cases hgives
        | succ n => exact ih part hpart (by omega) hgives
      refine ⟨values, codes, ?_, hcodes, fun more => ?_⟩
      · simpa [Code.markers_of_unmarked hmarked] using hvalues
      · have hc := (Code.fill_of_unmarked hmarked).mpr ⟨parts, hfill more, rfl⟩
        exact Code.mapM_fill_cons.mpr ⟨_, _, _, hc, rfl, rfl⟩

/-- Code without markers is spliced to itself, or the limit refuses a step. -/
theorem splice_unmarked (ev : Evaluator) (req : Request) {c : Code} (h : c.Unmarked) (ctx : Context)
    (log : Log) : (∃ log', (ev.splice req c).Gives ctx log c ctx log')
      ∨ AtLimit ev.config.recursionLimit (ev.splice req c ctx log).1 := by
  rcases (settles_splice h).orRefused ev req (ev.config.recursionLimit + 1) ctx log with
    ⟨log', hgives⟩ | hlimit
  · exact .inl ⟨log', EvalM.Gives.reporting hgives req.reporting⟩
  · exact .inr (AtLimit.reporting hlimit req.reporting)

end Evaluator

/-- Splicing is substitution: if it succeeds, then the markers have been evaluated one after the other
from left to right and the code of their values stands in their places, all else being as it was.
Code without markers is spliced to itself, with the same context, unless the limit refuses a step. If
neither quoted code nor a record named `Eval` is in any of the values, the result has no markers, and
splicing it again gives it unchanged, unless the limit refuses a step. -/
theorem splicing_substitutes (ev : Evaluator) (req : Request) (code : Code) (ctx : Context)
    (log : Log) :
    (∀ code' ctx' log', (ev.splice req code).Gives ctx log code' ctx' log' →
      ∃ values codes, ((code.markers 0).mapM (ev.markedValue req)).Gives ctx log values ctx' log'
        ∧ values.mapM Value.toCode? = some codes
        ∧ code.fill codes = some (code', [])
        ∧ ((∀ v ∈ values, v.Everywhere Value.MarksNothing) →
          code'.Unmarked ∧ ∀ ctx log, (∃ log', (ev.splice req code').Gives ctx log code' ctx log')
            ∨ AtLimit ev.config.recursionLimit (ev.splice req code' ctx log).1))
      ∧ (code.Unmarked → (∃ log', (ev.splice req code).Gives ctx log code ctx log')
          ∨ AtLimit ev.config.recursionLimit (ev.splice req code ctx log).1) := by
  refine ⟨fun code' ctx' log' h => ?_, fun h => ev.splice_unmarked req h ctx log⟩
  have hsplice : (ev.start.splice req code).Gives ctx log code' ctx' log' :=
    gives_reporting.mp h
  obtain ⟨values, codes, hvalues, hcodes, hfill⟩ :=
    Evaluator.substitutes_splice (Nat.add_zero _) hsplice
  have hfilled : code.fill codes = some (code', []) := by
    obtain ⟨_, _, _, hfill, hnil, heq⟩ := Code.mapM_fill_cons.mp (hfill [])
    cases hnil
    cases heq
    rwa [List.append_nil] at hfill
  refine ⟨values, codes, by simpa using hvalues, hcodes, hfilled, fun hplain => ?_⟩
  have hunmarked : ∀ c ∈ codes, c.Unmarked :=
    Value.unmarked_of_mapM_toCode? (fun v hv _ => Value.unmarked_toCode? (hplain v hv)) hcodes
  have hresult := (Code.unmarked_fill hfilled hunmarked).1
  exact ⟨hresult, ev.splice_unmarked req hresult⟩

/-- An evaluator to which only integers can be given a type. -/
def Evaluator.readsIntegers : Evaluator :=
  { Evaluator.alone ⟨8, .none⟩ with
    elaborate := fun _ code =>
      match code with
      | .integer n => some (.integer n)
      | _ => none }

/-- The code `x + ` followed by some other one. -/
def Code.xPlus (summand : Code) : Code :=
  .binary (.reference (.ident "x") []) (.arith .add false) summand

/-- In `x + Eval(3)` the marker is replaced by the value 3. The result `x + 3` has no markers, and is
spliced to itself. -/
theorem splicing_substitutes_xPlus :
    ∃ log', ((Evaluator.readsIntegers.splice ⟨.empty, .explicit, .silent⟩
          (.xPlus (.call (.ident "Eval") [.integer 3] []))).Gives .empty (.start .unlimited)
            (.xPlus (.integer 3)) .empty log')
      ∧ (Code.xPlus (.integer 3)).Unmarked
      ∧ ∃ log', (Evaluator.readsIntegers.splice ⟨.empty, .explicit, .silent⟩
          (.xPlus (.integer 3))).Gives .empty (.start .unlimited) (.xPlus (.integer 3)) .empty
            log' := by
  have hspliced : ∃ log', (Evaluator.readsIntegers.splice ⟨.empty, .explicit, .silent⟩
      (.xPlus (.call (.ident "Eval") [.integer 3] []))).Gives .empty (.start .unlimited)
        (.xPlus (.integer 3)) .empty log' := ⟨_, rfl⟩
  obtain ⟨log', hspliced⟩ := hspliced
  obtain ⟨values, codes, hvalues, -, -, hresult⟩ :=
    (splicing_substitutes _ _ _ _ _).1 _ _ _ hspliced
  have hmarkers : (Code.xPlus (.call (.ident "Eval") [.integer 3] [])).markers 0
      = [(1, .integer 3)] := by
    have hx : (Code.reference (.ident "x") []).markers 1 = [] := Code.markers_of_unmarked rfl 1
    have heval : (Code.call (.ident "Eval") [.integer 3] []).markers 1 = [(1, .integer 3)] :=
      Code.markers_of_marked rfl 1
    rw [Code.xPlus, Code.markers_of_unmarked rfl]
    simp [Code.subcodes, hx, heval]
  rw [hmarkers] at hvalues
  obtain ⟨v, _, _, _, hv, hnone, hvs⟩ := gives_mapM_cons hvalues
  cases hv
  cases hnone
  have hplain : ∀ v ∈ values, v.Everywhere Value.MarksNothing := by
    intro v hv
    rw [hvs] at hv
    rw [List.mem_singleton.mp hv]
    exact .intro trivial fun w hw => absurd hw List.not_mem_nil
  obtain ⟨hunmarked, -⟩ := hresult hplain
  refine ⟨_, hspliced, hunmarked, ?_⟩
  rcases (splicing_substitutes Evaluator.readsIntegers ⟨.empty, .explicit, .silent⟩ _ .empty
    (.start .unlimited)).2 hunmarked with hsame | ⟨f, hf, -⟩
  · exact hsame
  · cases hf

end ModelicaFold
