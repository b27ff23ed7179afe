import ModelicaFold.Proofs.Runs.Outcome
import ModelicaFold.Proofs.Shape.Broadcast
import ModelicaFold.Proofs.Shape.Subscripts

/-!
# Subscripts after operations on leaves

An operation that works on the leaves of its operands may be applied before or after literal
subscripts: once it has succeeded on the whole operands, the outcome is the same, failures included.
What is needed of the operation is said level by level (`Value.Levelwise`): what it makes of arrays
consists of what it makes of their elements, also if the sizes are read off these elements, as
subscripts do it. Operands that are subscripted alike form a family, so that an operator of one array
and an operator of two are one case.

No step of subscripting looks at a leaf, so the operands and the result are subscripted in the same
way (`Matched`): all fail for one cause, or the operation makes what is kept of the result from what
is kept of the operands.
-/

namespace ModelicaFold

/-! ## Steps with one outcome -/

/-- From every context and log the step has this outcome, and it leaves the context as it was. -/
def EvalM.Yields {α : Type} (x : EvalM α) (o : Outcome α) : Prop :=
  ∀ ctx log, (x ctx log).1 = o.map fun a => (a, ctx)

namespace EvalM.Yields

variable {α β : Type}

/-- A computation without effects has its one outcome. -/
theorem ofOutcome (o : Outcome α) : (EvalM.ofOutcome o).Yields o := by
  cases o <;> exact fun _ _ => rfl

/-- A pure step has its value as its one outcome. -/
theorem pure (a : α) : (Pure.pure a : EvalM α).Yields (.ok a) := ofOutcome (.ok a)

/-- A sequence has one outcome if its parts do. -/
theorem bind {x : EvalM α} {o : Outcome α} {k : α → EvalM β} {p : α → Outcome β}
    (hx : x.Yields o) (hk : ∀ a, o = .ok a → (k a).Yields (p a)) :
    (x >>= k).Yields (o >>= p) := by
  intro ctx log
  have hrun := hx ctx log
  cases o with
  | error f => rw [EvalM.bind_of_error hrun k]; rfl
  | ok a => rw [EvalM.bind_of_ok hrun k]; exact hk a rfl ctx _

/-- A sequence has the outcome of its second part after a value. -/
theorem bind_ok {x : EvalM α} {a : α} {k : α → EvalM β} {o : Outcome β} (hx : x.Yields (.ok a))
    (hk : (k a).Yields o) : (x >>= k).Yields o :=
  hx.bind (p := fun _ => o) fun _ h => by cases h; exact hk

/-- A sequence has the failure of its first part. -/
theorem bind_error {x : EvalM α} {f : Failure} (hx : x.Yields (.error f)) (k : α → EvalM β) :
    (x >>= k).Yields (.error f) :=
  hx.bind (p := fun _ => .error f) nofun

/-- Mapping a list has one outcome if each step does. -/
theorem mapM {f : α → EvalM β} {g : α → Outcome β} {items : List α}
    (h : ∀ a ∈ items, (f a).Yields (g a)) : (items.mapM f).Yields (items.mapM g) := by
  induction items with
  | nil => exact pure []
  | cons a items ih =>
    rw [List.mapM_cons, List.mapM_cons]
    refine (h a List.mem_cons_self).bind fun b _ => ?_
    exact (ih fun c hc => h c (List.mem_cons_of_mem a hc)).bind fun bs _ => pure (b :: bs)

end EvalM.Yields

/-- The evaluation of an expression has one outcome if its rule has one at every level. -/
theorem yields_eval {ev : Evaluator} {req : Request} {e : Expr}
    (h : ∀ n, ∃ o, ((ev.steps n).rule ev req e).Yields o) (n : Nat) :
    ∃ o, ((ev.steps n).eval req e).Yields o := by
  cases n with
  | zero => exact ⟨.error (.of (.recursionLimit _)), fun _ _ => rfl⟩
  | succ n =>
    obtain ⟨o, ho⟩ := h n
    exact ⟨o, fun ctx log => ho ctx _⟩

/-- Expressions with one outcome each have one together. -/
theorem yields_mapM {α β : Type} {f : α → EvalM β} {items : List α}
    (h : ∀ a ∈ items, ∃ o, (f a).Yields o) : ∃ o, (items.mapM f).Yields o := by
  have hall : ∀ a, ∃ o, a ∈ items → (f a).Yields o := fun a => by
    by_cases ha : a ∈ items
    · obtain ⟨o, ho⟩ := h a ha
      exact ⟨o, fun _ => ho⟩
    · exact ⟨.error (.of .notConstant), fun ha' => absurd ha' ha⟩
  choose g hg using hall
  exact ⟨_, .mapM hg⟩

/-- A literal index has the same outcome every time, at whatever level. -/
theorem yields_of_literalIndex (ev : Evaluator) (req : Request) {e : Expr} (h : e.LiteralIndex)
    (n : Nat) : ∃ o, ((ev.steps n).eval req e).Yields o := by
  induction h generalizing n with
  | integer k => exact yields_eval (fun _ => ⟨_, .pure _⟩) n
  | bool b => exact yields_eval (fun _ => ⟨_, .pure _⟩) n
  | enumeration path index => exact yields_eval (fun _ => ⟨_, .pure _⟩) n
  | array ty flag _ ih =>
    refine yields_eval (fun n => ?_) n
    obtain ⟨o, ho⟩ := yields_mapM fun e he => ih e he n
    exact ⟨_, ho.bind fun values _ => .pure _⟩
  | @range ty start stop step _ _ _ ihstart ihstep ihstop =>
    refine yields_eval (fun n => ?_) n
    obtain ⟨a, ha⟩ := ihstart n
    obtain ⟨b, hb⟩ := ihstop n
    have hd : ∃ d, (step.mapM ((ev.steps n).eval req)).Yields d := by
      cases step with
      | none => exact ⟨_, .pure none⟩
      | some e =>
        obtain ⟨d, hd⟩ := ihstep e rfl n
        exact ⟨_, hd.bind fun v _ => .pure (some v)⟩
    obtain ⟨d, hd⟩ := hd
    exact ⟨_, ha.bind fun _ _ => hd.bind fun _ _ => hb.bind fun _ _ =>
      (EvalM.Yields.ofOutcome _).bind fun _ _ => .pure _⟩

namespace Value

variable {ι : Type}

/-! ## Operations that go level by level -/

/-- The operands are consistent and have these sizes. -/
def Alike (inner : List Nat) (w : ι → Value) : Prop :=
  ∀ i, (w i).Consistent ∧ (w i).dims = inner

/-- Operands that are arrays, from the operands that are their elements. -/
def rows (ws : List (ι → Value)) (inner : List Nat) : ι → Value :=
  fun i => .array (ws.map (· i)).toArray (ws.length :: inner)

/-- Arrays of the same sizes consist of elements of the same sizes. -/
theorem Alike.eq_rows {v : ι → Value} {n : Nat} {inner : List Nat} (h : Alike (n :: inner) v) :
    ∃ ws, ws.length = n ∧ (∀ w ∈ ws, Alike inner w) ∧ v = rows ws inner := by
  choose elements heq hlength hall using fun i => (h i).1.elements (h i).2
  refine ⟨(List.range n).map fun k i => (elements i).getD k .fail, by simp, ?_, funext fun i => ?_⟩
  · intro w hw i
    obtain ⟨k, hk, rfl⟩ := List.mem_map.mp hw
    have hk : k < (elements i).length := by rw [hlength i]; exact List.mem_range.mp hk
    refine hall i ((elements i).getD k .fail) ?_
    rw [List.getD_eq_getElem _ _ hk]
    exact List.getElem_mem hk
  · have helements : elements i = (List.range n).map fun k => (elements i).getD k .fail := by
      refine List.ext_getElem (by simp [hlength i]) fun k hk _ => ?_
      simp [List.getElem?_eq_getElem hk]
    rw [heq i, rows, List.map_map, List.length_map, List.length_range]
    exact congrArg (fun items => Value.array (List.toArray items) (n :: inner)) helements

/-- Arrays whose sizes are read off elements of the same sizes have the same sizes. -/
theorem alike_arrayOf {ws : List (ι → Value)} {inner : List Nat} (h : ∀ w ∈ ws, Alike inner w) :
    Alike (if ws.length = 0 then [0] else ws.length :: inner)
      fun i => arrayOf (ws.map (· i)) := by
  intro i
  have hall : ∀ v ∈ ws.map (· i), v.Consistent ∧ v.dims = inner := by
    intro v hv
    obtain ⟨w, hw, rfl⟩ := List.mem_map.mp hv
    exact h w hw i
  exact ⟨consistent_arrayOf hall, by rw [dims_arrayOf_of hall, List.length_map]⟩

/-- What the operation makes of arrays consists of what it makes of their elements. -/
structure Levelwise (op : (ι → Value) → Outcome Value) : Prop where
  /-- The result for arrays has the results for their elements; its other sizes may differ. -/
  elements : ∀ {ws : List (ι → Value)} {inner : List Nat} {c : Value},
    (∀ w ∈ ws, Alike inner w) → op (rows ws inner) = .ok c →
    ∃ cs sizes, ws.mapM op = .ok cs ∧ c = .array cs.toArray (ws.length :: sizes)
  /-- Sizes may be read off the elements before the operation or after it. -/
  arrayOf : ∀ {ws : List (ι → Value)} {inner : List Nat} {cs : List Value},
    (∀ w ∈ ws, Alike inner w) → ws.mapM op = .ok cs →
    op (fun i => Value.arrayOf (ws.map (· i))) = .ok (Value.arrayOf cs)

end Value

/-! ## Operands and result side by side -/

/-- An item of two related lists, or of none of them. -/
theorem nth?_forall₂ {α β : Type} {R : α → β → Prop} {as : List α} {bs : List β}
    (h : List.Forall₂ R as bs) (p : Int) :
    (nth? as p = none ∧ nth? bs p = none)
      ∨ ∃ a b, nth? as p = some a ∧ nth? bs p = some b ∧ R a b := by
  unfold nth?
  by_cases hp : 1 ≤ p
  · simp only [if_pos hp]
    by_cases hlt : (p - 1).toNat < as.length
    · have hlt' : (p - 1).toNat < bs.length := by rw [← h.length_eq]; exact hlt
      exact .inr ⟨_, _, List.getElem?_eq_getElem hlt, List.getElem?_eq_getElem hlt',
        h.get hlt hlt'⟩
    · have hge : as.length ≤ (p - 1).toNat := Nat.le_of_not_lt hlt
      exact .inl ⟨List.getElem?_eq_none hge, List.getElem?_eq_none (by rw [← h.length_eq]; exact hge)⟩
  · exact .inl ⟨if_neg hp, if_neg hp⟩

/-- The item of a mapped list at a position is that of the list, mapped. -/
theorem nth?_map {α β : Type} (f : α → β) (items : List α) (p : Int) :
    nth? (items.map f) p = (nth? items p).map f := by
  unfold nth?
  split
  · exact List.getElem?_map
  · rfl

open Value

variable {ι : Type} {op : (ι → Value) → Outcome Value} {inner : List Nat}

/-- Steps for operands and a step for the result: all fail alike, or the operation makes the value
of the one from the values of the others, which have the given sizes. -/
inductive Matched (op : (ι → Value) → Outcome Value) (inner : List Nat) (x : ι → EvalM Value)
    (y : EvalM Value) : Prop where
  | fails {f : Failure} : (∀ i, (x i).Yields (.error f)) → y.Yields (.error f) → Matched op inner x y
  | gives {w : ι → Value} {d : Value} : Alike inner w → op w = .ok d →
      (∀ i, (x i).Yields (.ok (w i))) → y.Yields (.ok d) → Matched op inner x y

namespace Matched

variable {α β : Type}

/-- Operands that are alike and combined are matched by their result. -/
theorem pure {v : ι → Value} {c : Value} (hv : Alike inner v) (hc : op v = .ok c) :
    Matched op inner (fun i => Pure.pure (v i)) (Pure.pure c) :=
  .gives hv hc (fun i => .pure (v i)) (.pure c)

/-- After a common step with one outcome. -/
theorem bind {z : EvalM α} {o : Outcome α} (hz : z.Yields o) {k : ι → α → EvalM Value}
    {l : α → EvalM Value} (h : ∀ a, o = .ok a → Matched op inner (fun i => k i a) (l a)) :
    Matched op inner (fun i => z >>= k i) (z >>= l) := by
  cases o with
  | error f => exact .fails (fun i => hz.bind_error (k i)) (hz.bind_error l)
  | ok a =>
    cases h a rfl with
    | fails hx hy => exact .fails (fun i => hz.bind_ok (hx i)) (hz.bind_ok hy)
    | gives hw hd hx hy => exact .gives hw hd (fun i => hz.bind_ok (hx i)) (hz.bind_ok hy)

/-- The elements at one position: of all arrays there is one, or of none. -/
theorem select {ws : List (ι → Value)} {cs : List Value} {inner' : List Nat}
    {k : Value → EvalM Value}
    (h : List.Forall₂ (fun w d => Matched op inner' (fun i => k (w i)) (k d)) ws cs)
    (sizes : List Nat) (p : Int) :
    Matched op inner' (fun i => liftM ((rows ws inner i).select p) >>= k)
      (liftM ((Value.array cs.toArray sizes).select p) >>= k) := by
  simp only [rows, Value.select, nth_eq, List.size_toArray, List.length_map, ← h.length_eq,
    nth?_map]
  rcases nth?_forall₂ h p with ⟨hnone, hnone'⟩ | ⟨w, d, hsome, hsome', hd⟩
  · simp only [hnone, hnone', Option.map_none]
    exact .fails (fun i => .bind_error (.ofOutcome _) k) (.bind_error (.ofOutcome _) k)
  · simp only [hsome, hsome', Option.map_some]
    exact hd

/-- Several steps one after the other: all of them fail alike, or all succeed. -/
theorem mapM {as : List α} {bs : List β} {f : ι → α → EvalM Value} {g : β → EvalM Value}
    (h : List.Forall₂ (fun a b => Matched op inner (fun i => f i a) (g b)) as bs) :
    (∃ e : Failure, (∀ i, (as.mapM (f i)).Yields (.error e)) ∧ (bs.mapM g).Yields (.error e))
      ∨ ∃ (ws : List (ι → Value)) (ds : List Value), ws.length = as.length
        ∧ (∀ w ∈ ws, Alike inner w) ∧ ws.mapM op = .ok ds
        ∧ (∀ i, (as.mapM (f i)).Yields (.ok (ws.map (· i)))) ∧ (bs.mapM g).Yields (.ok ds) := by
  induction h with
  | nil => exact .inr ⟨[], [], rfl, by simp, rfl, fun _ => .pure [], .pure []⟩
  | cons hab _ ih =>
    simp only [List.mapM_cons]
    cases hab with
    | @fails e hx hy => exact .inl ⟨e, fun i => (hx i).bind_error _, hy.bind_error _⟩
    | @gives w d hw hd hx hy =>
      rcases ih with ⟨e, hxs, hys⟩ | ⟨ws, ds, hlength, hws, hds, hxs, hys⟩
      · exact .inl ⟨e, fun i => (hx i).bind_ok ((hxs i).bind_error _), hy.bind_ok (hys.bind_error _)⟩
      · refine .inr ⟨w :: ws, d :: ds, congrArg (· + 1) hlength, List.forall_mem_cons.mpr ⟨hw, hws⟩,
          ?_, fun i => (hx i).bind_ok ((hxs i).bind_ok (.pure _)), hy.bind_ok (hys.bind_ok (.pure _))⟩
        rw [List.mapM_cons, hd, Outcome.ok_bind, hds]
        rfl

/-- Several steps, whose values are put into an array. -/
theorem arrayOf (hop : Levelwise op) {as : List α} {bs : List β} {f : ι → α → EvalM Value}
    {g : β → EvalM Value}
    (h : List.Forall₂ (fun a b => Matched op inner (fun i => f i a) (g b)) as bs) :
    Matched op (if as.length = 0 then [0] else as.length :: inner)
      (fun i => as.mapM (f i) >>= fun vs => Pure.pure (Value.arrayOf vs))
      (bs.mapM g >>= fun vs => Pure.pure (Value.arrayOf vs)) := by
  rcases Matched.mapM h with ⟨e, hxs, hys⟩ | ⟨ws, ds, hlength, hws, hds, hxs, hys⟩
  · exact .fails (fun i => (hxs i).bind_error _) (hys.bind_error _)
  · rw [← hlength]
    exact .gives (alike_arrayOf hws) (hop.arrayOf hws hds) (fun i => (hxs i).bind_ok (.pure _))
      (hys.bind_ok (.pure _))

end Matched

/-- Subscripts that have one outcome each select from the result what the operation makes of what
they select from the operands. The sizes of what is selected depend on those of the operands alone,
so that it can be put into arrays. -/
theorem Value.Levelwise.applySubscripts (hop : Levelwise op) {s : Steps} {req : Request}
    {subscripts : List Subscript}
    (hyields : ∀ sub ∈ subscripts, sub.Satisfies fun e => ∃ o, (s.eval req e).Yields o)
    {dims : List Nat} (hrank : subscripts.length ≤ dims.length) :
    ∃ dims', ∀ v c, Alike dims v → op v = .ok c →
      Matched op dims' (fun i => s.applySubscripts req subscripts (v i))
        (s.applySubscripts req subscripts c) := by
  induction subscripts generalizing dims with
  | nil => exact ⟨dims, fun v c hv hc => .pure hv hc⟩
  | cons subscript rest ih =>
    obtain ⟨hfirst, hrest⟩ := List.forall_mem_cons.mp hyields
    obtain ⟨n, inner, rfl⟩ : ∃ n inner, dims = n :: inner :=
      List.exists_cons_of_length_pos (Nat.lt_of_lt_of_le (Nat.succ_pos _) hrank)
    obtain ⟨dims', hmatched⟩ := ih hrest (Nat.le_of_succ_le_succ hrank)
    -- what follows the first subscript applies to the elements of operands and result alike
    have hrows : ∀ {ws : List (ι → Value)} {c : Value}, (∀ w ∈ ws, Alike inner w) →
        op (rows ws inner) = .ok c → ∃ cs sizes, c = .array cs.toArray (ws.length :: sizes)
          ∧ List.Forall₂ (fun w d => Matched op dims'
              (fun i => s.applySubscripts req rest (w i)) (s.applySubscripts req rest d)) ws cs := by
      intro ws c hws hc
      obtain ⟨cs, sizes, hcs, rfl⟩ := hop.elements hws hc
      exact ⟨cs, sizes, rfl, ((List.forall₂_and_left _ _).mpr ⟨hws, Outcome.mapM_eq_ok.mp hcs⟩).imp
        fun w d h => hmatched w d h.1 h.2⟩
    cases subscript with
    | index e =>
      obtain ⟨o, ho⟩ := hfirst
      refine ⟨dims', fun v c hv hc => ?_⟩
      obtain ⟨ws, rfl, hws, rfl⟩ := hv.eq_rows
      obtain ⟨cs, sizes, rfl, helements⟩ := hrows hws hc
      refine .bind ho fun index _ => .bind (.ofOutcome index.position) fun p _ => ?_
      exact .select helements _ p
    | slice e =>
      obtain ⟨o, ho⟩ := hfirst
      cases o with
      | error f =>
        exact ⟨[], fun v c _ _ => .fails (fun i => ho.bind_error _) (ho.bind_error _)⟩
      | ok indices =>
        refine ⟨if indices.flatten.length = 0 then [0] else indices.flatten.length :: dims',
          fun v c hv hc => ?_⟩
        obtain ⟨ws, rfl, hws, rfl⟩ := hv.eq_rows
        obtain ⟨cs, sizes, rfl, helements⟩ := hrows hws hc
        refine .bind ho fun _ h => ?_
        cases h
        refine .arrayOf hop (List.forall₂_same.mpr fun index _ => ?_)
        exact .bind (.ofOutcome index.position) fun p _ => .select helements _ p
    | whole =>
      by_cases hlast : rest.isEmpty = true
      · refine ⟨n :: inner, fun v c hv hc => ?_⟩
        simp only [Steps.applySubscripts, hlast, if_true]
        exact .pure hv hc
      refine ⟨if n = 0 then [0] else n :: dims', fun v c hv hc => ?_⟩
      obtain ⟨ws, rfl, hws, rfl⟩ := hv.eq_rows
      obtain ⟨cs, sizes, rfl, helements⟩ := hrows hws hc
      have hkept := Matched.arrayOf hop helements
      simp only [Steps.applySubscripts, if_neg hlast, rows]
      cases helements with
      | nil => exact hkept
      | cons hfirst hothers =>
        simpa [List.mapM_map, Function.comp_def] using hkept

/-! ## The operations -/

namespace Value

/-- The first element has the sizes that the results have. -/
theorem dims_head_of_forall₂ {α : Type} {R : α → Value → Prop} {f : α → Value} {as : List α}
    {cs : List Value} (h : List.Forall₂ R as cs) (hdims : ∀ a c, R a c → c.dims = (f a).dims) :
    ((as.map f).head?.map dims).getD [] = (cs.head?.map dims).getD [] := by
  cases h with
  | nil => rfl
  | cons hac _ => exact (hdims _ _ hac).symm

/-- An operation on leaves that gives atoms goes level by level. -/
theorem levelwise_mapLeaves {f : Value → Outcome Value} (hf : ∀ v w, f v = .ok w → w.IsAtom) :
    Levelwise fun w : Unit → Value => (w ()).mapLeaves f := by
  have hmap : ∀ (ws : List (Unit → Value)) sizes,
      (Value.array (ws.map (· ())).toArray sizes).mapLeaves f
        = (ws.mapM fun (w : Unit → Value) => (w ()).mapLeaves f).map fun cs => .array cs.toArray sizes := by
    intro ws sizes
    rw [mapLeaves, mapAllLeaves_eq_mapM, List.mapM_map]
    rfl
  constructor
  · intro ws inner c _ hc
    rw [rows, hmap] at hc
    obtain ⟨cs, hcs, rfl⟩ := Outcome.map_eq_ok.mp hc
    exact ⟨cs, inner, hcs, rfl⟩
  · intro ws inner cs hws hcs
    have hforall := (List.forall₂_and_left _ _).mpr ⟨hws, Outcome.mapM_eq_ok.mp hcs⟩
    have hhead := dims_head_of_forall₂ (f := fun w => w ()) hforall fun w c h =>
      ((h.1 ()).1.mapLeaves hf h.2).2
    simp only [Value.arrayOf, hmap, hcs, hhead, List.length_map, hforall.length_eq]
    rfl

/-- Projecting a field goes level by level. -/
theorem levelwise_project (name : String) :
    Levelwise fun w : Unit → Value => (w ()).project name := by
  have hproject : ∀ (ws : List (Unit → Value)) sizes, ws ≠ [] →
      (Value.array (ws.map (· ())).toArray sizes).project name
        = (ws.mapM fun (w : Unit → Value) => (w ()).project name).map Value.arrayOf := by
    intro ws sizes hne
    obtain ⟨w, ws, rfl⟩ := List.exists_cons_of_ne_nil hne
    rw [List.map_cons, project, ← List.map_cons (f := fun w : Unit → Value => w ()),
      projectAll_eq_mapM, List.mapM_map]
    rfl
  constructor
  · intro ws inner c _ hc
    by_cases hne : ws = []
    · subst hne
      cases hc
      exact ⟨[], inner, rfl, rfl⟩
    · rw [rows, hproject ws _ hne] at hc
      obtain ⟨cs, hcs, rfl⟩ := Outcome.map_eq_ok.mp hc
      exact ⟨cs, _, hcs, by rw [← Outcome.length_of_mapM_eq_ok hcs]; rfl⟩
  · intro ws inner cs _ hcs
    by_cases hne : ws = []
    · subst hne
      cases hcs
      rfl
    · simp only [Value.arrayOf, hproject ws _ hne, hcs]
      rfl

/-- There is a value if the shapes fit and the leaves are combined. -/
theorem orShape_eq_ok {o : Option (Outcome Value)} {message : String} {c : Value} :
    orShape o message = .ok c ↔ o = some (.ok c) := by
  cases o with
  | none => exact ⟨nofun, nofun⟩
  | some o => simp [orShape]

/-- Lists of leaves are combined pair by pair. -/
theorem zipAllLeaves_eq_ok_iff {f : Value → Value → Outcome Value} {ws : List (Bool → Value)}
    {cs : List Value} :
    zipAllLeaves f (ws.map (· false)) (ws.map (· true)) = some (.ok cs) ↔
      List.Forall₂ (fun w c => (w false).zipLeaves f (w true) = some (.ok c)) ws cs := by
  induction ws generalizing cs with
  | nil => simp [zipAllLeaves, eq_comm]
  | cons w ws ih =>
    rw [List.map_cons, List.map_cons, zipAllLeaves, List.forall₂_cons_left_iff]
    simp only [← ih]
    rcases (w false).zipLeaves f (w true) with _ | _ | c
    · simp
    · simp
    · generalize zipAllLeaves f (ws.map (· false)) (ws.map (· true)) = zipped
      rcases zipped with _ | _ | cs'
      · simp
      · simp
      · simp [eq_comm]

/-- Combining leaves to atoms goes level by level. -/
theorem levelwise_zipLeaves {f : Value → Value → Outcome Value}
    (hf : ∀ x y z, f x y = .ok z → z.IsAtom) (message : (Bool → Value) → String) :
    Levelwise fun w : Bool → Value => orShape ((w false).zipLeaves f (w true)) (message w) := by
  have hzip : ∀ (ws : List (Bool → Value)) sizes,
      (Value.array (ws.map (· false)).toArray sizes).zipLeaves f
          (.array (ws.map (· true)).toArray sizes)
        = (zipAllLeaves f (ws.map (· false)) (ws.map (· true))).map
          fun r => r.map fun zipped => .array zipped.toArray sizes := by
    intro ws sizes
    rw [zipLeaves, if_pos ⟨rfl, by simp⟩]
  have hforall : ∀ {ws : List (Bool → Value)} {cs},
      (ws.mapM fun w => orShape ((w false).zipLeaves f (w true)) (message w)) = .ok cs ↔
        zipAllLeaves f (ws.map (· false)) (ws.map (· true)) = some (.ok cs) := by
    intro ws cs
    simp only [Outcome.mapM_eq_ok, orShape_eq_ok, zipAllLeaves_eq_ok_iff]
  constructor
  · intro ws inner c _ hc
    rw [orShape_eq_ok, rows, rows, hzip] at hc
    obtain ⟨r, hr, hc⟩ := Option.map_eq_some_iff.mp hc
    obtain ⟨cs, rfl, rfl⟩ := Outcome.map_eq_ok.mp hc
    exact ⟨cs, inner, hforall.mpr hr, rfl⟩
  · intro ws inner cs hws hcs
    have hall := (List.forall₂_and_left _ _).mpr
      ⟨hws, zipAllLeaves_eq_ok_iff.mp (hforall.mp hcs)⟩
    have hheads : ∀ i, ((ws.map (· i)).head?.map dims).getD [] = (cs.head?.map dims).getD [] :=
      fun i => dims_head_of_forall₂ (f := fun w => w i) hall fun w c h => by
        rw [((h.1 false).1.zipLeaves hf h.2).2, (h.1 false).2, (h.1 i).2]
    simp only [orShape_eq_ok, Value.arrayOf, hheads, List.length_map, hzip, hforall.mp hcs,
      hall.length_eq]
    rfl

/-- The operations of one array that work on its leaves. -/
inductive LeafOperation where
  | negate
  | not
  | cast (ty : Ty) (convert : Value → Outcome Value) (h : castLeaf? ty = some convert)
  /-- An operator whose left operand is the array. -/
  | arrayScalar (op : Arith) (scalar : Value)
  /-- An operator whose right operand is the array. -/
  | scalarArray (op : Arith) (scalar : Value)
  | field (name : String)

namespace LeafOperation

/-- What an operation makes of a value. -/
def apply : LeafOperation → Value → Outcome Value
  | .negate, v => v.negate
  | .not, v => v.logicalNot
  | .cast _ convert _, v => v.mapLeaves convert
  | .arrayScalar op scalar, v => binary (.arith op .arrayScalar) v scalar
  | .scalarArray op scalar, v => binary (.arith op .scalarArray) scalar v
  | .field name, v => v.project name

/-- Each operation on the leaves of one array goes level by level. -/
theorem levelwise (f : LeafOperation) : Levelwise fun w : Unit → Value => f.apply (w ()) := by
  cases f with
  | negate => exact levelwise_mapLeaves fun _ _ => isAtom_negateLeaf
  | not => exact levelwise_mapLeaves fun _ _ => isAtom_notLeaf
  | cast ty convert h => exact levelwise_mapLeaves fun _ _ => isAtom_castLeaf h
  | arrayScalar op scalar => exact levelwise_mapLeaves fun _ _ => isAtom_scalarArith
  | scalarArray op scalar => exact levelwise_mapLeaves fun _ _ => isAtom_scalarArith
  | field name => exact levelwise_project name

end LeafOperation

/-- Arithmetic on the elements of two arrays goes level by level. -/
theorem levelwise_arrays (op : Arith) :
    Levelwise fun w : Bool → Value => binary (.arith op .arrays) (w false) (w true) :=
  levelwise_zipLeaves (fun _ _ _ => isAtom_scalarArith) _

end Value

/-! ## Before or after -/

section

variable {ev : Evaluator} {req : Request} {n : Nat} {subscripts : List Subscript}
  (hliteral : ∀ subscript ∈ subscripts, subscript.Satisfies Expr.LiteralIndex)

include hliteral

/-- Literal subscripts have one outcome each. -/
theorem yields_of_literals : ∀ subscript ∈ subscripts,
    subscript.Satisfies fun e => ∃ o, ((ev.steps n).eval req e).Yields o := by
  intro subscript hmem
  have h := hliteral subscript hmem
  cases subscript with
  | index e => exact yields_of_literalIndex ev req h n
  | slice e => exact yields_of_literalIndex ev req h n
  | whole => trivial

end

/-- An operation on leaves that succeeds on whole operands commutes with literal subscripts, of
which there are not more than dimensions: the outcome, a value or a failure, is the same whether the
result is subscripted or the operands are. -/
theorem subscripts_commute (ev : Evaluator) (req : Request) (n : Nat) {subscripts : List Subscript}
    (hliteral : ∀ subscript ∈ subscripts, subscript.Satisfies Expr.LiteralIndex) {a : Value}
    (ha : a.Consistent) (hrank : subscripts.length ≤ a.rank) (ctx : Context) (log : Log) :
    (∀ (f : LeafOperation) c, f.apply a = .ok c →
      ((ev.steps n).applySubscripts req subscripts c ctx log).1
        = ((do
            let v ← (ev.steps n).applySubscripts req subscripts a
            EvalM.ofOutcome (f.apply v)) ctx log).1)
      ∧ ∀ (op : Arith) b c, b.Consistent → b.dims = a.dims →
        binary (.arith op .arrays) a b = .ok c →
        ((ev.steps n).applySubscripts req subscripts c ctx log).1
          = ((do
              let v ← (ev.steps n).applySubscripts req subscripts a
              let w ← (ev.steps n).applySubscripts req subscripts b
              EvalM.ofOutcome (binary (.arith op .arrays) v w)) ctx log).1 := by
  have hyields : ∀ subscript ∈ subscripts,
      subscript.Satisfies fun e => ∃ o, ((ev.steps n).eval req e).Yields o :=
    yields_of_literals hliteral
  constructor
  · intro f c hc
    obtain ⟨dims', hmatched⟩ := f.levelwise.applySubscripts hyields hrank
    cases hmatched (fun _ => a) c (fun _ => ⟨ha, rfl⟩) hc with
    | fails hx hy => rw [hy ctx log, (hx ()).bind_error _ ctx log]
    | gives _ hd hx hy =>
      rw [hy ctx log, (hx ()).bind_ok (.ofOutcome _) ctx log]
      exact congrArg _ hd.symm
  · intro op b c hb hdims hc
    obtain ⟨dims', hmatched⟩ := (levelwise_arrays op).applySubscripts hyields hrank
    have halike : Alike a.dims fun i : Bool => if i then b else a := fun i => by
      cases i
      · exact ⟨ha, rfl⟩
      · exact ⟨hb, hdims⟩
    cases hmatched _ c halike hc with
    | @fails f hx hy =>
      have hleft : ((ev.steps n).applySubscripts req subscripts a).Yields (.error f) := hx false
      rw [hy ctx log, hleft.bind_error _ ctx log]
    | @gives w d _ hd hx hy =>
      have hleft : ((ev.steps n).applySubscripts req subscripts a).Yields (.ok (w false)) :=
        hx false
      have hright : ((ev.steps n).applySubscripts req subscripts b).Yields (.ok (w true)) :=
        hx true
      rw [hy ctx log, hleft.bind_ok (hright.bind_ok (.ofOutcome _)) ctx log]
      exact congrArg _ hd.symm

/-- The second column of a negated matrix is `{-2, -4}`, whether it is selected before or after, and
a third column that a sum of matrices lacks is out of bounds in both. -/
theorem subscripts_commute_columns :
    let select := fun (subscripts : List Subscript) (a : Value) =>
      ((Evaluator.alone .standard).steps 2).applySubscripts ⟨.empty, .explicit, .silent⟩ subscripts a
    let second := [Subscript.whole, .index (.integer 2)]
    let third := [Subscript.whole, .slice (.array .integer true [.integer 3])]
    let matrix := fun a b c d : Int =>
      Value.matrix [[.integer a, .integer b], [.integer c, .integer d]] 2
    let log : Log := .start .standard
    ((select second (matrix (-1) (-2) (-3) (-4)) .empty log).1
        = ((do
            let v ← select second (matrix 1 2 3 4)
            EvalM.ofOutcome (LeafOperation.negate.apply v)) .empty log).1
      ∧ (select second (matrix (-1) (-2) (-3) (-4)) .empty log).1
        = .ok (.vector [.integer (-2), .integer (-4)], .empty))
      ∧ (select third (matrix 1 2 3 4) .empty log).1
          = ((do
              let v ← select third (matrix 1 1 1 1)
              let w ← select third (matrix 0 1 2 3)
              EvalM.ofOutcome (binary (.arith .add .arrays) v w)) .empty log).1
        ∧ (select third (matrix 1 2 3 4) .empty log).1 = (Cause.indexOutOfBounds 3 2).fail := by
  intro select second third matrix log
  have hmatrix : ∀ a b c d : Int, (matrix a b c d).Consistent := fun a b c d =>
    consistent_matrix (by simp [dims])
  have hindex : ∀ subscript ∈ second, subscript.Satisfies Expr.LiteralIndex := by
    simp [second, Subscript.Satisfies, Expr.LiteralIndex.integer]
  have hslice : ∀ subscript ∈ third, subscript.Satisfies Expr.LiteralIndex := by
    have hliteral : Expr.LiteralIndex (.array .integer true [.integer 3]) :=
      .array .integer true (by simp [Expr.LiteralIndex.integer])
    simp [third, Subscript.Satisfies, hliteral]
  have hnegate := (subscripts_commute (.alone .standard) ⟨.empty, .explicit, .silent⟩ 2 hindex
    (hmatrix 1 2 3 4) (by decide) .empty log).1 .negate (matrix (-1) (-2) (-3) (-4)) rfl
  have hadd := (subscripts_commute (.alone .standard) ⟨.empty, .explicit, .silent⟩ 2 hslice
    (hmatrix 1 1 1 1) (by decide) .empty log).2 .add (matrix 0 1 2 3) (matrix 1 2 3 4)
    (hmatrix 0 1 2 3) rfl rfl
  exact ⟨⟨hnegate, rfl⟩, hadd, rfl⟩

end ModelicaFold
