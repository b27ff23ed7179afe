import ModelicaFold.Builtin.Arrays
import ModelicaFold.Proofs.Ranges.Progression
import ModelicaFold.Proofs.Shape.Joining

/-!
# Matrix constructors

A matrix constructor joins the elements of each row side by side and the rows one below the other.
It has its own way to see an element as a block with two dimensions, and scalars need no blocks at
all. What it gives is what the functions `cat` and `promote` give, for every mix of scalars, vectors
and matrices and every row, unless an element is a vector without elements: promotion makes it a
matrix with one column and no rows, while its block has one dimension only and is refused.
-/

namespace ModelicaFold

namespace Value

/-! ## Blocks and promotion -/

/-- What may stand in a matrix constructor: a scalar, which is no box, or an array with at most two
dimensions. -/
structure FitsMatrix (v : Value) : Prop where
  consistent : v.Consistent
  rank_le : v.rank ≤ 2
  unboxed_eq : v.unboxed = v

/-- Appending no dimensions changes nothing. -/
theorem appendUnitDims_zero (v : Value) : v.appendUnitDims 0 = v := by
  induction v using arrayInduction with
  | leaf v hleaf => exact appendUnitDims_leaf hleaf 0
  | array elements dims ih =>
    have helements : elements.map (appendUnitDims 0) = elements := by
      rw [List.map_congr_left ih, List.map_id']
    rw [appendUnitDims, appendAllUnitDims_eq_map, helements, List.replicate_zero, List.append_nil]

/-- The block of an element is its promotion to two dimensions, unless it is a vector without
elements. -/
theorem block_eq_appendUnitDims {v : Value} (hv : v.Consistent) (hrank : v.rank ≤ 2)
    (hsome : v.dims ≠ [0]) : v.block = v.appendUnitDims (2 - v.rank) := by
  match hdims : v.dims with
  | [] =>
    rw [block, rank, hdims, appendUnitDims_leaf (hv.isArray_eq_false hdims)]
    rfl
  | [n] =>
    obtain ⟨elements, rfl, hlength, hall⟩ := hv.elements hdims
    have hleaf : ∀ w ∈ elements, w.isArray = false := fun w hw =>
      (hall w hw).1.isArray_eq_false (hall w hw).2
    have hpromoted : elements.map (appendUnitDims 1) = elements.map fun w => arrayOf [w] :=
      List.map_congr_left fun w hw => appendUnitDims_leaf (hleaf w hw) 1
    have hn : elements.length ≠ 0 := fun h => hsome (by rw [dims, ← hlength, h])
    have hsizes : (arrayOf (elements.map fun w => arrayOf [w])).dims = [n, 1] := by
      obtain ⟨w, ws, rfl⟩ := List.exists_cons_of_ne_nil fun h => hn (List.length_eq_zero_iff.mpr h)
      rw [← hlength]
      simp [dims_arrayOf, (hall w List.mem_cons_self).2]
    rw [block, hdims, flatten_array_of_leaves hleaf]
    change _ = appendUnitDims 1 _
    rw [appendUnitDims, appendAllUnitDims_eq_map, hpromoted]
    exact congrArg (Value.array _) hsizes
  | [n, m] =>
    rw [block, rank, hdims]
    exact (appendUnitDims_zero v).symm
  | n :: m :: k :: rest =>
    rw [rank, hdims] at hrank
    simp at hrank

/-- Vectors of one scalar each, one after the other. -/
theorem concat_singletons {values : List Value} (hsome : values ≠ [])
    (h : ∀ v ∈ values, v.Consistent ∧ v.dims = []) :
    concat 1 (values.map fun v => arrayOf [v]) = .ok (arrayOf values) := by
  obtain ⟨first, more, rfl⟩ := List.exists_cons_of_ne_nil hsome
  have hframed : ∀ part ∈ (first :: more).map fun v => arrayOf [v], part.Framed [] [] := by
    intro part hpart
    obtain ⟨v, hv, rfl⟩ := List.mem_map.mp hpart
    exact ⟨1, by simp [dims_arrayOf, (h v hv).2]⟩
  have hjoinable : joinable 1 ((first :: more).map fun v => arrayOf [v]) = .ok (arrayOf [first]) :=
    joinable_of_framed hframed
  have helements :
      ((first :: more).map fun v => arrayOf [v]).flatMap elementList = first :: more := by
    rw [List.flatMap_map]
    exact List.flatMap_singleton' _
  rw [concat, hjoinable, helements]
  rfl

/-- A row of scalars is the concatenation of their promotions. -/
theorem concat_promoted_scalars {values : List Value} (hsome : values ≠ [])
    (h : ∀ v ∈ values, v.Consistent ∧ v.dims = []) :
    concat 2 (values.map (appendUnitDims 2)) = .ok (arrayOf [arrayOf values]) := by
  have hpromoted : ∀ v ∈ values, v.appendUnitDims 2 = arrayOf [arrayOf [v]] := fun v hv =>
    appendUnitDims_leaf ((h v hv).1.isArray_eq_false (h v hv).2) 2
  have hframed : ∀ part ∈ values.map (appendUnitDims 2), part.Consistent ∧ part.Framed [1] [] := by
    intro part hpart
    obtain ⟨v, hv, rfl⟩ := List.mem_map.mp hpart
    obtain ⟨hconsistent, hdims⟩ := (h v hv).1.appendUnitDims 2
    exact ⟨hconsistent, 1, by rw [hdims, (h v hv).2]; rfl⟩
  have hslices :
      (values.map (appendUnitDims 2)).map (slice 0) = values.map fun v => arrayOf [v] := by
    rw [List.map_map]
    exact List.map_congr_left fun v hv => congrArg (slice 0) (hpromoted v hv)
  have hrow :
      ((List.range 1).mapM fun i => concat 1 ((values.map (appendUnitDims 2)).map (slice i)))
        = .ok [arrayOf values] :=
    Outcome.mapM_eq_ok.mpr (.cons (by rw [hslices, concat_singletons hsome h]) .nil)
  have hjoin : concat (([] : List Nat).length + 2) (values.map (appendUnitDims 2)) = _ :=
    concat_cons (by simpa using hsome) hframed
  exact hjoin.trans (congrArg (· >>= _) hrow)

end Value

/-! ## Rows -/

namespace Builtin

open Value

/-- Promotion of an element to two dimensions. -/
theorem promote_two {v : Value} (h : v.FitsMatrix) :
    promote [v, .integer 2] = .ok (v.appendUnitDims (2 - v.rank)) := by
  have hrank := h.rank_le
  have hsize : sizeArg "promote" [v, .integer 2] 1 = .ok 2 := rfl
  have hvalue : arg "promote" [v, .integer 2] 0 = .ok v := congrArg Except.ok h.unboxed_eq
  have htakes : takes "promote" 2 [v, .integer 2] = .ok () := rfl
  rw [promote, htakes, hvalue, hsize, Outcome.ok_bind, Outcome.ok_bind, Outcome.ok_bind,
    if_neg (by omega)]
  rfl

/-- The promoted elements of a row side by side. -/
def joinedRow (values : List Value) : Outcome Value := do
  cat (.integer 2 :: (← values.mapM fun v => promote [v, .integer 2]))

/-- The rows of promoted elements one below the other. -/
def joinedRows (rows : List (List Value)) : Outcome Value := do
  cat (.integer 1 :: (← rows.mapM joinedRow))

/-- The function `cat` concatenates its arguments after the first. -/
theorem cat_eq (k : Nat) (parts : List Value) : cat (.integer k :: parts) = concat k parts := by
  have hk : integerArg "cat" (.integer k :: parts) 0 = .ok k := rfl
  rw [cat, hk, Outcome.ok_bind, if_neg (by omega), Int.toNat_natCast, List.tail_cons]

/-- The values of a row are promoted to matrices and joined side by side. -/
theorem joinedRow_eq {values : List Value} (h : ∀ v ∈ values, v.FitsMatrix) :
    joinedRow values = concat 2 (values.map fun v => v.appendUnitDims (2 - v.rank)) := by
  have hpromoted : values.mapM (fun v => promote [v, .integer 2])
      = .ok (values.map fun v => v.appendUnitDims (2 - v.rank)) := by
    rw [Outcome.mapM_eq_ok, List.forall₂_map_right_iff]
    exact List.forall₂_same.mpr fun v hv => promote_two (h v hv)
  rw [joinedRow, hpromoted]
  exact cat_eq 2 _

/-- The rows are joined one by one, and then one below the other. -/
theorem joinedRows_eq (rows : List (List Value)) :
    joinedRows rows = rows.mapM joinedRow >>= concat 1 := by
  rw [joinedRows]
  exact congrArg (rows.mapM joinedRow >>= ·) (funext fun blocks => cat_eq 1 blocks)

end Builtin

namespace Steps

open Value

section Rows

variable {values : List Value}

/-- A row without vectors that have no elements is joined as its promoted elements are. -/
theorem rowBlock_eq_joinedRow (hsome : values ≠ []) (h : ∀ v ∈ values, v.FitsMatrix)
    (hfull : ∀ v ∈ values, v.dims ≠ [0]) : rowBlock values = Builtin.joinedRow values := by
  rw [Builtin.joinedRow_eq h, rowBlock]
  split
  · next hscalars =>
    have hdims : ∀ v ∈ values, v.dims = [] := fun v hv =>
      dims_of_not_isArray (by simpa using List.all_eq_true.mp hscalars v hv)
    have hpromoted : values.map (fun v => v.appendUnitDims (2 - v.rank))
        = values.map (appendUnitDims 2) :=
      List.map_congr_left fun v hv => by rw [Value.rank, hdims v hv, List.length_nil]
    rw [hpromoted, concat_promoted_scalars hsome fun v hv => ⟨(h v hv).consistent, hdims v hv⟩]
  · have hblocks : values.map block = values.map fun v => v.appendUnitDims (2 - v.rank) :=
      List.map_congr_left fun v hv =>
        block_eq_appendUnitDims (h v hv).consistent (h v hv).rank_le (hfull v hv)
    rw [hblocks]

/-- A row of consistent values gives a block or has values that do not fit. -/
theorem rowBlock_cases (hsome : values ≠ []) (h : ∀ v ∈ values, v.Consistent) :
    (∃ w, rowBlock values = .ok w)
      ∨ ∃ message, rowBlock values = (Cause.invalidShape message).fail := by
  unfold rowBlock
  split
  · exact .inl ⟨_, rfl⟩
  · refine concat_cases (by simpa using hsome) fun part hpart => ?_
    obtain ⟨v, hv, rfl⟩ := List.mem_map.mp hpart
    exact (h v hv).block

/-- The block of a vector without elements has one dimension. -/
theorem dims_block_of_empty {v : Value} (hv : v.Consistent) (hdims : v.dims = [0]) :
    v.block.dims = [0] := by
  have hflatten : v.flatten = [] := by
    rw [← List.length_eq_zero_iff, hv.length_flatten, hdims]
    rfl
  rw [block, hdims, hflatten]
  rfl

/-- A vector without elements has its row refused. -/
theorem rowBlock_refuses_empty {v : Value} (hv : v ∈ values) (hconsistent : v.Consistent)
    (hdims : v.dims = [0]) : ∃ message, rowBlock values = (Cause.invalidShape message).fail := by
  have harray : v.isArray = true := hconsistent.isArray_iff.mpr (by simp [hdims])
  have hsome : ¬ (values.all fun v => !v.isArray) = true := fun hall => by
    simpa [harray] using List.all_eq_true.mp hall v hv
  rw [rowBlock, if_neg hsome]
  refine concat_refuses fun ⟨before, after, hlength, hframed⟩ => ?_
  obtain ⟨n, hn⟩ := hframed v.block (List.mem_map_of_mem hv)
  have hrank := congrArg List.length hn
  rw [dims_block_of_empty hconsistent hdims] at hrank
  simp at hrank
  omega

end Rows

/-! ## Evaluation -/

variable {s : Steps} {req : Request} {rows : List (List Expr)} {valuess : List (List Value)}
  {ctx ctx' : Context} {log log' : Log}

/-- The blocks of the rows, one below the other. -/
def joinRows (valuess : List (List Value)) : Outcome Value := valuess.mapM rowBlock >>= concat 1

/-- Every row that is evaluated has as many values as elements, so none is without values. -/
theorem ne_nil_of_evalAll (hrow : ∀ row ∈ rows, row ≠ [])
    (h : (rows.mapM (s.evalAll req)).Gives ctx log valuess ctx' log') :
    ∀ values ∈ valuess, values ≠ [] := by
  intro values hvalues
  obtain ⟨row, hmem, _, _, _, _, hgives⟩ :=
    exists_mem_of_forall₂ (EvalM.gives_mapM h) values hvalues
  have hlength := (EvalM.gives_mapM hgives).length_eq
  intro hnil
  rw [hnil, List.length_nil, List.length_eq_zero_iff] at hlength
  exact hrow row hmem hlength

/-- Rows one of which has a vector without elements are refused. -/
theorem joinRows_refuses_empty (hsome : ∀ values ∈ valuess, values ≠ [])
    (h : ∀ values ∈ valuess, ∀ v ∈ values, v.Consistent) {values : List Value}
    (hvalues : values ∈ valuess) {v : Value} (hv : v ∈ values) (hdims : v.dims = [0]) :
    ∃ message, joinRows valuess = (Cause.invalidShape message).fail := by
  obtain ⟨message, hrefused⟩ := rowBlock_refuses_empty hv (h values hvalues v hv) hdims
  cases hblocks : valuess.mapM rowBlock with
  | ok blocks =>
    obtain ⟨block, -, hblock⟩ :=
      exists_mem_of_forall₂ (Outcome.mapM_eq_ok.mp hblocks).flip values hvalues
    cases hblock.symm.trans hrefused
  | error failure =>
    -- the row that fails first need not be the one with the vector, but all rows fail like this
    obtain ⟨first, hfirst, hfailure⟩ := Outcome.mem_of_mapM_eq_error hblocks
    rcases rowBlock_cases (hsome first hfirst) (h first hfirst) with ⟨w, hw⟩ | ⟨message, hmessage⟩
    · cases hw.symm.trans hfailure
    · cases hfailure.symm.trans hmessage
      exact ⟨message, by rw [joinRows, hblocks]; rfl⟩

/-- As many blocks as rows. -/
theorem isEmpty_blocks (hrows : rows ≠ [])
    (h : (rows.mapM (s.evalAll req)).Gives ctx log valuess ctx' log') {blocks : List Value}
    (hblocks : valuess.mapM rowBlock = .ok blocks) : ¬ blocks.isEmpty = true := by
  have hlength : blocks.length = rows.length :=
    (Outcome.length_of_mapM_eq_ok hblocks).trans (EvalM.gives_mapM h).length_eq.symm
  rw [List.isEmpty_iff, ← List.length_eq_zero_iff, hlength, List.length_eq_zero_iff]
  exact hrows

/-- A matrix constructor with rows gives what its rows are joined to, once they are evaluated. -/
theorem matrix_of_ok (hrows : rows ≠ [])
    (h : (rows.mapM (s.evalAll req)).Gives ctx log valuess ctx' log') {v : Value}
    (hv : joinRows valuess = .ok v) : (s.matrix req rows).Gives ctx log v ctx' log' := by
  obtain ⟨blocks, hblocks, hv⟩ := Outcome.bind_eq_ok.mp hv
  refine EvalM.gives_bind.mpr ⟨blocks, ctx', log', EvalM.mapM_ofOutcome_of_ok h hblocks, ?_⟩
  rw [if_neg (isEmpty_blocks hrows h hblocks)]
  exact EvalM.gives_ofOutcome.mpr ⟨hv, rfl, rfl⟩

/-- It fails as the rows fail to be joined. -/
theorem matrix_of_error (hrows : rows ≠ [])
    (h : (rows.mapM (s.evalAll req)).Gives ctx log valuess ctx' log') {failure : Failure}
    (hfailure : joinRows valuess = .error failure) :
    (s.matrix req rows ctx log).1 = .error failure := by
  rw [joinRows] at hfailure
  cases hblocks : valuess.mapM rowBlock with
  | error failure' =>
    rw [hblocks] at hfailure
    cases hfailure
    obtain ⟨log'', hrun⟩ := EvalM.mapM_ofOutcome_of_error h hblocks
    rw [matrix, EvalM.bind_apply, hrun]
  | ok blocks =>
    rw [hblocks, Outcome.ok_bind] at hfailure
    rw [matrix, EvalM.bind_apply, EvalM.mapM_ofOutcome_of_ok h hblocks]
    simp only [if_neg (isEmpty_blocks hrows h hblocks), hfailure]
    rfl

end Steps

/-- A matrix constructor with rows that have elements, at any depth of an evaluation, if the
elements give scalars and arrays with at most two dimensions. Without vectors that have no elements
it gives a value if and only if the functions `cat` and `promote` give it; a vector without elements
has it refused. -/
theorem matrix_joins (ev : Evaluator) {n : Nat} {req : Request} {ty : Ty} {rows : List (List Expr)}
    {valuess : List (List Value)} {ctx ctx' : Context} {log log' : Log} (hrows : rows ≠ [])
    (hrow : ∀ row ∈ rows, row ≠ [])
    (h : (rows.mapM ((ev.steps n).evalAll req)).Gives ctx log.visiting valuess ctx' log')
    (hfits : ∀ values ∈ valuess, ∀ v ∈ values, v.FitsMatrix) :
    ((∀ values ∈ valuess, ∀ v ∈ values, v.dims ≠ [0]) → ∀ v ctx'' log'',
        ((ev.steps (n + 1)).eval req (.matrix ty rows)).Gives ctx log v ctx'' log''
          ↔ Builtin.joinedRows valuess = .ok v ∧ ctx'' = ctx' ∧ log'' = log')
      ∧ ((∃ values ∈ valuess, ∃ v ∈ values, v.dims = [0]) → ∃ message,
        ((ev.steps (n + 1)).eval req (.matrix ty rows) ctx log).1
          = .error (Failure.of (.invalidShape message))) := by
  have hsome : ∀ values ∈ valuess, values ≠ [] := Steps.ne_nil_of_evalAll hrow h
  have hrun : (ev.steps (n + 1)).eval req (.matrix ty rows) ctx log
      = (ev.steps n).matrix req rows ctx log.visiting := rfl
  constructor
  · intro hfull v ctx'' log''
    have hjoin : Builtin.joinedRows valuess = Steps.joinRows valuess := by
      rw [Builtin.joinedRows_eq, Steps.joinRows, Outcome.mapM_congr fun values hvalues =>
        Steps.rowBlock_eq_joinedRow (hsome values hvalues) (hfits values hvalues)
          (hfull values hvalues)]
    rw [hjoin, EvalM.Gives, hrun]
    cases hw : Steps.joinRows valuess with
    | error failure =>
      have hfails := Steps.matrix_of_error hrows h hw
      constructor
      · intro hv
        rw [hv] at hfails
        cases hfails
      · rintro ⟨hv, -, -⟩
        cases hv
    | ok w =>
      have hgives : (ev.steps n).matrix req rows ctx log.visiting = (.ok (w, ctx'), log') :=
        Steps.matrix_of_ok hrows h hw
      rw [hgives]
      constructor
      · rintro ⟨⟩
        exact ⟨rfl, rfl, rfl⟩
      · rintro ⟨hv, rfl, rfl⟩
        cases hv
        rfl
  · rintro ⟨values, hvalues, v, hv, hdims⟩
    obtain ⟨message, hmessage⟩ := Steps.joinRows_refuses_empty hsome
      (fun values hvalues v hv => (hfits values hvalues v hv).consistent) hvalues hv hdims
    exact ⟨message, Steps.matrix_of_error hrows h hmessage⟩

/-- The constructor `[{1, 2}, {3, 4}; 5, 6]`. -/
def Expr.columnsOverScalars : List (List Expr) :=
  [[.arrayOf [.integer 1, .integer 2], .arrayOf [.integer 3, .integer 4]], [.integer 5, .integer 6]]

/-- Two vectors are columns, with two scalars below. -/
theorem matrix_joins_columns :
    let valuess := [[Value.vector [.integer 1, .integer 2], .vector [.integer 3, .integer 4]],
      [.integer 5, .integer 6]]
    (∀ values ∈ valuess, ∀ v ∈ values, v.FitsMatrix)
      ∧ ∃ log', (((Evaluator.alone ⟨9, .none⟩).steps 6).eval ⟨.empty, .explicit, .silent⟩
          (.matrix .unknown Expr.columnsOverScalars)).Gives .empty (.start .unlimited)
          (.matrix [[.integer 1, .integer 3], [.integer 2, .integer 4], [.integer 5, .integer 6]] 2)
          .empty log' := by
  intro valuess
  have hvector : ∀ a b, (Value.vector [.integer a, .integer b]).FitsMatrix := fun a b =>
    ⟨Value.consistent_vector (by simp [Value.dims]), Nat.le_succ 1, rfl⟩
  have hscalar : ∀ a, (Value.integer a).FitsMatrix := fun a =>
    ⟨Value.consistent_integer a, Nat.zero_le 2, rfl⟩
  have hfits : ∀ values ∈ valuess, ∀ v ∈ values, v.FitsMatrix := by
    simp [valuess, hvector, hscalar]
  refine ⟨hfits, ?_⟩
  have hrun : ∃ log', (Expr.columnsOverScalars.mapM (((Evaluator.alone ⟨9, .none⟩).steps 5).evalAll
      ⟨.empty, .explicit, .silent⟩)).Gives .empty (Log.start .unlimited).visiting valuess .empty
      log' := ⟨_, rfl⟩
  obtain ⟨log', hrun⟩ := hrun
  refine ⟨log', ((matrix_joins _ (by decide) (by decide) hrun hfits).1 (by decide) _ _ _).mpr
    ⟨?_, rfl, rfl⟩⟩
  rfl

/-- The constructor `[zeros(0)]` is refused; `cat` and `promote` give a matrix without rows. -/
theorem matrix_refuses_column :
    let rows := [[Expr.builtinCall "zeros" [.integer 0]]]
    (∃ log', (rows.mapM (((Evaluator.alone ⟨9, .none⟩).steps 5).evalAll
        ⟨.empty, .explicit, .silent⟩)).Gives .empty (Log.start .unlimited).visiting
        [[.array #[] [0]]] .empty log')
      ∧ (Value.array #[] [0]).FitsMatrix
      ∧ Builtin.joinedRows [[.array #[] [0]]] = .ok (.array #[] [0, 1])
      ∧ (((Evaluator.alone ⟨9, .none⟩).steps 6).eval ⟨.empty, .explicit, .silent⟩
          (.matrix .unknown rows) .empty (.start .unlimited)).1
        = .error (Failure.of
          (.invalidShape "cannot concatenate along dimension 2 of a rank 1 array")) :=
  ⟨⟨_, rfl⟩, ⟨Value.consistent_empty [], by decide, rfl⟩, rfl, rfl⟩

end ModelicaFold
