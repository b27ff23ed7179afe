import Mathlib.Data.List.SplitLengths
import ModelicaFold.Proofs.Folding.Settle
import ModelicaFold.Proofs.Parts

/-!
# Markers in quoted code

A marker is a call `Eval(e)`. `Code.markers` lists the outermost markers of a piece of code from left
to right, and `Code.fill` replaces them by other code; both go through the direct parts of a node
(`Code.subcodes`), and a node keeps all but these (`Code.withSubcodes`).
-/

namespace ModelicaFold.Code

/-! ## Nodes and their direct parts -/

/-- The direct parts of a piece of code, from left to right. -/
def subcodes : Code → List Code
  | .reference _ subscripts => subscripts
  | .binary lhs _ rhs => [lhs, rhs]
  | .unary _ operand => [operand]
  | .logical lhs _ rhs => [lhs, rhs]
  | .logicalUnary _ operand => [operand]
  | .relation lhs _ rhs => [lhs, rhs]
  | .conditional condition yes elseIfs no =>
    condition :: yes :: ((elseIfs.flatMap fun (c, y) => [c, y]) ++ [no])
  | .call _ args named => args ++ named.map (·.2)
  | .array elements => elements
  | .matrix rows => rows.flatten
  | .range start none stop => [start, stop]
  | .range start (some step) stop => [start, step, stop]
  | .tuple elements => elements
  | .list elements => elements
  | _ => []

/-- Conditions and values in turn, as branches. -/
def branches : List Code → List (Code × Code)
  | condition :: yes :: more => (condition, yes) :: branches more
  | _ => []

/-- A node with other direct parts; its form, its operator, its path and its names stay. -/
def withSubcodes : Code → List Code → Code
  | .reference path _, parts => .reference path parts
  | .binary _ op _, [lhs, rhs] => .binary lhs op rhs
  | .unary op _, [operand] => .unary op operand
  | .logical _ op _, [lhs, rhs] => .logical lhs op rhs
  | .logicalUnary op _, [operand] => .logicalUnary op operand
  | .relation _ op _, [lhs, rhs] => .relation lhs op rhs
  | .conditional _ _ _ no, condition :: yes :: more =>
    .conditional condition yes (branches more) (more.getLastD no)
  | .call function args named, parts =>
    .call function (parts.take args.length)
      ((named.map (·.1)).zip (parts.drop args.length))
  | .array _, parts => .array parts
  | .matrix rows, parts => .matrix ((rows.map List.length).splitLengths parts)
  | .range _ none _, [start, stop] => .range start none stop
  | .range _ (some _) _, [start, step, stop] => .range start (some step) stop
  | .tuple _, parts => .tuple parts
  | .list _, parts => .list parts
  | c, _ => c

/-- The direct parts in order are the direct parts of a node. -/
theorem mem_subcodes {c part : Code} : part ∈ c.subcodes ↔ part ∈ c.parts := by
  cases c with
  | conditional condition yes elseIfs no =>
    simp only [subcodes, parts, List.mem_cons, List.mem_append, List.not_mem_nil, or_false]
    tauto
  | range start step stop =>
    cases step with
    | none => rfl
    | some step =>
      simp only [subcodes, parts, List.mem_cons, Option.toList_some, List.not_mem_nil, or_false]
      tauto
  | _ => rfl

/-- A direct part is smaller than its node. -/
theorem sizeOf_lt_of_mem_subcodes {c part : Code} (h : part ∈ c.subcodes) :
    sizeOf part < sizeOf c := by
  cases c with
  | matrix rows =>
    obtain ⟨row, hrow, hpart⟩ := List.mem_flatten.mp h
    have := List.sizeOf_lt_of_mem hrow
    have := List.sizeOf_lt_of_mem hpart
    simp only [matrix.sizeOf_spec]
    omega
  | call function args named =>
    rcases List.mem_append.mp h with harg | hnamed
    · have := List.sizeOf_lt_of_mem harg
      simp only [call.sizeOf_spec]
      omega
    · obtain ⟨⟨name, arg⟩, hmem, rfl⟩ := List.mem_map.mp hnamed
      have := List.sizeOf_lt_of_mem hmem
      simp only [call.sizeOf_spec, Prod.mk.sizeOf_spec] at this ⊢
      omega
  | conditional condition yes elseIfs no =>
    simp only [subcodes, List.mem_cons, List.mem_append, List.mem_flatMap, List.not_mem_nil,
      or_false] at h
    rcases h with rfl | rfl | ⟨⟨c, y⟩, hmem, hpart⟩ | rfl
    · simp +arith
    · simp +arith
    · have := List.sizeOf_lt_of_mem hmem
      simp only [conditional.sizeOf_spec, Prod.mk.sizeOf_spec] at this ⊢
      rcases hpart with rfl | rfl <;> omega
    · simp +arith
  | range start step stop =>
    cases step with
    | none =>
      simp only [subcodes, List.mem_cons, List.not_mem_nil, or_false] at h
      rcases h with rfl | rfl <;> simp +arith
    | some step =>
      simp only [subcodes, List.mem_cons, List.not_mem_nil, or_false] at h
      rcases h with rfl | rfl | rfl <;> simp +arith
  | reference _ items | array items | tuple items | list items =>
    have hlt : sizeOf part < sizeOf items := List.sizeOf_lt_of_mem h
    simp +arith only [reference.sizeOf_spec, array.sizeOf_spec, tuple.sizeOf_spec,
      list.sizeOf_spec]
    omega
  | unary _ operand | logicalUnary _ operand =>
    obtain rfl := List.mem_singleton.mp h
    simp +arith
  | binary lhs _ rhs | logical lhs _ rhs | relation lhs _ rhs =>
    simp only [subcodes, List.mem_cons, List.not_mem_nil, or_false] at h
    rcases h with rfl | rfl <;> simp +arith
  | _ => cases h

/-- A property of all code, by induction on the direct parts. -/
theorem subcodeInduction {P : Code → Prop} (step : ∀ c, (∀ part ∈ c.subcodes, P part) → P c)
    (c : Code) : P c :=
  step c fun part h =>
    have := sizeOf_lt_of_mem_subcodes h
    subcodeInduction step part
termination_by sizeOf c

/-! ## A node with as many parts as before -/

/-- The branches of a conditional are read back from its direct parts. -/
theorem branches_append {elseIfs : List (Code × Code)} {no : Code} :
    branches ((elseIfs.flatMap fun (c, y) => [c, y]) ++ [no]) = elseIfs := by
  induction elseIfs with
  | nil => rfl
  | cons branch elseIfs ih => simp [branches, ih]

/-- A list of odd length is put together again from the branches that it is taken for. -/
theorem branches_flatMap (no : Code) {more : List Code} {n : Nat} (h : more.length = 2 * n + 1) :
    ((branches more).flatMap fun (c, y) => [c, y]) ++ [more.getLastD no] = more := by
  induction n generalizing more with
  | zero =>
    obtain ⟨only, rfl⟩ := List.length_eq_one_iff.mp h
    rfl
  | succ n ih =>
    match more, h with
    | condition :: yes :: more, h =>
      have hmore : more.length = 2 * n + 1 := by
        simp only [List.length_cons] at h
        omega
      have hlast : (condition :: yes :: more).getLastD no = more.getLastD no := by
        cases more with
        | nil => cases hmore
        | cons _ _ => rfl
      rw [hlast]
      simp only [branches, List.flatMap_cons, List.cons_append, List.nil_append, ih hmore]

/-- The parts of a node with other parts are these parts. -/
theorem subcodes_withSubcodes {c : Code} {parts : List Code}
    (h : parts.length = c.subcodes.length) : (c.withSubcodes parts).subcodes = parts := by
  cases c with
  | matrix rows =>
    refine List.flatten_splitLengths _ _ ?_
    rw [h, subcodes, List.length_flatten]
  | call function args named =>
    simp only [subcodes, List.length_append, List.length_map] at h
    simp only [withSubcodes, subcodes]
    rw [List.map_snd_zip (by simp; omega), List.take_append_drop]
  | conditional condition yes elseIfs no =>
    match parts, h with
    | condition' :: yes' :: more, h =>
      simp only [withSubcodes, subcodes]
      rw [branches_flatMap no (n := elseIfs.length)]
      simpa [subcodes, List.length_flatMap, Nat.mul_comm] using h
  | range start step stop =>
    cases step with
    | none => match parts, h with | [_, _], _ => rfl
    | some step => match parts, h with | [_, _, _], _ => rfl
  | unary _ _ | logicalUnary _ _ => match parts, h with | [_], _ => rfl
  | binary _ _ _ | logical _ _ _ | relation _ _ _ => match parts, h with | [_, _], _ => rfl
  | reference _ _ | array _ | tuple _ | list _ => rfl
  | _ => exact (List.eq_nil_of_length_eq_zero h).symm

/-- Whether a call is a marker depends on its function and on how many arguments there are. -/
theorem marked?_call_eq_none {function : Path} {args : List Code} {named : List (String × Code)} :
    (call function args named).marked? = none
      ↔ (function = .ident "Eval" → args.length = 1 → named.length ≠ 0) := by
  match args, named with
  | [_], [] => simp [marked?]
  | [], named => simp [marked?]
  | _ :: _ :: _, named => simp [marked?]
  | [_], _ :: _ => simp [marked?]

/-- A node that is no marker does not become one. -/
theorem marked?_withSubcodes {c : Code} {parts : List Code}
    (h : parts.length = c.subcodes.length) (hmarked : c.marked? = none) :
    (c.withSubcodes parts).marked? = none := by
  cases c with
  | call function args named =>
    simp only [subcodes, List.length_append, List.length_map] at h
    rw [withSubcodes, marked?_call_eq_none]
    rw [marked?_call_eq_none] at hmarked
    have hargs : (parts.take args.length).length = args.length := by
      rw [List.length_take]
      omega
    have hnamed : ((named.map (·.1)).zip (parts.drop args.length)).length = named.length := by
      rw [List.length_zip, List.length_map, List.length_drop]
      omega
    rwa [hargs, hnamed]
  | conditional condition yes elseIfs no =>
    match parts, h with
    | _ :: _ :: _, _ => rfl
  | range start step stop =>
    cases step with
    | none => match parts, h with | [_, _], _ => rfl
    | some step => match parts, h with | [_, _, _], _ => rfl
  | unary _ _ | logicalUnary _ _ => match parts, h with | [_], _ => rfl
  | binary _ _ _ | logical _ _ _ | relation _ _ _ => match parts, h with | [_, _], _ => rfl
  | _ => rfl

/-! ## Markers and what they are replaced by -/

/-- The outermost markers of a piece of code from left to right, each with its depth and the
expression that it marks. -/
def markers (depth : Nat) (c : Code) : List (Nat × Code) :=
  match c.marked? with
  | some marked => [(depth, marked)]
  | none => c.subcodes.attach.flatMap fun ⟨part, _⟩ => part.markers (depth + 1)
termination_by sizeOf c
decreasing_by exact sizeOf_lt_of_mem_subcodes ‹_›

/-- Takes a piece of code for every outermost marker, from left to right, and puts it in the place of
the marker; without enough code for all of them there is no result. -/
def fill (c : Code) : StateT (List Code) Option Code :=
  match c.marked? with
  | some _ => fun
    | [] => none
    | code :: more => some (code, more)
  | none => do
    return c.withSubcodes (← c.subcodes.attach.mapM fun ⟨part, _⟩ => part.fill)
termination_by sizeOf c
decreasing_by exact sizeOf_lt_of_mem_subcodes ‹_›

section

variable {c : Code}

/-- A marker is the only outermost marker of itself. -/
theorem markers_of_marked {marked : Code} (h : c.marked? = some marked) (depth : Nat) :
    c.markers depth = [(depth, marked)] := by
  rw [markers, h]

/-- The markers of a node that is none are those of its direct parts, one deeper. -/
theorem markers_of_unmarked (h : c.marked? = none) (depth : Nat) :
    c.markers depth = c.subcodes.flatMap (·.markers (depth + 1)) := by
  rw [markers, h]
  simp

/-- A marker is replaced by the next piece of code. -/
theorem fill_of_marked {marked : Code} (h : c.marked? = some marked) (code : Code)
    (more : List Code) : c.fill (code :: more) = some (code, more) := by
  rw [fill, h]

/-- A node that is no marker is filled by filling its direct parts one after the other. -/
theorem fill_of_unmarked (h : c.marked? = none) {codes rest : List Code} {c' : Code} :
    c.fill codes = some (c', rest) ↔
      ∃ parts, c.subcodes.mapM fill codes = some (parts, rest) ∧ c' = c.withSubcodes parts := by
  have hfill : c.fill = c.subcodes.mapM fill >>= fun parts => pure (c.withSubcodes parts) := by
    rw [fill, h]
    simp
  rw [hfill]
  constructor
  · intro hc
    obtain ⟨⟨parts, rest'⟩, hparts, hc⟩ := Option.bind_eq_some_iff.mp hc
    cases hc
    exact ⟨parts, hparts, rfl⟩
  · rintro ⟨parts, hparts, rfl⟩
    exact Option.bind_eq_some_iff.mpr ⟨(parts, rest), hparts, rfl⟩

/-- Parts take their code one after the other. -/
theorem mapM_fill_cons {cs filled codes rest : List Code} :
    (c :: cs).mapM fill codes = some (filled, rest) ↔
      ∃ part more parts, c.fill codes = some (part, more)
        ∧ cs.mapM fill more = some (parts, rest) ∧ filled = part :: parts := by
  rw [List.mapM_cons]
  constructor
  · intro h
    obtain ⟨⟨part, more⟩, hc, h⟩ := Option.bind_eq_some_iff.mp h
    obtain ⟨⟨parts, rest'⟩, hcs, h⟩ := Option.bind_eq_some_iff.mp h
    cases h
    exact ⟨part, more, parts, hc, hcs, rfl⟩
  · rintro ⟨part, more, parts, hc, hcs, rfl⟩
    refine Option.bind_eq_some_iff.mpr ⟨(part, more), hc, ?_⟩
    exact Option.bind_eq_some_iff.mpr ⟨(parts, rest), hcs, rfl⟩

/-! ## Filling in code without markers -/

/-- Filling in code without markers leaves none in a list of parts, and uses up what it is given. -/
theorem unmarked_mapM_fill {cs : List Code}
    (hcs : ∀ c ∈ cs, ∀ {c' : Code} {codes rest : List Code}, c.fill codes = some (c', rest) →
      (∀ code ∈ codes, code.Unmarked) → c'.Unmarked ∧ rest ⊆ codes)
    {parts codes rest : List Code} (h : cs.mapM fill codes = some (parts, rest))
    (hcodes : ∀ code ∈ codes, code.Unmarked) :
    (∀ part ∈ parts, part.Unmarked) ∧ rest ⊆ codes ∧ parts.length = cs.length := by
  induction cs generalizing parts codes with
  | nil =>
    cases h
    exact ⟨nofun, List.Subset.refl _, rfl⟩
  | cons c cs ih =>
    obtain ⟨part, more, parts, hc, hmore, rfl⟩ := mapM_fill_cons.mp h
    obtain ⟨hpart, hsubset⟩ := hcs c List.mem_cons_self hc hcodes
    obtain ⟨hparts, hrest, hlength⟩ := ih (fun c' hc' => hcs c' (List.mem_cons_of_mem c hc'))
      hmore fun code hcode => hcodes code (hsubset hcode)
    refine ⟨List.forall_mem_cons.mpr ⟨hpart, hparts⟩, List.Subset.trans hrest hsubset, ?_⟩
    rw [List.length_cons, List.length_cons, hlength]

/-- If the code that is put in has no markers, then none are left. -/
theorem unmarked_fill {c' : Code} {codes rest : List Code} (h : c.fill codes = some (c', rest))
    (hcodes : ∀ code ∈ codes, code.Unmarked) : c'.Unmarked ∧ rest ⊆ codes := by
  induction c using subcodeInduction generalizing c' codes rest with
  | step c ih =>
    cases hmarked : c.marked? with
    | some marked =>
      cases codes with
      | nil => simp [fill, hmarked] at h
      | cons code more =>
        rw [fill_of_marked hmarked] at h
        cases h
        exact ⟨hcodes c' List.mem_cons_self, List.subset_cons_self c' rest⟩
    | none =>
      obtain ⟨parts, hparts, rfl⟩ := (fill_of_unmarked hmarked).mp h
      obtain ⟨hunmarked, hsubset, hlength⟩ := unmarked_mapM_fill ih hparts hcodes
      refine ⟨.intro (marked?_withSubcodes hlength hmarked) fun part hpart => ?_, hsubset⟩
      rw [← mem_subcodes, subcodes_withSubcodes hlength] at hpart
      exact hunmarked part hpart

end

end ModelicaFold.Code

namespace ModelicaFold.Value

/-- A value whose code is no marker: neither quoted code nor a record named `Eval`. -/
def MarksNothing : Value → Prop
  | .code _ => False
  | .record path _ _ _ => path ≠ .ident "Eval"
  | _ => True

/-- A list of values is written as code value by value. -/
theorem mapM_toCode?_eq (vs : List Value) : vs.mapM toCode? = allToCode? vs := by
  induction vs with
  | nil => rfl
  | cons v vs ih =>
    rw [List.mapM_cons, ih, allToCode?]
    cases v.toCode? <;> cases allToCode? vs <;> rfl

/-- Values whose code has no markers have code without markers in a list. -/
theorem unmarked_of_mapM_toCode? {vs : List Value}
    (hvs : ∀ v ∈ vs, ∀ {code : Code}, v.toCode? = some code → code.Unmarked) {codes : List Code}
    (h : vs.mapM toCode? = some codes) : ∀ code ∈ codes, code.Unmarked := by
  induction vs generalizing codes with
  | nil =>
    cases h
    nofun
  | cons v vs ih =>
    rw [List.mapM_cons] at h
    obtain ⟨code, hcode, h⟩ := Option.bind_eq_some_iff.mp h
    obtain ⟨more, hmore, h⟩ := Option.bind_eq_some_iff.mp h
    cases h
    obtain ⟨hv, hvs⟩ := List.forall_mem_cons.mp hvs
    exact List.forall_mem_cons.mpr ⟨hv hcode, ih hvs hmore⟩

/-- The code of a value has no markers if nothing in the value is quoted code or a record named
`Eval`. -/
theorem unmarked_toCode? {v : Value} (h : v.Everywhere MarksNothing) {code : Code}
    (hcode : v.toCode? = some code) : code.Unmarked := by
  induction h generalizing code with
  | @intro v hv _ ih =>
    have hall : ∀ {vs : List Value} {codes : List Code}, (∀ w ∈ vs, w ∈ v.parts) →
        allToCode? vs = some codes → ∀ c ∈ codes, c.Unmarked := fun {vs codes} hmem hvs =>
      unmarked_of_mapM_toCode? (fun w hw => ih w (hmem w hw)) (mapM_toCode?_eq vs ▸ hvs)
    have hleaf : ∀ {c : Code}, c.marked? = none → c.parts = [] → c.Unmarked := fun hmarked hnil =>
      .intro hmarked fun part hpart => absurd (hnil ▸ hpart) List.not_mem_nil
    cases v with
    | array elements dims =>
      obtain ⟨codes, hcodes, rfl⟩ := Option.map_eq_some_iff.mp hcode
      exact .intro rfl (hall (fun w hw => hw) hcodes)
    | list elements =>
      obtain ⟨codes, hcodes, rfl⟩ := Option.map_eq_some_iff.mp hcode
      exact .intro rfl (hall (fun w hw => hw) hcodes)
    | tuple elements =>
      obtain ⟨codes, hcodes, rfl⟩ := Option.map_eq_some_iff.mp hcode
      exact .intro rfl (hall (fun w hw => hw) hcodes)
    | record path fields names index =>
      obtain ⟨codes, hcodes, rfl⟩ := Option.map_eq_some_iff.mp hcode
      refine .intro (Code.marked?_call_eq_none.mpr fun heq => absurd heq hv) ?_
      simpa [Code.parts] using hall (fun w hw => hw) hcodes
    | present content =>
      obtain ⟨c, hc, rfl⟩ := Option.map_eq_some_iff.mp hcode
      refine .intro rfl (List.forall_mem_singleton.mpr ?_)
      exact ih content List.mem_cons_self hc
    | boxed content => exact ih content List.mem_cons_self hcode
    | code fragment => exact hv.elim
    | fail | noReturn | empty => cases hcode
    | _ =>
      cases hcode
      exact hleaf rfl rfl

end ModelicaFold.Value
