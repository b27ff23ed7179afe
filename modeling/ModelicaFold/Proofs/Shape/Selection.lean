import ModelicaFold.Proofs.Folding.Settle
import ModelicaFold.Proofs.Shape.Entries
import ModelicaFold.Proofs.Shape.Subscripts

/-!
# What subscripts select

Literal subscripts select from each dimension all indices, one, or several (`Selection`). The sizes
and the entries that a selection should have are read off the operand: one index deletes a dimension,
several indices replace its size by their number, and the entry at a position is the entry of the
operand at the selected indices (`Selection.origin`).

The entries are right whatever is selected (`subscripts_select`). The sizes are read off the first
element of what has been selected, so those that follow a dimension from which nothing is selected
are lost (`Selection.SizesShown`, `subscripts_lose_sizes`).
-/

namespace ModelicaFold

/-! ## Selections -/

/-- The indices selected from a dimension, counted from zero. -/
inductive Selection where
  | all
  | one (k : Nat)
  | several (ks : List Nat)

namespace Selection

/-- The selected indices are below a size. -/
def InRange (size : Nat) : Selection → Prop
  | .all => True
  | .one k => k < size
  | .several ks => ∀ k ∈ ks, k < size

/-- There is a dimension for every selection, and what is selected is in range. -/
inductive Fits : List Selection → List Nat → Prop where
  | nil (dims : List Nat) : Fits [] dims
  | cons {s : Selection} {rest : List Selection} {n : Nat} {dims : List Nat} :
      s.InRange n → Fits rest dims → Fits (s :: rest) (n :: dims)

/-- The sizes of a selection: one index deletes a dimension, several replace its size by their
number, and all other dimensions are kept. -/
def sizes : List Selection → List Nat → List Nat
  | [], dims => dims
  | .all :: rest, n :: dims => n :: sizes rest dims
  | .one _ :: rest, _ :: dims => sizes rest dims
  | .several ks :: rest, _ :: dims => ks.length :: sizes rest dims
  | _ :: _, [] => []

/-- The position of the operand that a position of the selection comes from. -/
def origin : List Selection → List Nat → List Nat
  | [], position => position
  | .one k :: rest, position => k :: origin rest position
  | .all :: rest, i :: position => i :: origin rest position
  | .several ks :: rest, i :: position => ks.getD i 0 :: origin rest position
  | _ :: _, [] => []

/-- The sizes that the elements of a selection show. -/
def shownSizes : List Selection → List Nat → List Nat
  | [], dims => dims
  | .all :: rest, n :: dims =>
    if rest.isEmpty then n :: dims else if n = 0 then [0] else n :: shownSizes rest dims
  | .one _ :: rest, _ :: dims => shownSizes rest dims
  | .several ks :: rest, _ :: dims =>
    if ks.length = 0 then [0] else ks.length :: shownSizes rest dims
  | _ :: _, [] => []

/-- No size is lost: where nothing is selected, by no index or by all indices of a dimension of size
zero, no other sizes follow. All indices that are selected last are the array itself. -/
def SizesShown : List Selection → List Nat → Prop
  | .all :: rest, n :: dims =>
    rest = [] ∨ if n = 0 then sizes rest dims = [] else SizesShown rest dims
  | .one _ :: rest, _ :: dims => SizesShown rest dims
  | .several ks :: rest, _ :: dims => if ks = [] then sizes rest dims = [] else SizesShown rest dims
  | _, _ => True

/-- The sizes shown are those of the selection if and only if none is lost. -/
theorem shownSizes_eq_iff {selections : List Selection} {dims : List Nat}
    (h : Fits selections dims) :
    shownSizes selections dims = sizes selections dims ↔ SizesShown selections dims := by
  induction h with
  | nil dims => simp [shownSizes, sizes, SizesShown]
  | @cons s rest n dims _ _ ih =>
    cases s with
    | one k => exact ih
    | several ks =>
      by_cases hks : ks = []
      · simp [shownSizes, sizes, SizesShown, hks]
      · simp [shownSizes, sizes, SizesShown, hks, ih]
    | all =>
      by_cases hrest : rest = []
      · simp [shownSizes, sizes, SizesShown, hrest]
      · by_cases hn : n = 0
        · simp [shownSizes, sizes, SizesShown, hrest, hn]
        · simp [shownSizes, sizes, SizesShown, hrest, hn, ih]

/-- Every position of a selection comes from a position of the operand. -/
theorem origin_mem_positions {selections : List Selection} {dims : List Nat}
    (h : Fits selections dims) {p : List Nat} (hp : p ∈ positions (sizes selections dims)) :
    origin selections p ∈ positions dims := by
  induction h generalizing p with
  | nil dims => exact hp
  | @cons s rest n dims hrange _ ih =>
    cases s with
    | one k => exact Value.mem_positions_cons.mpr ⟨k, _, hrange, ih hp, rfl⟩
    | all =>
      obtain ⟨i, rest', hi, hrest, rfl⟩ := Value.mem_positions_cons.mp hp
      exact Value.mem_positions_cons.mpr ⟨i, _, hi, ih hrest, rfl⟩
    | several ks =>
      obtain ⟨i, rest', hi, hrest, rfl⟩ := Value.mem_positions_cons.mp hp
      refine Value.mem_positions_cons.mpr ⟨ks.getD i 0, _, ?_, ih hrest, rfl⟩
      rw [List.getD_eq_getElem _ _ hi]
      exact hrange _ (List.getElem_mem hi)

end Selection

/-! ## Literal subscripts -/

/-- The position that a literal denotes as a subscript, counted from one. -/
def Expr.literalPosition? : Expr → Option Int
  | .integer n => some n
  | .bool b => some (if b then 2 else 1)
  | .enumeration _ index => some index
  | _ => none

/-- What a subscript selects that is `:`, a literal, or a vector of literals. -/
inductive Subscript.Denotes : Subscript → Selection → Prop where
  | whole : Denotes .whole .all
  | index {e : Expr} {k : Nat} :
      e.literalPosition? = some ((k : Int) + 1) → Denotes (.index e) (.one k)
  | slice (ty : Ty) (scalar : Bool) {es : List Expr} {ks : List Nat} :
      List.Forall₂ (fun e (k : Nat) => e.literalPosition? = some ((k : Int) + 1)) es ks →
      Denotes (.slice (.array ty scalar es)) (.several ks)

/-- A literal settles to a leaf that denotes its position. -/
theorem settles_literalPosition {e : Expr} {i : Int} (h : e.literalPosition? = some i) :
    ∃ v : Value, Settles (fun ev req n => (ev.steps n).eval req e) v ∧ v.position = .ok i
      ∧ v.isArray = false := by
  unfold Expr.literalPosition? at h
  split at h
  · cases h
    exact ⟨_, .eval (.pure _), rfl, rfl⟩
  · cases h
    exact ⟨_, .eval (.pure _), rfl, rfl⟩
  · cases h
    exact ⟨_, .eval (.pure _), rfl, rfl⟩
  · cases h

/-- A list between two related ones, if there is an item between any two related items. -/
theorem exists_between {α β γ : Type} {R : α → β → Prop} {S : α → γ → Prop} {T : γ → β → Prop}
    {as : List α} {bs : List β} (h : List.Forall₂ R as bs)
    (hbetween : ∀ b ∈ bs, ∀ a, R a b → ∃ c, S a c ∧ T c b) :
    ∃ cs, List.Forall₂ S as cs ∧ List.Forall₂ T cs bs := by
  induction h with
  | nil => exact ⟨[], .nil, .nil⟩
  | @cons a b as bs hab _ ih =>
    obtain ⟨c, hac, hcb⟩ := hbetween b List.mem_cons_self a hab
    obtain ⟨cs, hacs, hcbs⟩ := ih fun b hb => hbetween b (List.mem_cons_of_mem _ hb)
    exact ⟨c :: cs, .cons hac hacs, .cons hcb hcbs⟩

/-! ## What is selected -/

/-- A value is what is selected from another: its sizes are those shown, and its entries come from
the entries at the selected indices. -/
structure Selects (selections : List Selection) (v w : Value) : Prop where
  consistent : w.Consistent
  dims_eq : w.dims = Selection.shownSizes selections v.dims
  entryAt?_eq : ∀ p ∈ positions (Selection.sizes selections v.dims),
    w.entryAt? p = v.entryAt? (Selection.origin selections p)

open Selection

/-- The array of values selected from elements of some sizes. -/
theorem shape_of_selected {α : Type} {rest : List Selection} {inner : List Nat} {ws : List Value}
    {picks : List α} (element : α → Value)
    (h : List.Forall₂ (fun w a => (element a).dims = inner ∧ Selects rest (element a) w) ws picks) :
    (Value.arrayOf ws).Consistent ∧ (Value.arrayOf ws).dims
      = if picks.length = 0 then [0] else picks.length :: shownSizes rest inner := by
  have hall : ∀ w ∈ ws, w.Consistent ∧ w.dims = shownSizes rest inner := by
    intro w hw
    obtain ⟨a, _, hinner, hselects⟩ := exists_mem_of_forall₂ h.flip w hw
    exact ⟨hselects.consistent, by rw [hselects.dims_eq, hinner]⟩
  exact ⟨Value.consistent_arrayOf hall, by rw [Value.dims_arrayOf_of hall, h.length_eq]⟩

/-- The entries of the array of values selected from elements of some sizes. -/
theorem entryAt?_of_selected {α : Type} {rest : List Selection} {inner : List Nat}
    {ws : List Value} {picks : List α} (element : α → Value)
    (h : List.Forall₂ (fun w a => (element a).dims = inner ∧ Selects rest (element a) w) ws picks)
    {i : Nat} (hi : i < picks.length) {p : List Nat} (hp : p ∈ positions (sizes rest inner)) :
    (Value.arrayOf ws).entryAt? (i :: p) = (element picks[i]).entryAt? (origin rest p) := by
  have hi' : i < ws.length := by rw [h.length_eq]; exact hi
  obtain ⟨hinner, hselects⟩ := h.get hi' hi
  rw [Value.arrayOf, Value.entryAt?_array_cons, List.getElem?_eq_getElem hi', Option.bind_some]
  exact hselects.entryAt?_eq p (by rw [List.get_eq_getElem, hinner] at *; exact hp)

namespace Selects

variable {rest : List Selection} {elements : List Value} {inner : List Nat}

/-- What is selected from the element at an index. -/
theorem one {k : Nat} {w : Value} (hk : k < elements.length)
    (h : (elements.getD k .fail).dims = inner ∧ Selects rest (elements.getD k .fail) w) :
    Selects (.one k :: rest) (.array elements.toArray (elements.length :: inner)) w where
  consistent := h.2.consistent
  dims_eq := by
    rw [h.2.dims_eq, h.1]
    rfl
  entryAt?_eq p hp := by
    rw [h.2.entryAt?_eq p (h.1.symm ▸ hp), origin, Value.entryAt?_array_cons,
      List.getD_eq_getElem elements _ hk, List.getElem?_eq_getElem hk, Option.bind_some]

/-- What is selected from the elements at several indices. -/
theorem several {ks : List Nat} {ws : List Value} (hks : ∀ k ∈ ks, k < elements.length)
    (h : List.Forall₂ (fun w k => (elements.getD k .fail).dims = inner
      ∧ Selects rest (elements.getD k .fail) w) ws ks) :
    Selects (.several ks :: rest) (.array elements.toArray (elements.length :: inner))
      (Value.arrayOf ws) where
  consistent := (shape_of_selected _ h).1
  dims_eq := (shape_of_selected _ h).2
  entryAt?_eq p hp := by
    obtain ⟨i, p, hi, hrest, rfl⟩ := Value.mem_positions_cons.mp hp
    have hk : ks[i] < elements.length := hks _ (List.getElem_mem hi)
    rw [entryAt?_of_selected _ h hi hrest, origin, Value.entryAt?_array_cons,
      List.getD_eq_getElem ks 0 hi, List.getD_eq_getElem elements _ hk,
      List.getElem?_eq_getElem hk, Option.bind_some]

/-- What is selected from all elements. -/
theorem all {ws : List Value} (hmore : rest ≠ [])
    (h : List.Forall₂ (fun w element => element.dims = inner ∧ Selects rest element w)
      ws elements) :
    Selects (.all :: rest) (.array elements.toArray (elements.length :: inner))
      (Value.arrayOf ws) where
  consistent := (shape_of_selected id h).1
  dims_eq := by
    rw [(shape_of_selected id h).2]
    simp [Value.dims, shownSizes, hmore]
  entryAt?_eq p hp := by
    obtain ⟨i, p, hi, hrest, rfl⟩ := Value.mem_positions_cons.mp hp
    rw [entryAt?_of_selected id h hi hrest, origin, Value.entryAt?_array_cons,
      List.getElem?_eq_getElem hi, Option.bind_some, id]

/-- All elements, selected last, are the array itself. -/
theorem all_last {v : Value} (hv : v.Consistent) {n : Nat} (hdims : v.dims = n :: inner) :
    Selects [.all] v v where
  consistent := hv
  dims_eq := by
    rw [hdims]
    rfl
  entryAt?_eq p hp := by
    rw [hdims] at hp
    obtain ⟨i, p, -, -, rfl⟩ := Value.mem_positions_cons.mp hp
    rfl

/-- Nothing is selected from no elements, and sizes that follow are not shown. -/
theorem all_empty (hrest : rest ≠ []) :
    Selects (.all :: rest) (.array #[] (0 :: inner)) (.array #[] [0]) where
  consistent := Value.consistent_empty []
  dims_eq := by simp [Value.dims, shownSizes, hrest]
  entryAt?_eq p hp := by
    obtain ⟨i, _, hi, _⟩ := Value.mem_positions_cons.mp hp
    exact absurd hi (Nat.not_lt_zero i)

end Selects

/-! ## Evaluating literal subscripts -/

/-- An element in range is selected whatever follows. -/
theorem settles_select {α : Type} {f : Evaluator → Request → Nat → Value → EvalM α} {a : α}
    {elements : List Value} (dims : List Nat) {index : Value} {k : Nat}
    (hindex : index.position = .ok ((k : Int) + 1)) (hk : k < elements.length)
    (h : Settles (fun ev req n => f ev req n (elements.getD k .fail)) a) :
    Settles (fun ev req n => do
      let element ← (Value.array elements.toArray dims).select (← index.position)
      f ev req n element) a := by
  have hpositive : 1 ≤ (k : Int) + 1 := by omega
  have hselect : (Value.array elements.toArray dims).select (k + 1)
      = .ok (elements.getD k .fail) := by
    simp [Value.select, nth, hk, hpositive]
  exact (Settles.ofOutcome hindex).bind ((Settles.ofOutcome hselect).bind h)

/-- The leaves of an array of values that are no arrays. -/
theorem flatten_arrayOfType (ty : Ty) {values : List Value}
    (h : ∀ v ∈ values, v.isArray = false) : (Steps.arrayOfType ty values).flatten = values := by
  unfold Steps.arrayOfType
  split
  · rfl
  · exact Value.flatten_array_of_leaves h _

/-- A vector of literals settles to a value whose leaves denote their positions. -/
theorem settles_literals (ty : Ty) (scalar : Bool) {es : List Expr} {ks : List Nat}
    (h : List.Forall₂ (fun e (k : Nat) => e.literalPosition? = some ((k : Int) + 1)) es ks) :
    ∃ indices : Value, Settles (fun ev req n => (ev.steps n).eval req (.array ty scalar es)) indices
      ∧ List.Forall₂ (fun i (k : Nat) => i.position = .ok ((k : Int) + 1)) indices.flatten ks := by
  obtain ⟨leaves, hleaves, hpositions⟩ := exists_between
    (T := fun (i : Value) (k : Nat) => i.position = .ok ((k : Int) + 1) ∧ i.isArray = false) h
    fun k _ e => settles_literalPosition
  refine ⟨Steps.arrayOfType ty leaves, .eval ((Settles.evalAll hleaves.flip).map _), ?_⟩
  have hflat : (Steps.arrayOfType ty leaves).flatten = leaves := by
    refine flatten_arrayOfType ty fun i hi => ?_
    obtain ⟨k, _, _, hleaf⟩ := exists_mem_of_forall₂ hpositions.flip i hi
    exact hleaf
  rw [hflat]
  exact hpositions.imp fun _ _ => And.left

/-- Before other subscripts `:` settles to what these select from every element. -/
theorem settles_whole {subscripts : List Subscript} {rest : List Selection} {elements : List Value}
    {inner : List Nat} (hsubscripts : subscripts ≠ []) (hrest : rest ≠ [])
    (hkept : ∀ element ∈ elements, ∃ w,
      Settles (fun ev req n => (ev.steps n).applySubscripts req subscripts element) w
        ∧ element.dims = inner ∧ Selects rest element w) :
    ∃ w, Settles (fun ev req n => (ev.steps n).applySubscripts req (.whole :: subscripts)
        (.array elements.toArray (elements.length :: inner))) w
      ∧ Selects (.all :: rest) (.array elements.toArray (elements.length :: inner)) w := by
  have hisEmpty : subscripts.isEmpty = false := List.isEmpty_eq_false_iff.mpr hsubscripts
  cases elements with
  | nil =>
    simp only [Steps.applySubscripts, hisEmpty, Bool.false_eq_true, if_false]
    exact ⟨_, .pure _, .all_empty hrest⟩
  | cons first elements =>
    simp only [Steps.applySubscripts, hisEmpty, Bool.false_eq_true, if_false]
    obtain ⟨ws, hws, hselects⟩ := exists_between (List.forall₂_same.mpr fun _ _ => rfl)
      fun element helement a (heq : a = element) => by
        obtain ⟨w, hw, hselects⟩ := hkept element helement
        exact ⟨w, heq ▸ hw, hselects⟩
    exact ⟨Value.arrayOf ws, (Settles.mapM hws).map _, .all hrest hselects⟩

/-- Literal subscripts settle to what they select. -/
theorem settles_applySubscripts {subscripts : List Subscript} {selections : List Selection}
    (hdenotes : List.Forall₂ Subscript.Denotes subscripts selections) {v : Value}
    (hv : v.Consistent) (hfits : Fits selections v.dims) :
    ∃ w, Settles (fun ev req n => (ev.steps n).applySubscripts req subscripts v) w
      ∧ Selects selections v w := by
  induction hdenotes generalizing v with
  | nil => exact ⟨v, .pure v, hv, rfl, fun _ _ => rfl⟩
  | @cons subscript s subscripts rest hdenotes hrest ih =>
    generalize hdims : v.dims = dims at hfits
    cases hfits with
    | @cons _ _ n inner hrange hfits =>
    obtain ⟨elements, rfl, rfl, hall⟩ := hv.elements hdims
    -- what follows applies to every element that is kept
    have hkept : ∀ element ∈ elements, ∃ w,
        Settles (fun ev req n => (ev.steps n).applySubscripts req subscripts element) w
          ∧ element.dims = inner ∧ Selects rest element w := by
      intro element helement
      obtain ⟨hconsistent, hinner⟩ := hall element helement
      obtain ⟨w, hw, hselects⟩ := ih hconsistent (hinner.symm ▸ hfits)
      exact ⟨w, hw, hinner, hselects⟩
    have hpicked : ∀ k < elements.length, ∃ w,
        Settles (fun ev req n =>
          (ev.steps n).applySubscripts req subscripts (elements.getD k .fail)) w
          ∧ (elements.getD k .fail).dims = inner ∧ Selects rest (elements.getD k .fail) w := by
      intro k hk
      rw [List.getD_eq_getElem elements _ hk]
      exact hkept _ (List.getElem_mem hk)
    cases hdenotes with
    | @index e k hliteral =>
      obtain ⟨index, hindex, hposition, _⟩ := settles_literalPosition hliteral
      obtain ⟨w, hw, hselects⟩ := hpicked k hrange
      exact ⟨w, hindex.bind (settles_select _ hposition hrange hw), .one hrange hselects⟩
    | @slice ty scalar es ks hliterals =>
      obtain ⟨indices, hindices, hpositions⟩ := settles_literals ty scalar hliterals
      obtain ⟨ws, hws, hselects⟩ := exists_between hpositions fun k hk index hposition => by
        obtain ⟨w, hw, hselects⟩ := hpicked k (hrange k hk)
        exact ⟨w, settles_select (elements.length :: inner) hposition (hrange k hk) hw, hselects⟩
      exact ⟨Value.arrayOf ws, hindices.bind ((Settles.mapM hws).map _), .several hrange hselects⟩
    | whole =>
      by_cases hlast : subscripts = []
      · subst hlast
        cases hrest
        exact ⟨_, .pure _, .all_last hv rfl⟩
      · refine settles_whole hlast ?_ hkept
        rintro rfl
        cases hrest
        exact hlast rfl

/-! ## The selection as specified -/

/-- Literal subscripts in range have a value, and every entry of it is the entry of the operand at
the selected indices. Its sizes are those of the selection if and only if none is lost. -/
theorem subscripts_select {subscripts : List Subscript} {selections : List Selection} {v : Value}
    (hv : v.Consistent) (hdenotes : List.Forall₂ Subscript.Denotes subscripts selections)
    (hfits : Fits selections v.dims) :
    ∃ w, Settles (fun ev req n => (ev.steps n).applySubscripts req subscripts v) w
      ∧ w.Consistent ∧ (w.dims = sizes selections v.dims ↔ SizesShown selections v.dims)
      ∧ ∀ p ∈ positions (sizes selections v.dims), ∃ leaf : Value, leaf.isArray = false
        ∧ w.entryAt? p = some leaf ∧ v.entryAt? (origin selections p) = some leaf := by
  obtain ⟨w, hsettles, hselects⟩ := settles_applySubscripts hdenotes hv hfits
  refine ⟨w, hsettles, hselects.consistent, ?_, fun p hp => ?_⟩
  · rw [hselects.dims_eq]
    exact shownSizes_eq_iff hfits
  · obtain ⟨leaf, hleaf, harray⟩ := hv.exists_leaf (origin_mem_positions hfits hp)
    exact ⟨leaf, harray, by rw [hselects.entryAt?_eq p hp, hleaf], hleaf⟩

/-- The third and the first column of a matrix. -/
theorem subscripts_select_columns :
    ∃ w, Settles (fun ev req n => (ev.steps n).applySubscripts req
        [.whole, .slice (.array .unknown false [.integer 3, .integer 1])]
        (.matrix [[.integer 1, .integer 2, .integer 3], [.integer 4, .integer 5, .integer 6]] 3)) w
      ∧ w.dims = [2, 2] ∧ w.entryAt? [1, 0] = some (.integer 6) := by
  have hconsistent : (Value.matrix [[.integer 1, .integer 2, .integer 3],
      [.integer 4, .integer 5, .integer 6]] 3).Consistent :=
    Value.consistent_matrix (by simp [Value.dims])
  have hdenotes : List.Forall₂ Subscript.Denotes
      [.whole, .slice (.array .unknown false [.integer 3, .integer 1])] [.all, .several [2, 0]] :=
    .cons .whole (.cons (.slice _ _ (.cons rfl (.cons rfl .nil))) .nil)
  have hfits : Fits [.all, .several [2, 0]] [2, 3] :=
    .cons trivial (.cons (by simp [InRange]) (.nil []))
  obtain ⟨w, hw, -, hdims, hentries⟩ := subscripts_select hconsistent hdenotes hfits
  refine ⟨w, hw, hdims.mpr (by simp [Value.matrix, Value.dims, SizesShown]), ?_⟩
  obtain ⟨leaf, -, hleaf, horigin⟩ := hentries [1, 0] (by decide)
  rw [hleaf, ← horigin]
  rfl

/-- Without rows the number of columns is lost. -/
theorem subscripts_lose_sizes :
    (Value.array #[] [0, 3]).Consistent
      ∧ List.Forall₂ Subscript.Denotes [.whole, .whole] [.all, .all]
      ∧ Fits [.all, .all] [0, 3] ∧ sizes [.all, .all] [0, 3] = [0, 3]
      ∧ ∀ (s : Steps) (req : Request),
        s.applySubscripts req [.whole, .whole] (.array #[] [0, 3]) = pure (.array #[] [0]) :=
  ⟨Value.consistent_empty [3], .cons .whole (.cons .whole .nil),
    .cons trivial (.cons trivial (.nil [])), rfl, fun _ _ => rfl⟩

end ModelicaFold
