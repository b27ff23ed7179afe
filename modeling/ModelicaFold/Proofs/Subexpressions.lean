import ModelicaFold.Syntax.Subterms

/-!
# Induction over direct subexpressions

The direct subexpressions of an expression are smaller than it (`Expr.sizeOf_lt_of_mem_children`), so
that properties of expressions may be proved by induction on them (`Expr.childInduction`).
-/

namespace ModelicaFold

/-- The expression of a subscript is smaller than the subscript. -/
theorem Subscript.sizeOf_expr? {subscript : Subscript} {e : Expr} (h : subscript.expr? = some e) :
    sizeOf e < sizeOf subscript := by
  cases subscript <;> cases h <;> simp +arith

/-- The source of an iterator is smaller than the iterator. -/
theorem Iterator.sizeOf_source (it : Iterator) : sizeOf it.source < sizeOf it := by
  cases it
  simp +arith [Iterator.source]

/-- The guard of an iterator is smaller than the iterator. -/
theorem Iterator.sizeOf_guard {it : Iterator} {guard : Expr} (h : it.guard = some guard) :
    sizeOf guard < sizeOf it := by
  cases it
  cases h
  simp +arith

/-- A subscript of a reference is smaller than the parts of the reference. -/
theorem Reference.sizeOf_subscripts {parts : Reference} {subscript : Subscript}
    (h : subscript ∈ Reference.subscripts parts) : sizeOf subscript < sizeOf parts := by
  obtain ⟨⟨ident, subscripts⟩, hpart, hsubscript⟩ := List.mem_flatMap.mp h
  have hlt := List.sizeOf_lt_of_mem hpart
  have hlt' : sizeOf subscript < sizeOf subscripts := List.sizeOf_lt_of_mem hsubscript
  simp only [RefPart.mk.sizeOf_spec] at hlt
  omega

namespace Expr

/-- Direct subexpressions are smaller. -/
theorem sizeOf_lt_of_mem_children {e child : Expr} (h : child ∈ e.children) :
    sizeOf child < sizeOf e := by
  cases e with
  | integer | real | bool | string | enumeration | code | absent => cases h
  | array _ _ es | tuple es | list es | call _ es | record _ es | unionRecord _ _ es =>
    have hlt : sizeOf child < sizeOf es := List.sizeOf_lt_of_mem h
    simp only [array.sizeOf_spec, tuple.sizeOf_spec, list.sizeOf_spec, call.sizeOf_spec,
      record.sizeOf_spec, unionRecord.sizeOf_spec]
    omega
  | matrix ty rows =>
    obtain ⟨row, hrow, hchild⟩ := List.mem_flatten.mp h
    have hlt := List.sizeOf_lt_of_mem hrow
    have hlt' := List.sizeOf_lt_of_mem hchild
    simp only [matrix.sizeOf_spec]
    omega
  | range ty start step stop =>
    cases step <;> simp [children] at h <;> rcases h with rfl | rfl | rfl <;> simp +arith
  | reference parts ty =>
    obtain ⟨subscript, hsubscript, he⟩ := List.mem_filterMap.mp h
    have hlt := Reference.sizeOf_subscripts hsubscript
    have hlt' := Subscript.sizeOf_expr? he
    simp only [reference.sizeOf_spec]
    omega
  | subscripted operand subscripts =>
    rcases List.mem_cons.mp h with rfl | h
    · simp +arith
    · obtain ⟨subscript, hsubscript, he⟩ := List.mem_filterMap.mp h
      have hlt := List.sizeOf_lt_of_mem hsubscript
      have hlt' := Subscript.sizeOf_expr? he
      simp only [subscripted.sizeOf_spec]
      omega
  | reduction info body iterators =>
    simp only [children, List.mem_append, List.mem_flatMap, List.mem_singleton] at h
    rcases h with ⟨it, hit, hchild⟩ | rfl
    · have hlt := List.sizeOf_lt_of_mem hit
      have hlt' : sizeOf child < sizeOf it := by
        rcases List.mem_cons.mp hchild with rfl | hguard
        · exact it.sizeOf_source
        · exact Iterator.sizeOf_guard (Option.mem_toList.mp hguard)
      simp only [reduction.sizeOf_spec]
      omega
    · simp +arith
  | size operand dim =>
    cases dim <;> simp [children] at h <;> rcases h with rfl | rfl <;> simp +arith
  | _ =>
    simp only [children, List.mem_cons, List.not_mem_nil, or_false] at h
    rcases h with rfl | rfl | rfl <;> simp +arith

/-- A property of all expressions, by induction on their direct subexpressions. -/
theorem childInduction {P : Expr → Prop} (step : ∀ e, (∀ child ∈ e.children, P child) → P e)
    (e : Expr) : P e :=
  step e fun child h =>
    have := sizeOf_lt_of_mem_children h
    childInduction step child
termination_by sizeOf e

end Expr

end ModelicaFold
