import ModelicaFold.Value.Convert

/-!
# Values inside values

The direct parts of a value, properties that hold of a value and of all values inside it, and
induction over the parts.
-/

namespace ModelicaFold.Value

/-- The values that a value is put together from. -/
def parts : Value → List Value
  | .array elements _ => elements.toList
  | .list elements => elements.toList
  | .tuple elements => elements
  | .record _ fields _ _ => fields
  | .present content => [content]
  | .boxed content => [content]
  | _ => []

/-- A property that holds of a value and of every value inside it. -/
inductive Everywhere (P : Value → Prop) : Value → Prop where
  | intro {v : Value} : P v → (∀ w ∈ v.parts, Everywhere P w) → Everywhere P v

/-- A property holds everywhere in a value if it holds of the value and everywhere in its parts. -/
theorem everywhere_iff {P : Value → Prop} {v : Value} :
    v.Everywhere P ↔ P v ∧ ∀ w ∈ v.parts, w.Everywhere P :=
  ⟨fun ⟨h, hparts⟩ => ⟨h, hparts⟩, fun ⟨h, hparts⟩ => .intro h hparts⟩

mutual

/-- A property of all values, by induction on the values inside them. -/
theorem partsInduction {P : Value → Prop} (step : ∀ v, (∀ w ∈ v.parts, P w) → P v) :
    ∀ v, P v
  | .array ⟨elements⟩ _ => step _ (partsInductionAll step elements)
  | .list ⟨elements⟩ => step _ (partsInductionAll step elements)
  | .tuple elements => step _ (partsInductionAll step elements)
  | .record _ fields _ _ => step _ (partsInductionAll step fields)
  | .present content => step _ (List.forall_mem_singleton.mpr (partsInduction step content))
  | .boxed content => step _ (List.forall_mem_singleton.mpr (partsInduction step content))
  | .integer _ => step _ nofun
  | .real _ => step _ nofun
  | .bool _ => step _ nofun
  | .string _ => step _ nofun
  | .enumeration _ _ => step _ nofun
  | .absent => step _ nofun
  | .fail => step _ nofun
  | .noReturn => step _ nofun
  | .code _ => step _ nofun
  | .empty _ _ _ => step _ nofun

/-- Induction over the parts for the values of a list. -/
theorem partsInductionAll {P : Value → Prop} (step : ∀ v, (∀ w ∈ v.parts, P w) → P v) :
    ∀ vs : List Value, ∀ v ∈ vs, P v
  | [] => nofun
  | v :: vs => List.forall_mem_cons.mpr ⟨partsInduction step v, partsInductionAll step vs⟩

end

end ModelicaFold.Value
