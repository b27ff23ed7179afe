import ModelicaFold.Value.Basic
import Mathlib.Data.List.Forall2

/-!
# Outcomes that are values

What it takes for a composed computation to give a value. Each lemma turns the success of a
sequence, a map or a fold into the successes of its parts.
-/

namespace ModelicaFold

/-- In related lists every item on the right is related to one on the left. -/
theorem exists_mem_of_forall₂ {α β : Type} {R : α → β → Prop} {as : List α} {bs : List β}
    (h : List.Forall₂ R as bs) : ∀ b ∈ bs, ∃ a ∈ as, R a b := by
  induction h with
  | nil => exact fun b hb => absurd hb List.not_mem_nil
  | cons hab _ ih =>
    intro b hb
    rcases List.mem_cons.mp hb with rfl | hb
    · exact ⟨_, List.mem_cons_self, hab⟩
    · obtain ⟨a, ha, hab⟩ := ih b hb
      exact ⟨a, List.mem_cons_of_mem _ ha, hab⟩

/-- What a partial function gives for every item of a list. -/
theorem mapM_eq_some {α β : Type} {f : α → Option β} {items : List α} {results : List β} :
    items.mapM f = some results ↔ List.Forall₂ (fun a b => f a = some b) items results := by
  induction items generalizing results with
  | nil =>
    rw [List.forall₂_nil_left_iff]
    exact ⟨fun h => by cases h; rfl, fun h => by rw [h]; rfl⟩
  | cons a items ih =>
    rw [List.mapM_cons, List.forall₂_cons_left_iff]
    simp only [Option.bind_eq_bind, Option.bind_eq_some_iff, Option.pure_def, Option.some.injEq, ih]
    exact ⟨fun ⟨b, hb, bs, hbs, h⟩ => ⟨b, bs, hb, hbs, h.symm⟩,
      fun ⟨b, bs, hb, hbs, h⟩ => ⟨b, hb, bs, hbs, h.symm⟩⟩

namespace Outcome

variable {ε α β : Type}

/-- A value is handed to the computation that follows. -/
theorem ok_bind (a : α) (f : α → Except ε β) : ((.ok a : Except ε α) >>= f) = f a := rfl

/-- A sequence gives a value if its first part gives one and the rest does from there. -/
theorem bind_eq_ok {x : Except ε α} {f : α → Except ε β} {b : β} :
    x >>= f = .ok b ↔ ∃ a, x = .ok a ∧ f a = .ok b := by
  cases x with
  | error e => exact ⟨nofun, nofun⟩
  | ok a => exact ⟨fun h => ⟨a, rfl, h⟩, fun ⟨_, ha, h⟩ => by cases ha; exact h⟩

/-- A sequence fails if its first part fails or the rest does after it. -/
theorem bind_eq_error {x : Except ε α} {f : α → Except ε β} {e : ε} :
    x >>= f = .error e ↔ x = .error e ∨ ∃ a, x = .ok a ∧ f a = .error e := by
  cases x with
  | error e' =>
    have hbind : (.error e' : Except ε α) >>= f = .error e' := rfl
    simp [hbind]
  | ok a => simp [ok_bind]

/-- A map gives a value if there is one to map. -/
theorem map_eq_ok {x : Except ε α} {f : α → β} {b : β} :
    x.map f = .ok b ↔ ∃ a, x = .ok a ∧ f a = b := by
  cases x with
  | error e => exact ⟨nofun, nofun⟩
  | ok a =>
    simp only [Except.map, Except.ok.injEq]
    exact ⟨fun h => ⟨a, rfl, h⟩, fun ⟨_, ha, h⟩ => ha ▸ h⟩

/-- The refusal of an operand is no value. -/
@[simp]
theorem fail_eq_ok {c : Cause} {a : α} : c.fail = .ok a ↔ False :=
  ⟨nofun, nofun⟩

/-- A refusal gives no value. -/
@[simp]
theorem refuse_eq_ok {what want : String} {got : Value} {a : α} :
    Value.refuse what want got = .ok a ↔ False :=
  fail_eq_ok

/-- The values of a list of computations, one for each. -/
theorem mapM_eq_ok {f : α → Except ε β} {items : List α} {results : List β} :
    items.mapM f = .ok results ↔ List.Forall₂ (fun a b => f a = .ok b) items results := by
  induction items generalizing results with
  | nil =>
    rw [List.forall₂_nil_left_iff]
    exact ⟨fun h => by cases h; rfl, fun h => by rw [h]; rfl⟩
  | cons a items ih =>
    rw [List.mapM_cons, bind_eq_ok, List.forall₂_cons_left_iff]
    constructor
    · rintro ⟨b, hb, h⟩
      obtain ⟨bs, hbs, h⟩ := bind_eq_ok.mp h
      cases h
      exact ⟨b, bs, hb, ih.mp hbs, rfl⟩
    · rintro ⟨b, bs, hb, hbs, rfl⟩
      exact ⟨b, hb, bind_eq_ok.mpr ⟨bs, ih.mpr hbs, rfl⟩⟩

/-- Every value of a list of computations comes from one of them. -/
theorem mem_of_mapM_eq_ok {f : α → Except ε β} {items : List α} {results : List β}
    (h : items.mapM f = .ok results) {b : β} (hb : b ∈ results) : ∃ a ∈ items, f a = .ok b :=
  exists_mem_of_forall₂ (mapM_eq_ok.mp h) b hb

/-- Mapping a list by a computation that succeeds keeps its length. -/
theorem length_of_mapM_eq_ok {f : α → Except ε β} {items : List α} {results : List β}
    (h : items.mapM f = .ok results) : results.length = items.length :=
  (mapM_eq_ok.mp h).length_eq.symm

/-- Computations that agree on the items of a list map it alike. -/
theorem mapM_congr {f g : α → Except ε β} {items : List α} (h : ∀ a ∈ items, f a = g a) :
    items.mapM f = items.mapM g := by
  induction items with
  | nil => rfl
  | cons a items ih =>
    obtain ⟨ha, hitems⟩ := List.forall_mem_cons.mp h
    rw [List.mapM_cons, List.mapM_cons, ha, ih hitems]

/-- The failure of a list of computations is the failure of the first of them that fails. -/
theorem mapM_eq_error {f : α → Except ε β} {items : List α} {e : ε} :
    items.mapM f = .error e ↔
      ∃ before a after, items = before ++ a :: after ∧ (∀ b ∈ before, ∃ c, f b = .ok c)
        ∧ f a = .error e := by
  induction items with
  | nil => exact ⟨nofun, fun ⟨before, a, after, h, _⟩ => by simp at h⟩
  | cons a items ih =>
    have hfirst : (a :: items).mapM f = .error e ↔
        f a = .error e ∨ ∃ c, f a = .ok c ∧ items.mapM f = .error e := by
      have hpure : ∀ bs : List β, (pure bs : Except ε (List β)) ≠ .error e := nofun
      simp only [List.mapM_cons, bind_eq_error, hpure, and_false, exists_false, or_false]
    rw [hfirst, ih]
    constructor
    · rintro (ha | ⟨c, ha, before, a', after, rfl, hbefore, ha'⟩)
      · exact ⟨[], a, items, rfl, List.forall_mem_nil _, ha⟩
      · exact ⟨a :: before, a', after, rfl, List.forall_mem_cons.mpr ⟨⟨c, ha⟩, hbefore⟩, ha'⟩
    · rintro ⟨_ | ⟨b, before⟩, a', after, hitems, hbefore, ha'⟩
      · obtain ⟨rfl, -⟩ := List.cons.inj hitems
        exact .inl ha'
      · obtain ⟨rfl, rfl⟩ := List.cons.inj hitems
        obtain ⟨⟨c, ha⟩, hbefore⟩ := List.forall_mem_cons.mp hbefore
        exact .inr ⟨c, ha, before, a', after, rfl, hbefore, ha'⟩

/-- It is the failure of one of them. -/
theorem mem_of_mapM_eq_error {f : α → Except ε β} {items : List α} {e : ε}
    (h : items.mapM f = .error e) : ∃ a ∈ items, f a = .error e := by
  obtain ⟨before, a, after, rfl, -, ha⟩ := mapM_eq_error.mp h
  exact ⟨a, by simp, ha⟩

/-- What every step of a fold keeps holds of its result. -/
theorem foldlM_induct {P : β → Prop} {f : β → α → Outcome β} {items : List α} {b c : β}
    (hb : P b) (hstep : ∀ b a c, P b → f b a = .ok c → P c)
    (h : items.foldlM f b = .ok c) : P c := by
  induction items generalizing b with
  | nil =>
    cases h
    exact hb
  | cons a items ih =>
    rw [List.foldlM_cons] at h
    obtain ⟨b', hb', h⟩ := bind_eq_ok.mp h
    exact ih (hstep b a b' hb hb') h

end Outcome

end ModelicaFold
