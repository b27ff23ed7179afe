import ModelicaFold.Proofs.Reporting.Queue

/-!
# The order in which diagnostics are handed out

A queue hands out what it holds sorted by one number, the start of the primary span, and a diagnostic
without a primary label counts as one at the start. The sort is stable. So the diagnostics without a
primary label come first, as they should, unless one that has its label at the very start of the source
has been accepted before one of them; `flush_order` says that this is the only exception, after any
additions and flushes.
-/

namespace ModelicaFold

/-! ## Stable sorting -/

/-- The items in non-decreasing order of a key, those with one key in the order they were in. -/
structure StablySorted {α : Type} (key : α → Nat) (items sorted : List α) : Prop where
  perm : sorted.Perm items
  ordered : sorted.Pairwise fun a b => key a ≤ key b
  stable : ∀ k, (sorted.filter fun a => key a = k) = items.filter fun a => key a = k

namespace StablySorted

variable {α : Type} {key : α → Nat} {items sorted : List α}

/-- Merging sorts a list and keeps equal keys in order. -/
theorem mergeSort (key : α → Nat) (items : List α) :
    StablySorted key items (items.mergeSort fun a b => key a ≤ key b) := by
  have htrans : ∀ a b c : α, decide (key a ≤ key b) = true → decide (key b ≤ key c) = true →
      decide (key a ≤ key c) = true := by
    intro a b c hab hbc
    simp only [decide_eq_true_eq] at hab hbc ⊢
    omega
  have htotal : ∀ a b : α, (decide (key a ≤ key b) || decide (key b ≤ key a)) = true := by
    intro a b
    simp only [Bool.or_eq_true, decide_eq_true_eq]
    omega
  have hperm := List.mergeSort_perm items fun a b => key a ≤ key b
  refine ⟨hperm, ?_, fun k => ?_⟩
  · have hpairwise := List.pairwise_mergeSort htrans htotal items
    simpa only [decide_eq_true_eq] using hpairwise
  · -- the items with the key `k` are in order already, so that sorting keeps their order
    have hsame : (items.filter fun a => key a = k).Pairwise
        fun a b => decide (key a ≤ key b) = true := by
      apply List.pairwise_of_forall_mem_list
      intro a ha b hb
      simp only [List.mem_filter, decide_eq_true_eq] at ha hb ⊢
      omega
    have hsublist := (List.sublist_mergeSort htrans htotal hsame List.filter_sublist).filter
      fun a => key a = k
    simp only [List.filter_filter, Bool.and_self] at hsublist
    symm
    apply hsublist.eq_of_length
    exact (hperm.filter _).length_eq.symm

/-- Of two items with one key the same one comes first before and after sorting. -/
theorem pair_sublist_iff (h : StablySorted key items sorted) {a b : α} (hab : key a = key b) :
    [a, b].Sublist sorted ↔ [a, b].Sublist items := by
  have hfilter : ∀ l : List α,
      [a, b].Sublist l ↔ [a, b].Sublist (l.filter fun c => key c = key b) := by
    intro l
    constructor
    · intro hl
      simpa [hab] using hl.filter fun c => key c = key b
    · intro hl
      exact hl.trans List.filter_sublist
  rw [hfilter sorted, hfilter items, h.stable]

/-- What is left out before or after sorting does not matter to the others. -/
theorem filter (h : StablySorted key items sorted) (p : α → Bool) :
    StablySorted key (items.filter p) (sorted.filter p) where
  perm := h.perm.filter p
  ordered := h.ordered.filter p
  stable k := by
    rw [List.filter_comm, h.stable k, List.filter_comm]

end StablySorted

/-- Items of which those with a property come first are these and then the others. -/
theorem filter_append_filter_not {α : Type} {p : α → Bool} {items : List α}
    (h : items.Pairwise fun a b => p b = true → p a = true) :
    items.filter p ++ items.filter (fun a => !p a) = items := by
  induction items with
  | nil => rfl
  | cons a items ih =>
    rw [List.pairwise_cons] at h
    obtain ⟨hfirst, hothers⟩ := h
    by_cases ha : p a = true
    · simp [ha, ih hothers]
    · have hnone : items.filter p = [] := by
        apply List.filter_eq_nil_iff.mpr
        intro b hb hpb
        exact ha (hfirst b hb hpb)
      have hnot := ih hothers
      rw [hnone, List.nil_append] at hnot
      simp [ha, hnone, hnot]

/-! ## Diagnostics without a place -/

/-- Whether a diagnostic has no primary label. -/
def Diagnostic.placeless (d : Diagnostic) : Bool := d.primarySpan?.isNone

/-- A diagnostic without a primary label counts as one at the start of the source. -/
theorem Diagnostic.position_of_placeless {d : Diagnostic} (h : d.placeless = true) :
    d.position = 0 := by
  unfold placeless at h
  unfold position
  rw [Option.isNone_iff_eq_none.mp h]
  rfl

/-- The order that is wanted: first the diagnostics without a primary label as they were inserted, then
those with one by the start of their primary spans, and as they were inserted where these are equal. -/
def PlacelessFirst (inserted flushed : List Diagnostic) : Prop :=
  ∃ placed, flushed = inserted.filter Diagnostic.placeless ++ placed
    ∧ StablySorted Diagnostic.position (inserted.filter fun d => !d.placeless) placed

variable {inserted flushed : List Diagnostic}

/-- In the wanted order nothing that has a place comes before something that has none. -/
theorem PlacelessFirst.pairwise (h : PlacelessFirst inserted flushed) :
    flushed.Pairwise fun d e => e.placeless = true → d.placeless = true := by
  obtain ⟨placed, rfl, hplaced⟩ := h
  have hmem : ∀ e ∈ placed, e.placeless = false := by
    intro e he
    have he' := hplaced.perm.mem_iff.mp he
    simpa using (List.mem_filter.mp he').2
  rw [List.pairwise_append]
  refine ⟨?_, ?_, ?_⟩
  · apply List.pairwise_of_forall_mem_list
    intro d hd _ _ _
    exact (List.mem_filter.mp hd).2
  · apply List.pairwise_of_forall_mem_list
    intro _ _ e he hplaceless
    rw [hmem e he] at hplaceless
    cases hplaceless
  · intro d hd _ _ _
    exact (List.mem_filter.mp hd).2

/-- Diagnostics sorted by position are in the wanted order, unless one at the start with a label has been
inserted before one without. -/
theorem StablySorted.placelessFirst_iff (h : StablySorted Diagnostic.position inserted flushed) :
    PlacelessFirst inserted flushed ↔
      inserted.Pairwise fun d e => d.position = 0 → e.placeless = true → d.placeless = true := by
  constructor
  · intro hfirst
    rw [List.pairwise_iff_forall_sublist]
    intro d e hsublist hd he
    have hsame : d.position = e.position := by rw [hd, Diagnostic.position_of_placeless he]
    exact List.pairwise_iff_forall_sublist.mp hfirst.pairwise
      ((h.pair_sublist_iff hsame).mpr hsublist) he
  · intro hinserted
    have hflushed : flushed.Pairwise fun d e => e.placeless = true → d.placeless = true := by
      rw [List.pairwise_iff_forall_sublist]
      intro d e hsublist he
      have hpos := Diagnostic.position_of_placeless he
      have hle := List.pairwise_iff_forall_sublist.mp h.ordered hsublist
      have hd : d.position = 0 := by omega
      have hsame : d.position = e.position := by rw [hd, hpos]
      exact List.pairwise_iff_forall_sublist.mp hinserted
        ((h.pair_sublist_iff hsame).mp hsublist) hd he
    have hstart : ∀ l : List Diagnostic, l.filter Diagnostic.placeless
        = (l.filter fun d => d.position = 0).filter Diagnostic.placeless := by
      intro l
      rw [List.filter_filter]
      apply List.filter_congr
      intro d _
      by_cases hd : d.placeless = true
      · simp [hd, Diagnostic.position_of_placeless hd]
      · simp [hd]
    refine ⟨flushed.filter fun d => !d.placeless, ?_, h.filter _⟩
    rw [hstart inserted, ← h.stable, ← hstart flushed]
    exact (filter_append_filter_not hflushed).symm

namespace DiagnosticQueue

open QueueEvent (acceptedSinceFlush)

/-- After any additions and flushes, a flush hands out what has been accepted since the last one, sorted
by position, and as it was inserted at equal positions. Diagnostics without a primary label come first
exactly if none with a label at the very start has been accepted before one of them. -/
theorem flush_order (policy : QueuePolicy) (steps : List QueueStep) :
    let (history, q) := (empty policy).run steps
    let inserted := acceptedSinceFlush history
    StablySorted Diagnostic.position inserted q.flush.1
      ∧ (PlacelessFirst inserted q.flush.1 ↔
        inserted.Pairwise fun d e => d.position = 0 → e.placeless = true → d.placeless = true) := by
  have hheld := (Accounts.run policy steps).held_eq
  generalize (empty policy).run steps = outcome at hheld ⊢
  obtain ⟨history, q⟩ := outcome
  have hsorted : StablySorted Diagnostic.position (acceptedSinceFlush history) q.flush.1 := by
    rw [← hheld]
    exact .mergeSort Diagnostic.position q.held
  exact ⟨hsorted, hsorted.placelessFirst_iff⟩

/-- Two errors, one with its label at the very start of the source and one without a label. -/
def errorAtStart : Diagnostic := ⟨⟨6003⟩, .error, "at the start", [⟨⟨0, 1⟩, "here", true⟩], [], []⟩

def errorNowhere : Diagnostic := .error ⟨6003⟩ "nowhere"

/-- An error without a label that is added after one with its label at the start is handed out after
it. -/
theorem flush_start_before_placeless :
    let q := ((empty .unlimited).run [.add errorAtStart, .add errorNowhere]).2
    q.held = [errorAtStart, errorNowhere] ∧ q.flush.1 = [errorAtStart, errorNowhere]
      ∧ ¬PlacelessFirst q.held q.flush.1 := by
  intro q
  have hheld : q.held = [errorAtStart, errorNowhere] := by decide
  have hflush : q.flush.1 = [errorAtStart, errorNowhere] := by
    have hordered : [errorAtStart, errorNowhere].Pairwise
        fun d e => decide (d.position ≤ e.position) = true := by decide
    rw [flush, hheld]
    exact List.mergeSort_of_pairwise hordered
  refine ⟨hheld, hflush, fun hfirst => ?_⟩
  have hpairwise := hfirst.pairwise
  rw [hflush] at hpairwise
  have hlabelled := List.rel_of_pairwise_cons hpairwise List.mem_cons_self rfl
  cases hlabelled

end DiagnosticQueue

end ModelicaFold
