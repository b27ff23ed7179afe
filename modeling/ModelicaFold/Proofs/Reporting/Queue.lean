import Mathlib.Data.List.DropRight
import ModelicaFold.Diagnostic.Queue

/-!
# Histories of a diagnostic queue

A queue keeps the number of its errors next to what it holds, refuses errors at a limit and refuses
repetitions. What is done to a queue and what it answers is its history; the theorem is about the
queue that any history from the empty queue leaves behind (`queue_invariant`). `Accounts` is what
every step keeps: the number is the number of errors held, the limit is not exceeded, nothing is held
twice, and what is held is what has been accepted since the queue was last flushed.
-/

namespace ModelicaFold

/-- Two diagnostics with one code, one primary span and one message. -/
def Diagnostic.Alike (d e : Diagnostic) : Prop :=
  d.code = e.code ∧ d.primarySpan? = e.primarySpan? ∧ d.message = e.message

/-- One diagnostic repeats another if and only if the two are alike. -/
theorem Diagnostic.repeats_iff {d e : Diagnostic} : d.repeats e = true ↔ d.Alike e := by
  simp [repeats, Alike, and_assoc]

/-- What is done to a queue. -/
inductive QueueStep where
  | add (d : Diagnostic)
  | flush

/-- What has been done to a queue, with the answer that it gave. -/
inductive QueueEvent where
  | offered (d : Diagnostic) (accepted : Bool)
  | flushed (handedOut : List Diagnostic)

namespace QueueEvent

def isOffer : QueueEvent → Bool
  | .offered _ _ => true
  | .flushed _ => false

/-- The diagnostic that was offered and accepted. -/
def accepted? : QueueEvent → Option Diagnostic
  | .offered d true => some d
  | _ => none

/-- The diagnostics accepted after the last flush of a history. -/
def acceptedSinceFlush (history : List QueueEvent) : List Diagnostic :=
  (history.rtakeWhile isOffer).filterMap accepted?

/-- An offer counts as accepted since the last flush if the queue took it. -/
theorem acceptedSinceFlush_offered (history : List QueueEvent) (d : Diagnostic) (accepted : Bool) :
    acceptedSinceFlush (history ++ [.offered d accepted])
      = acceptedSinceFlush history ++ if accepted then [d] else [] := by
  have hoffer : (QueueEvent.offered d accepted).isOffer = true := rfl
  rw [acceptedSinceFlush, List.rtakeWhile_concat, if_pos hoffer, List.filterMap_append]
  cases accepted <;> rfl

/-- Nothing has been accepted since a flush that has just been made. -/
theorem acceptedSinceFlush_flushed (history : List QueueEvent) (handedOut : List Diagnostic) :
    acceptedSinceFlush (history ++ [.flushed handedOut]) = [] := by
  have hflush : (QueueEvent.flushed handedOut).isOffer ≠ true := Bool.false_ne_true
  rw [acceptedSinceFlush, List.rtakeWhile_concat, if_neg hflush, List.filterMap_nil]

end QueueEvent

open QueueEvent (acceptedSinceFlush acceptedSinceFlush_offered acceptedSinceFlush_flushed)

namespace DiagnosticQueue

/-! ## Steps and runs -/

/-- The answer to a step, and the queue after it. -/
def perform (q : DiagnosticQueue) : QueueStep → QueueEvent × DiagnosticQueue
  | .add d => (.offered d (q.add d).1, (q.add d).2)
  | .flush => (.flushed q.flush.1, q.flush.2)

/-- The history that steps make, the earliest first, and the queue after it. -/
def run (q : DiagnosticQueue) : List QueueStep → List QueueEvent × DiagnosticQueue
  | [] => ([], q)
  | step :: steps =>
    let (event, next) := q.perform step
    let (history, last) := next.run steps
    (event :: history, last)

/-- The last step is performed on the queue that the others leave behind. -/
theorem run_concat (q : DiagnosticQueue) (steps : List QueueStep) (step : QueueStep) :
    q.run (steps ++ [step])
      = ((q.run steps).1 ++ [((q.run steps).2.perform step).1],
          ((q.run steps).2.perform step).2) := by
  induction steps generalizing q with
  | nil => rfl
  | cons first steps ih => simp only [List.cons_append, run, ih]

/-! ## What a queue refuses -/

/-- The limit is reached if there is one and as many errors are counted. -/
theorem limitReached_iff {q : DiagnosticQueue} :
    q.limitReached = true ↔ q.policy.errorLimit ≠ 0 ∧ q.policy.errorLimit ≤ q.errorCount := by
  simp [limitReached, Nat.pos_iff_ne_zero]

/-- A diagnostic is refused if it is an error at the limit, or if one like it is held and
repetitions are refused. -/
theorem refuses_iff {q : DiagnosticQueue} {d : Diagnostic} :
    q.refuses d = true ↔
      (d.isError = true ∧ q.policy.errorLimit ≠ 0 ∧ q.policy.errorLimit ≤ q.errorCount)
        ∨ (q.policy.deduplicate = true ∧ ∃ e ∈ q.held, e.Alike d) := by
  simp only [refuses, Bool.or_eq_true, Bool.and_eq_true, limitReached_iff, List.any_eq_true,
    Diagnostic.repeats_iff]

/-- A diagnostic that is not refused is appended to what the queue holds. -/
theorem add_eq_of_accepts {q : DiagnosticQueue} {d : Diagnostic} (h : q.refuses d = false) :
    q.add d = (true, { q with
      held := q.held ++ [d]
      errorCount := if d.isError then q.errorCount + 1 else q.errorCount }) := by
  simp [add, h]

/-- The answer of a queue is whether it does not refuse. -/
theorem add_answer (q : DiagnosticQueue) (d : Diagnostic) : (q.add d).1 = !q.refuses d := by
  cases h : q.refuses d with
  | true => rw [add_of_refuses h, Bool.not_true]
  | false => rw [add_eq_of_accepts h, Bool.not_false]

/-! ## What every step keeps -/

/-- A queue under a policy is as its history tells. -/
structure Accounts (policy : QueuePolicy) (history : List QueueEvent) (q : DiagnosticQueue) :
    Prop where
  policy_eq : q.policy = policy
  errorCount_eq : q.errorCount = q.held.countP (·.isError)
  /-- A limit of zero is none. -/
  limited : policy.errorLimit ≠ 0 → q.held.countP (·.isError) ≤ policy.errorLimit
  distinct : policy.deduplicate = true → q.held.Pairwise fun d e => ¬d.Alike e
  held_eq : q.held = acceptedSinceFlush history

namespace Accounts

variable {policy : QueuePolicy} {history : List QueueEvent} {q : DiagnosticQueue}

/-- An empty queue accounts for the empty history. -/
theorem empty (policy : QueuePolicy) : Accounts policy [] (.empty policy) where
  policy_eq := rfl
  errorCount_eq := rfl
  limited _ := Nat.zero_le _
  distinct _ := .nil
  held_eq := rfl

/-- An offer that is refused leaves the accounts in order. -/
theorem refused (h : Accounts policy history q) (d : Diagnostic) :
    Accounts policy (history ++ [.offered d false]) q where
  policy_eq := h.policy_eq
  errorCount_eq := h.errorCount_eq
  limited := h.limited
  distinct := h.distinct
  held_eq := by
    rw [acceptedSinceFlush_offered, ← h.held_eq]
    exact (List.append_nil q.held).symm

/-- An offer that is accepted leaves the accounts in order. -/
theorem accepted (h : Accounts policy history q) {d : Diagnostic} (haccepts : q.refuses d = false) :
    Accounts policy (history ++ [.offered d true]) (q.add d).2 := by
  have hnew : ¬((d.isError = true ∧ q.policy.errorLimit ≠ 0 ∧ q.policy.errorLimit ≤ q.errorCount)
      ∨ (q.policy.deduplicate = true ∧ ∃ e ∈ q.held, e.Alike d)) := by
    rw [← refuses_iff, haccepts]
    exact Bool.false_ne_true
  rw [h.policy_eq] at hnew
  push Not at hnew
  obtain ⟨hbelow, hunlike⟩ := hnew
  rw [add_eq_of_accepts haccepts]
  refine ⟨h.policy_eq, ?_, fun hlimit => ?_, fun hdistinct => ?_, ?_⟩
  · by_cases hd : d.isError = true
    · simp [List.countP_append, hd, h.errorCount_eq]
    · simp [List.countP_append, hd, h.errorCount_eq]
  · have hheld := h.limited hlimit
    by_cases hd : d.isError = true
    · have hroom := hbelow hd hlimit
      rw [h.errorCount_eq] at hroom
      simp only [List.countP_append, List.countP_singleton, hd, if_true]
      omega
    · simpa [List.countP_append, hd] using hheld
  · refine List.pairwise_append.mpr ⟨h.distinct hdistinct, List.pairwise_singleton _ _, ?_⟩
    intro e he d' hd'
    rw [List.mem_singleton.mp hd']
    exact hunlike hdistinct e he
  · rw [acceptedSinceFlush_offered, ← h.held_eq, if_pos rfl]

/-- A flush leaves the accounts in order. -/
theorem flushed (h : Accounts policy history q) (handedOut : List Diagnostic) :
    Accounts policy (history ++ [.flushed handedOut]) q.flush.2 where
  policy_eq := h.policy_eq
  errorCount_eq := rfl
  limited _ := Nat.zero_le _
  distinct _ := .nil
  held_eq := (acceptedSinceFlush_flushed history handedOut).symm

/-- Every step leaves the accounts in order. -/
theorem perform (h : Accounts policy history q) (step : QueueStep) :
    Accounts policy (history ++ [(q.perform step).1]) (q.perform step).2 := by
  cases step with
  | flush => exact h.flushed _
  | add d =>
    simp only [DiagnosticQueue.perform, add_answer]
    cases hrefuses : q.refuses d with
    | true =>
      rw [add_of_refuses hrefuses]
      exact h.refused d
    | false => exact h.accepted hrefuses

/-- A run from the empty queue accounts for its history. -/
theorem run (policy : QueuePolicy) (steps : List QueueStep) :
    Accounts policy ((DiagnosticQueue.empty policy).run steps).1
      ((DiagnosticQueue.empty policy).run steps).2 := by
  induction steps using List.reverseRecOn with
  | nil => exact .empty policy
  | append_singleton steps step ih =>
    rw [run_concat]
    exact ih.perform step

end Accounts

/-- After any steps from the empty queue: the queue accounts for its history; it refuses a diagnostic
exactly if that is an error while the limit is reached, or if repetitions are refused and one like it
is held, and is not changed by what it refuses; and a flush hands out all it holds and leaves the
empty queue. -/
theorem queue_invariant (policy : QueuePolicy) (steps : List QueueStep) :
    let (history, q) := (empty policy).run steps
    Accounts policy history q
      ∧ (∀ d, (q.add d).1 = false ↔
        (d.isError = true ∧ policy.errorLimit ≠ 0
            ∧ policy.errorLimit ≤ q.held.countP (·.isError))
          ∨ (policy.deduplicate = true ∧ ∃ e ∈ q.held, e.Alike d))
      ∧ (∀ d, (q.add d).1 = false → (q.add d).2 = q)
      ∧ q.flush.1.Perm q.held ∧ q.flush.2 = empty policy := by
  have haccounts := Accounts.run policy steps
  generalize (empty policy).run steps = outcome at haccounts ⊢
  obtain ⟨history, q⟩ := outcome
  refine ⟨haccounts, fun d => ?_, fun d hd => ?_, flush_perm q, ?_⟩
  · rw [add_answer, Bool.not_eq_false', refuses_iff, haccounts.policy_eq, haccounts.errorCount_eq]
  · rw [add_answer, Bool.not_eq_false'] at hd
    rw [add_of_refuses hd]
  · rw [flush, empty, haccounts.policy_eq]

end DiagnosticQueue

end ModelicaFold
