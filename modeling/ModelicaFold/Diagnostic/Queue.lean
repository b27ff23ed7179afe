import ModelicaFold.Diagnostic.Basic

/-!
# The diagnostic queue

A failing subexpression can be reached from several places. The queue refuses a diagnostic that
repeats one it holds, and errors beyond a limit; it hands out what it holds in order of position.
-/

namespace ModelicaFold

/-- What a queue refuses: errors beyond `errorLimit` (none if it is zero), and repeats if
`deduplicate` is set. -/
structure QueuePolicy where
  errorLimit : Nat
  deduplicate : Bool
deriving DecidableEq

namespace QueuePolicy

/-- Ten errors at most, without repeats. -/
def standard : QueuePolicy := ⟨10, true⟩

/-- Everything is accepted. -/
def unlimited : QueuePolicy := ⟨0, false⟩

end QueuePolicy

/-- Diagnostics in order of insertion, with the number of errors among them. -/
structure DiagnosticQueue where
  policy : QueuePolicy
  held : List Diagnostic
  errorCount : Nat
deriving DecidableEq

namespace DiagnosticQueue

def empty (policy : QueuePolicy) : DiagnosticQueue := ⟨policy, [], 0⟩

/-- Whether no further error is accepted. -/
def limitReached (q : DiagnosticQueue) : Bool :=
  0 < q.policy.errorLimit && q.policy.errorLimit ≤ q.errorCount

/-- Whether a diagnostic would be refused. -/
def refuses (q : DiagnosticQueue) (d : Diagnostic) : Bool :=
  (d.isError && q.limitReached) || (q.policy.deduplicate && q.held.any (·.repeats d))

/-- Adds a diagnostic unless it is refused; the answer says whether it was added. -/
def add (q : DiagnosticQueue) (d : Diagnostic) : Bool × DiagnosticQueue :=
  if q.refuses d then (false, q)
  else
    (true, { q with
      held := q.held ++ [d]
      errorCount := if d.isError then q.errorCount + 1 else q.errorCount })

def size (q : DiagnosticQueue) : Nat := q.held.length

def isEmpty (q : DiagnosticQueue) : Bool := q.held.isEmpty

def hasErrors (q : DiagnosticQueue) : Bool := 0 < q.errorCount

/-- The diagnostics held, sorted by position and in order of insertion at equal positions, and the
queue emptied of them. -/
def flush (q : DiagnosticQueue) : List Diagnostic × DiagnosticQueue :=
  (q.held.mergeSort fun d e => d.position ≤ e.position, { q with held := [], errorCount := 0 })

/-- A queue that refuses a diagnostic is left as it is. -/
theorem add_of_refuses {q : DiagnosticQueue} {d : Diagnostic} (h : q.refuses d = true) :
    q.add d = (false, q) := by
  simp [add, h]

/-- A flush hands out just what the queue holds. -/
theorem flush_perm (q : DiagnosticQueue) : q.flush.1.Perm q.held :=
  List.mergeSort_perm _ _

end DiagnosticQueue

end ModelicaFold
