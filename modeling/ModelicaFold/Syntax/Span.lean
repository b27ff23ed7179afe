/-!
# Source spans

A span is a pair of byte offsets, the end exclusive. Failures are reported at the span of the
reporting request.
-/

namespace ModelicaFold

/-- A range of source offsets, `stop` exclusive. -/
structure Span where
  start : Nat
  stop : Nat
deriving DecidableEq

namespace Span

/-- The number of bytes covered; none if the span ends before it starts. -/
def length (s : Span) : Nat := s.stop - s.start

def isEmpty (s : Span) : Bool := s.stop ≤ s.start

/-- The smallest span that covers both. -/
def merge (a b : Span) : Span := ⟨min a.start b.start, max a.stop b.stop⟩

def text (s : Span) : String := toString s.start ++ ".." ++ toString s.stop

/-- The span over two spans does not depend on their order. -/
theorem merge_comm (a b : Span) : a.merge b = b.merge a := by
  simp [merge, Nat.min_comm, Nat.max_comm]

end Span

end ModelicaFold
