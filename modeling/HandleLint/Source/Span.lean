/-!
# Spans

A span is a range of byte offsets in a source text. Spans are ordered by where they start, then by
where they stop.
-/

namespace HandleLint

structure Span where
  start : UInt64 := 0
  stop : UInt64 := 0
  deriving DecidableEq, Repr, Inhabited

namespace Span

def isEmpty (s : Span) : Bool :=
  s.stop ≤ s.start

/-- The smallest span that covers both. -/
def union (s t : Span) : Span :=
  ⟨min s.start t.start, max s.stop t.stop⟩

instance : Ord Span where
  compare s t := (compare s.start t.start).then (compare s.stop t.stop)

/-- No later start, and with the same start no later stop. -/
def le (s t : Span) : Bool :=
  (compare s t).isLE

end Span

end HandleLint
