import SqlInlay.Text

/-!
# Byte ranges of a buffer

A buffer is known by a number that its owner chose, and a `Span` is a half-open range of bytes
`[start, stop)` in one buffer.
-/

namespace SqlInlay

/-- A half-open byte range of one buffer. -/
structure Span where
  buffer : Nat
  start : Nat
  stop : Nat
deriving DecidableEq, Repr

namespace Span

/-- The number of bytes covered. -/
def length (s : Span) : Nat := s.stop - s.start

/-- The span covers no byte. -/
def isEmpty (s : Span) : Bool := s.start == s.stop

/-- Each span starts before the other ends; an empty span strictly inside another overlaps it. -/
def overlaps (s t : Span) : Bool := s.buffer == t.buffer && s.start < t.stop && t.start < s.stop

/-- The second span lies within the first; an end of the first may hold an empty one. -/
def contains (s t : Span) : Bool := s.buffer == t.buffer && s.start ≤ t.start && t.stop ≤ s.stop

/-- The range as messages show it. -/
def display (s : Span) : String := toString s.start ++ ".." ++ toString s.stop

/-- The characters of a buffer that a span covers. -/
def of (s : Span) (buffer : Text) : Text := buffer.slice s.start s.stop

theorem overlaps_comm (s t : Span) : s.overlaps t = t.overlaps s := by
  simp only [overlaps, Bool.and_assoc, Bool.and_comm (decide (s.start < t.stop))]
  rw [BEq.comm (a := s.buffer)]

end Span

end SqlInlay
