/-!
# Spans of the source

Every token, expression and error points at the half-open byte range `[start, stop)` of the UTF-8
source it came from. Offsets count bytes; lines and columns, which count characters, are derived
from them when something is shown.
-/

namespace Pseudocode

/-- The bytes from `start` up to, but not including, `stop`. -/
structure Span where
  start : Nat
  stop : Nat
deriving DecidableEq

namespace Span

/-- The empty span at `offset`. -/
def point (offset : Nat) : Span := ⟨offset, offset⟩

/-- The least span that covers both. -/
def merge (a b : Span) : Span := ⟨min a.start b.start, max a.stop b.stop⟩

/-- Number of bytes covered. -/
def length (s : Span) : Nat := s.stop - s.start

/-- Does the span cover no byte? -/
def isEmpty (s : Span) : Bool := s.start == s.stop

/-- A span as it is written in messages and dumps, such as `3..7`. -/
def render (s : Span) : String := toString s.start ++ ".." ++ toString s.stop

end Span

end Pseudocode
