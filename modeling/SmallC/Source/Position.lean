/-!
# Positions in source text

A position names a registered buffer by its number, a line counted from zero and a span of bytes.
-/
namespace SmallC

/-- A range of bytes; `stop` is just past the last one. -/
structure Span where
  start : Nat
  stop : Nat
  deriving DecidableEq

namespace Span

def length (s : Span) : Nat :=
  s.stop - s.start

def isEmpty (s : Span) : Bool :=
  s.start == s.stop

end Span

structure Position where
  buffer : Nat
  line : Nat
  span : Span
  deriving DecidableEq

end SmallC
