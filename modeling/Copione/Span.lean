/-!
# Spans

Where a piece of text stands: UTF-8 byte offset and length, and the line it begins on.
-/
namespace Copione

structure Span where
  offset : Nat
  len : Nat
  line : Nat
  deriving DecidableEq, Repr

namespace Span

/-- Where the text after the span begins. -/
def stop (s : Span) : Nat := s.offset + s.len

/-- From the beginning of `s` to the end of `last`, on the line of `s`. -/
def through (s last : Span) : Span :=
  { s with len := max last.stop s.offset - s.offset }

end Span
end Copione
