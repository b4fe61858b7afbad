/-!
# Spans

Positions in a source text are byte offsets into its UTF-8 encoding. A span is the half-open
range of offsets that a token or a list occupies.
-/

namespace LazyLisp

/-- The bytes from `start` up to, and without, `stop`. -/
structure Span where
  start : Nat
  stop : Nat
  deriving DecidableEq, Repr, Inhabited

namespace Span

/-- From the start of the first span to the end of the second. -/
def join (a b : Span) : Span := ⟨a.start, b.stop⟩

/-- Written `start..stop`. -/
def text (s : Span) : String := s.start.repr ++ ".." ++ s.stop.repr

end Span

end LazyLisp
