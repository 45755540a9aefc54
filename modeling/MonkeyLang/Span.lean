/-!
# Source positions

A span says where a piece of source text starts and how many bytes it takes up. Lines and columns count from one and
columns count bytes, so that a column plus a length is again a column. The built-in functions, which no source
declares, carry the span with zeros throughout.

Positions are held in 32 bits by everything that reads them later. `Span.cover` computes with numbers of any size and
`Span.coverFits` says when its sums stay below the limit; `Span.cover?` refuses the rest. A `SpanLog` keeps what positions
have been computed from, so that it can be told later whether all of them fit.
-/

namespace MonkeyLang

/-- Where a piece of source text starts, and its length in bytes. -/
structure Span where
  line : Nat
  column : Nat
  length : Nat
deriving DecidableEq, Repr, Inhabited

namespace Span

/-- The first number that does not fit a 32-bit position. -/
def limit : Nat := 4294967296

/-- The empty span at a position. -/
def point (line column : Nat) : Span := ⟨line, column, 0⟩

def isEmpty (s : Span) : Bool := s.length == 0

/-- The column right behind a span that stays on one line. -/
def stop (s : Span) : Nat := s.column + s.length

/-- The span from the start of `a` to the end of `b`. Across lines only the start is exact, and the lengths add up. -/
def cover (a b : Span) : Span :=
  if a.line = b.line then
    let start := min a.column b.column
    ⟨a.line, start, max a.stop b.stop - start⟩
  else
    ⟨a.line, a.column, a.length + b.length⟩

/-- Whether every sum that `cover` forms stays below the 32-bit limit. -/
def coverFits (a b : Span) : Bool :=
  if a.line = b.line then
    decide (a.stop < limit) && decide (b.stop < limit)
  else
    decide (a.length + b.length < limit)

/-- The covering span, if its sums fit 32 bits. -/
def cover? (a b : Span) : Option Span :=
  if a.coverFits b then some (a.cover b) else none

def text (s : Span) : String := s!"{s.line}:{s.column}"

end Span

/-- The computations of positions in a source. -/
structure SpanLog where
  /-- How many bytes the source has. -/
  size : Nat
  /-- The pairs of spans that have been covered, the last one first. -/
  pairs : List (Span × Span)

namespace SpanLog

/-- Puts down that two spans have been covered. -/
def cover (log : SpanLog) (a b : Span) : SpanLog := { log with pairs := (a, b) :: log.pairs }

/-- Whether all positions that have been computed stay below the 32-bit limit. -/
def fits (log : SpanLog) : Bool :=
  decide (log.size + 1 < Span.limit) && log.pairs.all fun pair => pair.1.coverFits pair.2

end SpanLog

end MonkeyLang
