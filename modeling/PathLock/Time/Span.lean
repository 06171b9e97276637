/-!
# Spans of time

A signed span of time in whole nanoseconds, at most `2 ^ 63 - 1` milliseconds long in either
direction.
-/

namespace PathLock

/-- The number of nanoseconds in a second. -/
def nanosPerSecond : Nat := 1000000000

/-- The number of nanoseconds in a millisecond. -/
def nanosPerMilli : Nat := 1000000

/-- The length of the longest span, in nanoseconds. -/
def Span.limit : Int := ((Nat.pow 2 63 - 1) * nanosPerMilli : Nat)

/-- A signed span of time. -/
structure Span where
  nanos : Int
  neg_limit_le : -Span.limit ≤ nanos
  le_limit : nanos ≤ Span.limit
deriving DecidableEq, Repr

namespace Span

/-- The span of the given number of nanoseconds, unless it is too long. -/
def ofNanos? (nanos : Int) : Option Span :=
  if h : -limit ≤ nanos ∧ nanos ≤ limit then some ⟨nanos, h.1, h.2⟩ else none

/-- The span of `seconds` and a fraction of a second, which is always added; none if the fraction is
a second or more or the span is too long. -/
def ofParts? (seconds : Int) (fraction : Nat) : Option Span :=
  if fraction < nanosPerSecond then ofNanos? (seconds * nanosPerSecond + fraction) else none

/-- The span of the given number of milliseconds, unless it is too long. -/
def ofMillis? (millis : Int) : Option Span := ofNanos? (millis * nanosPerMilli)

/-- The whole seconds of a span, rounded toward zero. -/
def wholeSeconds (d : Span) : Int := d.nanos.tdiv nanosPerSecond

end Span

end PathLock
