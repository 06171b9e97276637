import PathLock.Error
import PathLock.Text.Blank
import PathLock.Text.Numeral
import PathLock.Time.Instant
/-!
# Timeouts

How long a lock lives, and the `Timeout` request header that says so: `Infinite` or `Second-` and a
decimal number, with alternatives after commas of which only the first counts. An empty header means
infinite.

* `Timeout.parse`, `Timeout.header`: reading and writing headers.
* `Timeout.normalize`: the header that is written for what a header stands for.
* `Timeout.ofSpan`: the timeout for a signed span of time.
* `Timeout.expiry`: when a lock started now expires.
-/

namespace PathLock

/-- The life time of a lock: without end, or a number of seconds. -/
inductive Timeout
  | infinite
  | seconds (n : UInt32)
deriving DecidableEq, Repr

namespace Timeout

/-! ## Headers -/

/-- What comes before the number of seconds in a header. -/
def secondsMark : List Char := ['S', 'e', 'c', 'o', 'n', 'd', '-']

/-- The word for a timeout without end. -/
def infiniteWord : List Char := ['I', 'n', 'f', 'i', 'n', 'i', 't', 'e']

/-- The timeout written by one alternative of a header, without blanks around it. -/
def ofAlternative? (text : List Char) : Option Timeout :=
  if text = infiniteWord then some infinite
  else if secondsMark.isPrefixOf text then
    match Text.readDecimal? (text.drop secondsMark.length) with
    | some n => if n < UInt32.size then some (seconds (UInt32.ofNat n)) else none
    | none => none
  else none

/-- The timeout written by the characters of a header. -/
def ofHeaderChars? (header : List Char) : Option Timeout :=
  if header = [] then some infinite
  else ofAlternative? (Text.trim (header.takeWhile (· ≠ ',')))

/-- Reads a header. The error carries the whole header. -/
def parse (header : String) : Except LockError Timeout :=
  match ofHeaderChars? header.toList with
  | some timeout => .ok timeout
  | none => .error (.invalidTimeout header)

/-- The header that writes a timeout. -/
def header : Timeout → String
  | infinite => String.ofList infiniteWord
  | seconds n => String.ofList (secondsMark ++ n.toNat.repr.toList)

/-- The normal form of a header. -/
def normalize (text : String) : Except LockError String := (parse text).map header

/-- Whether the timeout has no end. -/
def isInfinite : Timeout → Bool
  | infinite => true
  | seconds _ => false

/-- The number of seconds, if the timeout has an end. -/
def seconds? : Timeout → Option Nat
  | infinite => none
  | seconds n => some n.toNat

/-! ## Spans and expiry -/

/-- The timeout for a span: its whole seconds rounded toward zero, at most the largest number of
seconds, or infinite if they are negative. -/
def ofSpan (span : Span) : Timeout :=
  if span.wholeSeconds < 0 then infinite
  else if span.wholeSeconds < UInt32.size then seconds (UInt32.ofNat span.wholeSeconds.toNat)
  else seconds (UInt32.ofNat (UInt32.size - 1))

/-- When a lock with this timeout that starts at `now` expires, if it does. An expiry out of range is
moved to the last instant. -/
def expiry (timeout : Timeout) (now : Instant) : Option Instant :=
  match timeout with
  | infinite => none
  | seconds n => some ((now.add? (n.toNat * nanosPerSecond : Nat)).getD .last)

end Timeout

end PathLock
