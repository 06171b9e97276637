import PathLock.Time.Span
import PathLock.Time.Calendar
/-!
# Instants

A point in UTC to the nanosecond, in the years that the calendar supports.

* `Instant`: seconds since 1970-01-01T00:00:00Z and nanoseconds. A count of nanoseconds of a whole
  second or more lies in the leap second that follows.
* `Instant.add?`: the instant a number of nanoseconds away, if it is in range.
* `Instant.last`: the latest instant that is not in a leap second.
-/

namespace PathLock

/-- The number of seconds in a day without a leap second. -/
def secondsPerDay : Nat := 86400

/-- A point in time. The order is that of the clock: a leap second comes between the second it
follows and the next one. -/
@[ext] structure Instant where
  second : Int
  nano : Nat
  second_ge : (Calendar.Date.mk Calendar.firstYear 1 1).dayNumber * secondsPerDay ≤ second
  second_lt : second < (Calendar.Date.mk (Calendar.lastYear + 1) 1 1).dayNumber * secondsPerDay
  nano_lt : nano < 2 * nanosPerSecond
deriving DecidableEq, Repr

namespace Instant

/-- The instant with the given parts, if they are in range. -/
def ofParts? (second : Int) (nano : Nat) : Option Instant :=
  if h : (Calendar.Date.mk Calendar.firstYear 1 1).dayNumber * secondsPerDay ≤ second ∧
      second < (Calendar.Date.mk (Calendar.lastYear + 1) 1 1).dayNumber * secondsPerDay ∧
      nano < 2 * nanosPerSecond then
    some ⟨second, nano, h.1, h.2.1, h.2.2⟩
  else none

/-- The start of 1970, from which seconds are counted. -/
def epoch : Instant := ⟨0, 0, by decide, by decide, by decide⟩

/-- The latest instant outside of leap seconds. -/
def last : Instant := ⟨8210266876799, 999999999, by decide, by decide, by decide⟩

/-- Seconds come first, nanoseconds decide within a second. -/
instance : LE Instant where
  le a b := a.second < b.second ∨ a.second = b.second ∧ a.nano ≤ b.nano

instance : LT Instant where
  lt a b := a.second < b.second ∨ a.second = b.second ∧ a.nano < b.nano

instance (a b : Instant) : Decidable (a ≤ b) :=
  inferInstanceAs (Decidable (a.second < b.second ∨ a.second = b.second ∧ a.nano ≤ b.nano))

instance (a b : Instant) : Decidable (a < b) :=
  inferInstanceAs (Decidable (a.second < b.second ∨ a.second = b.second ∧ a.nano < b.nano))

theorem le_def {a b : Instant} :
    a ≤ b ↔ a.second < b.second ∨ a.second = b.second ∧ a.nano ≤ b.nano := Iff.rfl

theorem lt_def {a b : Instant} :
    a < b ↔ a.second < b.second ∨ a.second = b.second ∧ a.nano < b.nano := Iff.rfl

/-- Whether the instant lies in a leap second. -/
def inLeapSecond (t : Instant) : Bool := nanosPerSecond ≤ t.nano

/-- The instant `nanos` nanoseconds after `t`, or before it if `nanos` is negative; none if that is
out of range. A step that stays within a leap second moves inside it. A step forward that leaves a
leap second does not count that second. -/
def add? (t : Instant) (nanos : Int) : Option Instant :=
  let total := t.nano + nanos
  if t.inLeapSecond ∧ nanosPerSecond ≤ total ∧ total < 2 * nanosPerSecond then
    ofParts? t.second total.toNat
  else
    let total := if t.inLeapSecond ∧ 0 < nanos then total - nanosPerSecond else total
    ofParts? (t.second + total / nanosPerSecond) (total % nanosPerSecond).toNat

end Instant

end PathLock
