import PathLock.Time.Instant
import PathLock.Text.Blank
import PathLock.Text.Numeral
/-!
# RFC 3339 timestamps

* `Instant.timestamp`: an instant as `YYYY-MM-DDTHH:MM:SS`, a fraction of 0, 3, 6 or 9 digits, the
  shortest that is exact, and a zone.
* `Instant.ofTimestamp?`: reads a timestamp with its offset. Reading is lenient: blanks may stand
  between the parts, a blank may stand for the `T`, parts need not be padded, and years may carry a
  sign and more than four digits.
-/

namespace PathLock

/-! ## Writing -/

namespace Instant

/-- Years outside of 0 to 9999 carry a sign. -/
def yearText (year : Int) : String :=
  if 0 ≤ year ∧ year ≤ 9999 then Text.zeroPadded 4 year.toNat
  else (if year < 0 then "-" else "+") ++ Text.zeroPadded 4 year.natAbs

/-- The fraction of a second in 0, 3, 6 or 9 digits. -/
def fractionText (nano : Nat) : String :=
  if nano = 0 then ""
  else if nano % 1000000 = 0 then "." ++ Text.zeroPadded 3 (nano / 1000000)
  else if nano % 1000 = 0 then "." ++ Text.zeroPadded 6 (nano / 1000)
  else "." ++ Text.zeroPadded 9 nano

/-- The timestamp of an instant, with the given spelling of the zone UTC. A leap second is second 60
of its minute. -/
def timestamp (zone : String) (t : Instant) : String :=
  let date := Calendar.ofDayNumber (t.second / secondsPerDay)
  let ofDay := (t.second % secondsPerDay).toNat
  let (extra, nano) := if t.inLeapSecond then (1, t.nano - nanosPerSecond) else (0, t.nano)
  yearText date.year ++ "-" ++ Text.zeroPadded 2 date.month ++ "-" ++ Text.zeroPadded 2 date.day ++
    "T" ++ Text.zeroPadded 2 (ofDay / 3600) ++ ":" ++ Text.zeroPadded 2 (ofDay / 60 % 60) ++ ":" ++
    Text.zeroPadded 2 (ofDay % 60 + extra) ++ fractionText nano ++ zone

/-- The timestamp in records, with zone `Z`. -/
def recordText (t : Instant) : String := t.timestamp "Z"

/-- The timestamp in texts for people, with zone `+00:00`. -/
def displayText (t : Instant) : String := t.timestamp "+00:00"

end Instant

/-! ## Reading -/

namespace Rfc3339

/-- Reads a number of one to `width` digits, after any blanks. -/
def number? (width : Nat) (text : List Char) : Option (Nat × List Char) :=
  let text := Text.trimLeft text
  let digits := (text.take width).takeWhile Char.isDigit
  if digits = [] then none else some (Nat.ofDigitChars 10 digits 0, text.drop digits.length)

/-- Reads a number of at least one digit that follows a sign at once. -/
def signedNumber? (text : List Char) : Option (Nat × List Char) :=
  let digits := text.takeWhile Char.isDigit
  if digits = [] then none else some (Nat.ofDigitChars 10 digits 0, text.drop digits.length)

/-- Reads a year: four digits at most, or a sign and any number of digits. -/
def year? (text : List Char) : Option (Int × List Char) :=
  match Text.trimLeft text with
  | '-' :: rest => (signedNumber? rest).map fun (n, rest) => (-(n : Int), rest)
  | '+' :: rest => (signedNumber? rest).map fun (n, rest) => ((n : Int), rest)
  | text => (number? 4 text).map fun (n, rest) => ((n : Int), rest)

/-- Reads a mark that may have blanks before it. -/
def mark? (mark : Char) (text : List Char) : Option (List Char) :=
  match Text.trimLeft text with
  | c :: rest => if c = mark then some rest else none
  | [] => none

/-- Reads an optional fraction of a second as nanoseconds. Digits after the ninth do not count. -/
def fraction? (text : List Char) : Option (Nat × List Char) :=
  match text with
  | '.' :: rest =>
    let digits := rest.takeWhile Char.isDigit
    let kept := digits.take 9
    if digits = [] then none
    else some (Nat.ofDigitChars 10 kept 0 * Nat.pow 10 (9 - kept.length), rest.drop digits.length)
  | _ => some (0, text)

/-- The sign that starts an offset; the mathematical minus sign counts as one. -/
def offsetSign? : Char → Option Int
  | '+' => some 1
  | '-' => some (-1)
  | '\u2212' => some (-1)
  | _ => none

/-- Reads exactly two digits. -/
def twoDigits? : List Char → Option (Nat × List Char)
  | a :: b :: rest =>
    if a.isDigit && b.isDigit then some (Nat.ofDigitChars 10 [a, b] 0, rest) else none
  | _ => none

/-- Reads an offset from UTC in seconds: `Z`, `UTC` in any case, or a sign, two digits of hours, any
colons and blanks, and two digits of minutes. -/
def offset? (text : List Char) : Option (Int × List Char) :=
  if (text.take 3).map Char.toUpper = ['U', 'T', 'C'] then some (0, text.drop 3)
  else match text with
  | [] => none
  | c :: rest =>
    if c = 'Z' ∨ c = 'z' then some (0, rest)
    else do
      let sign ← offsetSign? c
      let (hours, rest) ← twoDigits? rest
      let (minutes, rest) ← twoDigits? (rest.dropWhile fun c => c == ':' || Text.isBlank c)
      if minutes ≤ 59 then some (sign * (hours * 3600 + minutes * 60 : Nat), rest) else none

/-- Reads the `T` between date and time, or a space for it. -/
def separator? : List Char → Option (List Char)
  | c :: rest => if c = 'T' ∨ c = 't' ∨ c = ' ' then some rest else none
  | [] => none

end Rfc3339

open Rfc3339 in
/-- The instant that a timestamp names. The calendar must have the day that is written, and the one
that it is in UTC. The offset must be less than a day, and second 60 is the leap second after second
59. -/
def Instant.ofTimestamp? (text : String) : Option Instant := do
  let (year, rest) ← year? text.toList
  let (month, rest) ← number? 2 (← mark? '-' rest)
  let (day, rest) ← number? 2 (← mark? '-' rest)
  let (hour, rest) ← number? 2 (← separator? rest)
  let (minute, rest) ← number? 2 (← mark? ':' rest)
  let (second, rest) ← number? 2 (← mark? ':' rest)
  let (fraction, rest) ← fraction? rest
  let (offset, rest) ← offset? (Text.trimLeft rest)
  let date : Calendar.Date := ⟨year, month, day⟩
  if Text.trimLeft rest = [] ∧ date.isValid ∧ hour ≤ 23 ∧ minute ≤ 59 ∧ second ≤ 60 ∧
      offset.natAbs < secondsPerDay then
    let ofDay := hour * 3600 + minute * 60 + min second 59
    let nano := if second = 60 then nanosPerSecond + fraction else fraction
    Instant.ofParts? (date.dayNumber * secondsPerDay + ofDay - offset) nano
  else none

end PathLock
