/-!
# Numerals

Natural numbers written in ASCII digits: decimal numerals, numerals in another radix, and decimal
text padded with zeros.
-/

namespace PathLock.Text

/-- The value of a nonempty run of ASCII decimal digits. -/
def readDecimal? (digits : List Char) : Option Nat :=
  if digits ≠ [] ∧ digits.all Char.isDigit = true then some (Nat.ofDigitChars 10 digits 0) else none

/-- The value of an ASCII digit or letter, in either case, as a digit: `a` is ten. -/
def digitValue? (c : Char) : Option Nat :=
  if c.isDigit then some (c.toNat - '0'.toNat)
  else if 'a' ≤ c ∧ c ≤ 'z' then some (c.toNat - 'a'.toNat + 10)
  else if 'A' ≤ c ∧ c ≤ 'Z' then some (c.toNat - 'A'.toNat + 10)
  else none

/-- Appends one digit to a value in the given radix. -/
def pushDigit? (radix value : Nat) (c : Char) : Option Nat :=
  match digitValue? c with
  | some d => if d < radix then some (radix * value + d) else none
  | none => none

/-- The value of a nonempty run of digits in the given radix. -/
def readRadix? (radix : Nat) (digits : List Char) : Option Nat :=
  if digits = [] then none else digits.foldlM (pushDigit? radix) 0

/-- The decimal numeral of `n` with at least `width` digits. -/
def zeroPadded (width n : Nat) : String :=
  let digits := (Nat.repr n).toList
  String.ofList (List.replicate (width - digits.length) '0' ++ digits)

end PathLock.Text
