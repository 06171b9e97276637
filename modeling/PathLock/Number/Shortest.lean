import PathLock.Number.Binary64
import PathLock.Text.Numeral
/-!
# Shortest decimals

* `Binary64.shortest`: the fewest decimal digits that read back as a number, and of those the nearest
  to it.
* `Binary64.text`: these digits in plain notation, without an exponent.
* `Binary64.ofText?`: reads a decimal with an optional fraction and exponent.
-/

namespace PathLock.Binary64

/-! ## Digits -/

/-- The bounds of the real numbers that round to `digits * 2 ^ exponent`, in quarters of the last
binary digit. Below a power of two the neighbour is only half as far. -/
def quarterBounds (digits : Nat) (exponent : Int) : Nat × Nat :=
  (4 * digits - (if digits = Nat.pow 2 52 ∧ minExponent < exponent then 1 else 2), 4 * digits + 2)

/-- Whether `candidate * 10 ^ place` rounds to `digits * 2 ^ exponent`. The bounds count if `digits` is
even. -/
def readsBack (digits : Nat) (exponent : Int) (candidate : Nat) (place : Int) : Bool :=
  let (low, high) := quarterBounds digits exponent
  -- all three over the common denominator 4 * 2 ^ b * 10 ^ p
  let p := (-place).toNat
  let q := place.toNat
  let b := (-exponent).toNat
  let a := exponent.toNat
  let middle := 4 * candidate * Nat.pow 10 q * Nat.pow 2 b
  let low := low * Nat.pow 2 a * Nat.pow 10 p
  let high := high * Nat.pow 2 a * Nat.pow 10 p
  if digits % 2 = 0 then low ≤ middle && middle ≤ high else low < middle && middle < high

/-- The number of decimal digits before the point of a quotient, less the zeros right behind the
point if there are none. -/
def decimalSize (num den : Nat) : Int :=
  if den ≤ num then (Nat.repr (num / den)).length
  else
    let guess := (Nat.repr den).length - (Nat.repr num).length
    if den ≤ num * Nat.pow 10 guess then 1 - (guess : Int) else -(guess : Int)

/-- The decimal of `count` digits nearest to a number among those that read back, with the place of
its last digit. Of two that are equally near it is the greater. -/
def ofDigitCount? (digits : Nat) (exponent : Int) (count : Nat) : Option (Nat × Int) :=
  let (num, den) := scale digits 1 (-exponent)
  let place := decimalSize num den - count
  let (n, d) :=
    if 0 ≤ place then (num, den * Nat.pow 10 place.toNat)
    else (num * Nat.pow 10 (-place).toNat, den)
  let below := n / d
  let nearer := if 2 * (n % d) < d then [below, below + 1] else [below + 1, below]
  (nearer.find? fun c => readsBack digits exponent c place).map fun c => (c, place)

/-- The fewest digits that read back, as a natural number and the place of its last digit. Seventeen
digits always do. -/
def shortest (digits : Nat) (exponent : Int) : Nat × Int :=
  if digits = 0 then (0, 0)
  else (((List.range 17).findSome? fun i => ofDigitCount? digits exponent (i + 1)).getD (digits, 0))

/-! ## Texts -/

/-- `digits * 10 ^ place` in plain notation. -/
def plainText (digits : Nat) (place : Int) : String :=
  if 0 ≤ place then (digits * Nat.pow 10 place.toNat).repr
  else
    let places := (-place).toNat
    if digits % Nat.pow 10 places = 0 then (digits / Nat.pow 10 places).repr
    else
      (digits / Nat.pow 10 places).repr ++ "." ++
        String.ofList ((Text.zeroPadded places (digits % Nat.pow 10 places)).toList.reverse.dropWhile
          (· == '0')).reverse

/-- The text of a number. -/
def text : Binary64 → String
  | nan => "NaN"
  | infinite negative => if negative then "-inf" else "inf"
  | finite negative digits exponent =>
    let (d, place) := shortest digits exponent
    (if negative then "-" else "") ++ plainText d place

/-- Reads a nonempty run of digits with a sign before it, if there is one. -/
def exponentOfText? : List Char → Option Int
  | '-' :: digits => (Text.readDecimal? digits).map fun n => -(n : Int)
  | '+' :: digits => (Text.readDecimal? digits).map fun n => (n : Int)
  | digits => (Text.readDecimal? digits).map fun n => (n : Int)

/-- Reads a decimal without a sign: digits with a point among, before or behind them, and an optional
exponent. -/
def ofUnsigned? (negative : Bool) (text : List Char) : Option Binary64 :=
  let whole := text.takeWhile Char.isDigit
  let rest := text.dropWhile Char.isDigit
  let (fraction, rest) := match rest with
    | '.' :: more => (more.takeWhile Char.isDigit, more.dropWhile Char.isDigit)
    | rest => ([], rest)
  let value (exponent : Int) :=
    ofDecimal negative (Nat.ofDigitChars 10 (whole ++ fraction) 0) (exponent - fraction.length)
  if whole = [] ∧ fraction = [] then none
  else
    match rest with
    | [] => some (value 0)
    | c :: rest => if c = 'e' ∨ c = 'E' then (exponentOfText? rest).map value else none

/-- Reads a decimal with an optional sign. -/
def ofText? : List Char → Option Binary64
  | '-' :: text => ofUnsigned? true text
  | '+' :: text => ofUnsigned? false text
  | text => ofUnsigned? false text

end PathLock.Binary64
