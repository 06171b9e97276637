import PathLock.Number.Shortest
/-!
# What plain scalars mean

A plain scalar is null, a truth value, an integer or a number by its spelling, and text otherwise.

* `Plain.isNull`, `Plain.bool?`, `Plain.natural?`, `Plain.negative?`, `Plain.number?`.
* `Plain.meaning`: which of them a scalar is.
-/

namespace PathLock.Yaml.Plain

/-- The spellings of null, besides empty text. -/
def isNull (text : List Char) : Bool :=
  text ∈ ["~".toList, "null".toList, "Null".toList, "NULL".toList]

/-- The truth value that a text spells. -/
def bool? (text : List Char) : Option Bool :=
  if text ∈ ["true".toList, "True".toList, "TRUE".toList] then some true
  else if text ∈ ["false".toList, "False".toList, "FALSE".toList] then some false
  else none

/-- Text without a `+` in front. -/
def dropPlus : List Char → List Char
  | '+' :: text => text
  | text => text

/-- Text without a sign in front. -/
def dropSign : List Char → List Char
  | '+' :: text => text
  | '-' :: text => text
  | text => text

/-- Whether a text is digits of which the first of several is a zero. Such a text is no number. -/
def hasLeadingZero (text : List Char) : Bool :=
  match dropSign text with
  | '0' :: c :: rest => (c :: rest).all Char.isDigit
  | _ => false

/-- Digits in the radix that a mark such as `0x` in front of them tells. -/
def marked? : List Char → Option Nat
  | '0' :: 'x' :: digits => Text.readRadix? 16 digits
  | '0' :: 'o' :: digits => Text.readRadix? 8 digits
  | '0' :: 'b' :: digits => Text.readRadix? 2 digits
  | _ => none

/-- The natural number that a text spells: decimal, or marked as hexadecimal, octal or binary, with a
`+` in front or not. -/
def natural? (text : List Char) : Option Nat :=
  match marked? (dropPlus text) with
  | some n => some n
  | none => if hasLeadingZero text then none else Text.readDecimal? (dropPlus text)

/-- The size of the negative number that a text spells. -/
def negative? : List Char → Option Nat
  | '-' :: text =>
    match marked? text with
    | some n => some n
    | none => if hasLeadingZero text then none else Text.readDecimal? text
  | _ => none

/-- The number that a text spells: a decimal, infinity or no number. -/
def number? (text : List Char) : Option Binary64 :=
  if dropPlus text ∈ [".inf".toList, ".Inf".toList, ".INF".toList] then some (.infinite false)
  else if text ∈ ["-.inf".toList, "-.Inf".toList, "-.INF".toList] then some (.infinite true)
  else if text ∈ [".nan".toList, ".NaN".toList, ".NAN".toList] then some .nan
  else (Binary64.ofText? text).filter Binary64.isFinite

/-- What a plain scalar is. -/
inductive Meaning
  | null
  | bool (b : Bool)
  /-- An integer from 0 that 64 bits hold. -/
  | natural (n : Nat)
  /-- An integer that 64 bits do not hold, but 128 bits do. -/
  | wide
  /-- Any other number. -/
  | number
  | text
deriving DecidableEq, Repr

/-- The integer that a text spells, by the bits that hold it; none if not even 128 do. -/
def integer? (text : List Char) : Option Meaning :=
  match natural? text, negative? text with
  | some n, _ =>
    if n < Nat.pow 2 64 then some (.natural n)
    else if n < Nat.pow 2 128 then some .wide
    else none
  | none, some n =>
    if n ≤ Nat.pow 2 63 then some .number
    else if n ≤ Nat.pow 2 127 then some .wide
    else none
  | none, none => none

/-- Which of them a text is as a plain scalar. -/
def meaning (text : List Char) : Meaning :=
  if text = [] ∨ isNull text then .null
  else
    match bool? text, integer? text with
    | some b, _ => .bool b
    | none, some m => m
    | none, none => if !hasLeadingZero text ∧ (number? text).isSome then .number else .text

end PathLock.Yaml.Plain
