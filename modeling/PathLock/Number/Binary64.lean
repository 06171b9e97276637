/-!
# Binary floating-point numbers

Numbers of 53 binary digits with exponents as in the 64-bit format, as exact values.

* `Binary64.ofRatio`: the number nearest to a quotient, ties to the even one.
* `Binary64.ofDecimal`: the number nearest to a decimal.
* `Binary64.timesNat`: the product with a natural number, rounded.
* `Binary64.round?`: the nearest integer, ties away from zero.
-/

namespace PathLock

/-- A floating-point number. A finite one is `digits * 2 ^ exponent` with a sign. -/
inductive Binary64
  | nan
  | infinite (negative : Bool)
  | finite (negative : Bool) (digits : Nat) (exponent : Int)
deriving DecidableEq, Repr

namespace Binary64

/-- The least exponent. Numbers with it may have fewer than 53 digits. -/
def minExponent : Int := -1074

/-- The greatest exponent. -/
def maxExponent : Int := 971

/-- Zero. -/
def zero : Binary64 := finite false 0 minExponent

/-- The nearest natural number to a quotient, the even one of two. -/
def divideToEven (num den : Nat) : Nat :=
  let q := num / den
  let r := num % den
  if 2 * r < den then q
  else if den < 2 * r then q + 1
  else q + q % 2

/-- The numerator and the denominator of `num / den * 2 ^ -exponent`. -/
def scale (num den : Nat) (exponent : Int) : Nat × Nat :=
  if 0 ≤ exponent then (num, den * Nat.pow 2 exponent.toNat)
  else (num * Nat.pow 2 (-exponent).toNat, den)

/-- Whether a quotient has more than 53 binary digits before the point. -/
def isWide (num den : Nat) : Bool := Nat.pow 2 53 * den ≤ num

/-- The exponent at which a quotient has 53 binary digits before the point, or the least exponent. -/
def exponentOf (num den : Nat) : Int :=
  let guess := (Nat.log2 num : Int) - Nat.log2 den - 53
  let (n, d) := scale num den guess
  max minExponent (if isWide n d then guess + 1 else guess)

/-- The number nearest to `num / den`, ties to the even one. -/
def ofRatio (negative : Bool) (num den : Nat) : Binary64 :=
  if num = 0 then finite negative 0 minExponent
  else
    let exponent := exponentOf num den
    let (n, d) := scale num den exponent
    let digits := divideToEven n d
    let (digits, exponent) :=
      if digits = Nat.pow 2 53 then (Nat.pow 2 52, exponent + 1) else (digits, exponent)
    if maxExponent < exponent then infinite negative else finite negative digits exponent

/-- The number nearest to `digits * 10 ^ exponent`. Decimals far out of range are decided by their
size, without computing them. -/
def ofDecimal (negative : Bool) (digits : Nat) (exponent : Int) : Binary64 :=
  let size := (Nat.repr digits).length + exponent
  if digits = 0 then finite negative 0 minExponent
  else if 400 < size then infinite negative
  else if size < -400 then finite negative 0 minExponent
  else if 0 ≤ exponent then ofRatio negative (digits * Nat.pow 10 exponent.toNat) 1
  else ofRatio negative digits (Nat.pow 10 (-exponent).toNat)

/-- Whether the number is neither infinite nor not a number. -/
def isFinite : Binary64 → Bool
  | finite _ _ _ => true
  | _ => false

/-- Whether the number is less than zero. Negative zero is not. -/
def isNegative : Binary64 → Bool
  | nan => false
  | infinite negative => negative
  | finite negative digits _ => negative && digits != 0

/-- The product with a natural number, rounded. -/
def timesNat (x : Binary64) (k : Nat) : Binary64 :=
  match x with
  | finite negative digits exponent =>
    if 0 ≤ exponent then ofRatio negative (digits * k * Nat.pow 2 exponent.toNat) 1
    else ofRatio negative (digits * k) (Nat.pow 2 (-exponent).toNat)
  | x => x

/-- The size of a finite number rounded to a natural number, ties up. -/
def roundedSize (digits : Nat) (exponent : Int) : Nat :=
  if 0 ≤ exponent then digits * Nat.pow 2 exponent.toNat
  else (2 * digits + Nat.pow 2 (-exponent).toNat) / (2 * Nat.pow 2 (-exponent).toNat)

/-- The nearest integer, ties away from zero; none for numbers that are not finite. -/
def round? : Binary64 → Option Int
  | finite negative digits exponent =>
    let size := roundedSize digits exponent
    some (if negative then -size else size)
  | _ => none

end Binary64

end PathLock
