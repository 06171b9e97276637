import PathLock.Yaml.Scalar
import PathLock.Yaml.Plain
/-!
# Writing scalars

A text is written in the plainest style in which it is read back: plain, else in single quotes, and in
double quotes if it has characters that must be escaped or blanks beside line breaks. Texts with line
feeds are written as literal blocks where that is possible.

* `Scalar.styleFor`: the style in which a text is written.
* `Scalar.writtenAt`: the text of a scalar as the value of a key at the margin, with the line break
  behind it.
-/

namespace PathLock.Yaml.Scalar

/-! ## Which style -/

/-- Whether a character can be written as it is. -/
def isPrintable (c : Char) : Bool :=
  let n := c.toNat
  n == 0x0A || (0x20 ≤ n && n ≤ 0x7E) || (0xA0 ≤ n && n ≤ 0xD7FF) ||
    (0xE000 ≤ n && n ≤ 0xFFFD && n != 0xFEFF) || 0x10000 ≤ n

/-- Whether two characters that satisfy `p` and `q` follow each other. -/
def hasPair (p q : Char → Bool) : List Char → Bool
  | a :: b :: rest => (p a && q b) || hasPair p q (b :: rest)
  | _ => false

/-- Whether a text has a colon at the end of a word. -/
def hasWordColon : List Char → Bool
  | [] => false
  | c :: rest => (c == ':' && wordEnds rest) || hasWordColon rest

/-- Whether a text starts like something other than a plain scalar. -/
def startsOddly : List Char → Bool
  | [] => false
  | c :: rest =>
    c ∈ ['#', ',', '[', ']', '\x7b', '\x7d', '&', '*', '!', '|', '>', '\'', '"', '%', '@', '\x60'] ||
      (c ∈ ['?', ':', '-'] && wordEnds rest) ||
      ['-', '-', '-'].isPrefixOf (c :: rest) || ['.', '.', '.'].isPrefixOf (c :: rest)

/-- A space or a line break. -/
def isEdge (c : Char) : Bool := c == ' ' || isBreak c

/-- Whether a text that is not empty can be written plain after a key. -/
def plainAllowed (text : List Char) : Bool :=
  text.all isPrintable && !text.any isBreak && !text.head?.any isEdge && !text.getLast?.any isEdge &&
    !startsOddly text && !hasWordColon text && !hasPair isGap (· == '#') text

/-- Whether a text can be written in single quotes. -/
def singleAllowed (text : List Char) : Bool :=
  text.all isPrintable && !hasPair isBreak (· == ' ') text && !hasPair (· == ' ') isBreak text

/-- Whether a text that is not empty can be written as a literal block. -/
def literalAllowed (text : List Char) : Bool :=
  text.all isPrintable && !hasPair (· == ' ') isBreak text && text.getLast? != some ' '

/-- Whether a text would mean something else without quotes. -/
def isAmbiguous (text : List Char) : Bool :=
  Plain.meaning text != .text || Plain.hasLeadingZero text

/-- The style in which a text is written. -/
def styleFor (text : List Char) : Style :=
  if '\n' ∈ text then (if literalAllowed text then .literal else .doubleQuoted)
  else if !isAmbiguous text ∧ plainAllowed text then .plain
  else if singleAllowed text then .singleQuoted
  else .doubleQuoted

/-! ## Written forms -/

/-- The indentation of the further lines of a scalar. -/
def margin : List Char := [' ', ' ']

/-- The inside of single quotes: quotes are doubled, and lines after the first are indented. -/
def singleInside : Bool → List Char → List Char
  | newLine, [] => if newLine then margin else []
  | newLine, c :: rest =>
    if isBreak c then c :: singleInside true rest
    else (if newLine then margin else []) ++ (if c = '\'' then [c, c] else [c]) ++
      singleInside false rest

/-- The upper case hexadecimal digit of a number below sixteen. -/
def hexDigit (n : Nat) : Char := (Nat.digitChar n).toUpper

/-- The lowest `count` hexadecimal digits of a number. -/
def hexDigits : Nat → Nat → List Char
  | 0, _ => []
  | count + 1, n => hexDigit (n / Nat.pow 16 count % 16) :: hexDigits count n

/-- The letter that escapes a character, if there is one. -/
def escapeLetter? : Char → Option Char
  | '\x00' => some '0'
  | '\x07' => some 'a'
  | '\x08' => some 'b'
  | '\t' => some 't'
  | '\n' => some 'n'
  | '\x0b' => some 'v'
  | '\x0c' => some 'f'
  | '\r' => some 'r'
  | '\x1b' => some 'e'
  | '"' => some '"'
  | '\\' => some '\\'
  | '\u0085' => some 'N'
  | '\u2028' => some 'L'
  | '\u2029' => some 'P'
  | _ => none

/-- A character inside of double quotes. -/
def doubleChar (c : Char) : List Char :=
  match escapeLetter? c with
  | some letter => ['\\', letter]
  | none =>
    if isPrintable c then [c]
    else if c.toNat < 0x100 then '\\' :: 'x' :: hexDigits 2 c.toNat
    else if c.toNat < 0x10000 then '\\' :: 'u' :: hexDigits 4 c.toNat
    else '\\' :: 'U' :: hexDigits 8 c.toNat

/-- The lines of a literal block, each indented. Empty lines are not. -/
def literalLines : Bool → List Char → List Char
  | _, [] => []
  | newLine, c :: rest =>
    if isBreak c then c :: literalLines true rest
    else (if newLine then margin else []) ++ c :: literalLines false rest

/-- The mark for the line breaks at the end of a literal block: none if there is just one. -/
def chompingMarkFor (text : List Char) : List Char :=
  match text.reverse with
  | a :: rest =>
    if !isBreak a then ['-']
    else
      match rest with
      | [] => ['+']
      | b :: _ => if isBreak b then ['+'] else []
  | [] => ['-']

/-- The header of a literal block. The indentation is given if the text starts with a space or a line
break. -/
def literalHeader (text : List Char) : List Char :=
  '|' :: (if text.head?.any isEdge then ['2'] else []) ++ chompingMarkFor text ++ ['\n']

/-- The text of a scalar in a style, with the line break behind it. -/
def written (style : Style) (text : List Char) : List Char :=
  match style with
  | .plain => text ++ ['\n']
  | .singleQuoted => '\'' :: singleInside false text ++ ['\'', '\n']
  | .doubleQuoted => '"' :: text.flatMap doubleChar ++ ['"', '\n']
  | .literal | .folded =>
    literalHeader text ++ literalLines true text ++ (if text.getLast?.any isBreak then [] else ['\n'])

/-- The line or lines for a key at the margin and a text as its value. -/
def writtenAt (key : List Char) (text : List Char) : List Char :=
  key ++ ':' :: ' ' :: written (styleFor text) text

end PathLock.Yaml.Scalar
