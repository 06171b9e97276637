/-!
# The characters of YAML texts

* `Yaml.isAllowed`: the characters a text may hold.
* `Yaml.unifyBreaks`: the text with one spelling for the line breaks that are read alike.
* `Yaml.Mark`, `Yaml.Cursor`: a place in a text, and the text from there on.
-/

namespace PathLock.Yaml

/-! ## Classes of characters -/

/-- Whether a text may hold the character. Control characters are out, as are surrogates and the two
code points at the end of the first plane. -/
def isAllowed (c : Char) : Bool :=
  let n := c.toNat
  n == 0x09 || n == 0x0A || n == 0x0D || (0x20 ≤ n && n ≤ 0x7E) || n == 0x85 ||
    (0xA0 ≤ n && n ≤ 0xD7FF) || (0xE000 ≤ n && n ≤ 0xFFFD) || 0x10000 ≤ n

/-- The mark that may stand at the start of any line. It takes a column there. -/
def byteOrderMark : Char := '\ufeff'

/-- A space or a tab. -/
def isBlank (c : Char) : Bool := c == ' ' || c == '\t'

/-- A line break, once breaks are unified: line feed, line separator or paragraph separator. -/
def isBreak (c : Char) : Bool := c == '\n' || c == '\u2028' || c == '\u2029'

/-- A blank or a line break. -/
def isGap (c : Char) : Bool := isBlank c || isBreak c

/-- Whether a word ends before this text: at its end, at a blank or at a line break. -/
def wordEnds : List Char → Bool
  | [] => true
  | c :: _ => isGap c

/-- The characters of anchors, tag handles and directive names. -/
def isWordChar (c : Char) : Bool := c.isAlphanum || c == '_' || c == '-'

/-- The value of a hexadecimal digit. -/
def hexValue? (c : Char) : Option Nat :=
  if c.isDigit then some (c.toNat - '0'.toNat)
  else if 'a' ≤ c ∧ c ≤ 'f' then some (c.toNat - 'a'.toNat + 10)
  else if 'A' ≤ c ∧ c ≤ 'F' then some (c.toNat - 'A'.toNat + 10)
  else none

/-- The text with every carriage return, with or without a line feed, and every next line written as
a line feed. -/
def unifyBreaks : List Char → List Char
  | [] => []
  | '\r' :: '\n' :: rest => '\n' :: unifyBreaks rest
  | c :: rest => (if c = '\r' ∨ c = '\u0085' then '\n' else c) :: unifyBreaks rest

/-! ## Places -/

/-- A place in a text. -/
structure Mark where
  line : Nat := 0
  /-- The number of characters before it on its line. -/
  column : Nat := 0
  /-- The number of bytes before it on its line. -/
  bytes : Nat := 0
deriving DecidableEq, Repr

/-- The place after a character. -/
def Mark.after (mark : Mark) (c : Char) : Mark :=
  if isBreak c then ⟨mark.line + 1, 0, 0⟩
  else { mark with column := mark.column + 1, bytes := mark.bytes + c.utf8Size }

/-- The text from a place on. -/
structure Cursor where
  rest : List Char
  mark : Mark := {}
deriving DecidableEq, Repr

namespace Cursor

/-- The cursor after the next character. -/
def next (c : Cursor) : Cursor :=
  match c.rest with
  | [] => c
  | a :: rest => ⟨rest, c.mark.after a⟩

/-- The next character. -/
def peek? (c : Cursor) : Option Char := c.rest.head?

/-- The characters that satisfy `p` up to the first that does not, and the cursor there. -/
def spanWhile (p : Char → Bool) (c : Cursor) : List Char × Cursor :=
  let taken := c.rest.takeWhile p
  (taken, ⟨c.rest.dropWhile p, taken.foldl Mark.after c.mark⟩)

/-- The cursor after the characters that satisfy `p`. -/
def skipWhile (p : Char → Bool) (c : Cursor) : Cursor := (c.spanWhile p).2

/-- Whether a word ends here. -/
def atWordEnd (c : Cursor) : Bool := wordEnds c.rest

end Cursor

/-- Whether a text at a column starts with a marker between documents, which stands at the start of
a line and is a word of its own. -/
def startsMarker (column : Nat) : List Char → Bool
  | a :: b :: c :: rest =>
    column == 0 && a == b && b == c && (a == '-' || a == '.') && wordEnds rest
  | _ => false

end PathLock.Yaml
