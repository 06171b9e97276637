import PathLock.Yaml.Text
/-!
# Scalars

The five styles in which a scalar can be written, and the reading of each. A reader starts after the
mark that opens the scalar and answers with the text and the place behind the scalar.

* `Scalar.plain?`, `Scalar.single?`, `Scalar.double?`: scalars that fold their line breaks.
* `Scalar.block?`: literal and folded block scalars.
-/

namespace PathLock.Yaml

/-- How a scalar is written. -/
inductive Style
  | plain
  | singleQuoted
  | doubleQuoted
  | literal
  | folded
deriving DecidableEq, Repr

/-! ## Gaps between words -/

/-- What stands between two words of a scalar: nothing, blanks within a line, or line breaks. Of line
breaks the first is kept apart; it is missing after a break that was escaped. -/
inductive Gap
  | empty
  | blanks (text : List Char)
  | breaks (first : Option Char) (more : List Char)
deriving DecidableEq, Repr

namespace Gap

/-- The gap with one more blank or line break. Blanks beside a line break do not count. -/
def push (gap : Gap) (c : Char) : Gap :=
  match gap with
  | empty => if isBreak c then breaks (some c) [] else blanks [c]
  | blanks text => if isBreak c then breaks (some c) [] else blanks (text ++ [c])
  | breaks first more => if isBreak c then breaks first (more ++ [c]) else gap

/-- Whether the gap has line breaks. -/
def hasBreaks : Gap → Bool
  | breaks _ _ => true
  | _ => false

/-- What a gap is read as. A single line feed is folded into a space, the first of several is
dropped, and the other kinds of breaks are kept. -/
def text : Gap → List Char
  | empty => []
  | blanks text => text
  | breaks (some first) more =>
    if first = '\n' then (if more = [] then [' '] else more) else first :: more
  | breaks none more => more

end Gap

/-! ## Flow scalars -/

namespace Scalar

/-- What ends a plain scalar depends on its surroundings: whether it stands in brackets, and the
column from which its further lines must start. -/
structure Surroundings where
  inFlow : Bool
  indent : Int

/-- The characters that structure collections in brackets. -/
def isFlowMark (c : Char) : Bool := c == ',' || c == '[' || c == ']' || c == '\x7b' || c == '\x7d'

/-- Whether a plain scalar ends before a word although the text goes on: the word is a comment, is
not indented enough or is a marker between documents. -/
def endsBefore (s : Surroundings) (mark : Mark) (text : List Char) : Bool :=
  (!s.inFlow && (mark.column : Int) < s.indent) || startsMarker mark.column text ||
    text.head? == some '#'

/-- Whether a plain scalar ends before a character inside a word. -/
def endsAt (s : Surroundings) (c : Char) (rest : List Char) : Bool :=
  (c == ':' && wordEnds rest) || (s.inFlow && isFlowMark c)

/-- Whether a colon is misplaced in brackets, since a mark of the collection follows at once. -/
def isMisplacedColon (s : Surroundings) (c : Char) (rest : List Char) : Bool :=
  s.inFlow && c == ':' &&
    match rest with
    | a :: _ => isFlowMark a || a == '?'
    | [] => false

/-- The text of a plain scalar, the place behind it, and whether line breaks stand before that. -/
structure Plain where
  text : List Char
  behind : Cursor
  brokeLine : Bool

/-- Reads a plain scalar on from a place before which `gap` stands. -/
def plain? (s : Surroundings) : List Char → Gap → Mark → Option Plain
  | [], gap, mark => some ⟨[], ⟨[], mark⟩, gap.hasBreaks⟩
  | c :: rest, gap, mark =>
    if isGap c then
      if c = '\t' ∧ gap.hasBreaks ∧ (mark.column : Int) < s.indent then none
      else plain? s rest (gap.push c) (mark.after c)
    else if gap ≠ .empty ∧ endsBefore s mark (c :: rest) then
      some ⟨[], ⟨c :: rest, mark⟩, gap.hasBreaks⟩
    else if isMisplacedColon s c rest then none
    else if endsAt s c rest then some ⟨[], ⟨c :: rest, mark⟩, gap.hasBreaks⟩
    else
      (plain? s rest .empty (mark.after c)).map fun p => { p with text := gap.text ++ c :: p.text }

/-- Reads a single quoted scalar on from a place before which `gap` stands. A quote inside is written
twice. -/
def single? : List Char → Gap → Mark → Option (List Char × Cursor)
  | [], _, _ => none
  | c :: rest, gap, mark =>
    if isGap c then single? rest (gap.push c) (mark.after c)
    else if gap.hasBreaks ∧ startsMarker mark.column (c :: rest) then none
    else if c = '\'' then
      match rest with
      | '\'' :: rest =>
        (single? rest .empty ((mark.after c).after c)).map fun (text, behind) =>
          (gap.text ++ c :: text, behind)
      | rest => some (gap.text, ⟨rest, mark.after c⟩)
    else
      (single? rest .empty (mark.after c)).map fun (text, behind) => (gap.text ++ c :: text, behind)

/-- The character that an escape of one letter stands for. -/
def escaped? : Char → Option Char
  | '0' => some '\x00'
  | 'a' => some '\x07'
  | 'b' => some '\x08'
  | 't' => some '\t'
  | '\t' => some '\t'
  | 'n' => some '\n'
  | 'v' => some '\x0b'
  | 'f' => some '\x0c'
  | 'r' => some '\r'
  | 'e' => some '\x1b'
  | ' ' => some ' '
  | '"' => some '"'
  | '/' => some '/'
  | '\\' => some '\\'
  | 'N' => some '\u0085'
  | '_' => some '\u00a0'
  | 'L' => some '\u2028'
  | 'P' => some '\u2029'
  | _ => none

/-- The number of hexadecimal digits that follow the letter of an escape by code point. -/
def codeLength? : Char → Option Nat
  | 'x' => some 2
  | 'u' => some 4
  | 'U' => some 8
  | _ => none

/-- The character with a code point, if there is one. -/
def charOfCode? (n : Nat) : Option Char :=
  if n.isValidChar then some (Char.ofNat n) else none

/-- Where the reading of a double quoted scalar is: before which a gap stands, or inside of an escape
with a number of digits left and the value of those read. -/
inductive DoubleState
  | words (gap : Gap)
  | code (left value : Nat)

/-- Reads a double quoted scalar on. -/
def double? : List Char → DoubleState → Mark → Option (List Char × Cursor)
  | [], _, _ => none
  | c :: rest, .code left value, mark =>
    match hexValue? c with
    | none => none
    | some d =>
      if left = 0 then
        match charOfCode? (16 * value + d) with
        | none => none
        | some a =>
          (double? rest (.words .empty) (mark.after c)).map fun (text, behind) =>
            (a :: text, behind)
      else double? rest (.code (left - 1) (16 * value + d)) (mark.after c)
  | c :: rest, .words gap, mark =>
    if isGap c then double? rest (.words (gap.push c)) (mark.after c)
    else if gap.hasBreaks ∧ startsMarker mark.column (c :: rest) then none
    else if c = '"' then some (gap.text, ⟨rest, mark.after c⟩)
    else if c = '\\' then
      match rest with
      | [] => none
      | e :: rest =>
        let mark := (mark.after c).after e
        if isBreak e then
          (double? rest (.words (.breaks none [])) mark).map fun (text, behind) =>
            (gap.text ++ text, behind)
        else
          match escaped? e, codeLength? e with
          | some a, _ =>
            (double? rest (.words .empty) mark).map fun (text, behind) =>
              (gap.text ++ a :: text, behind)
          | none, some length =>
            (double? rest (.code (length - 1) 0) mark).map fun (text, behind) =>
              (gap.text ++ text, behind)
          | none, none => none
    else
      (double? rest (.words .empty) (mark.after c)).map fun (text, behind) =>
        (gap.text ++ c :: text, behind)

/-! ## Block scalars -/

/-- What happens to the line breaks at the end of a block scalar. -/
inductive Chomping
  /-- The last line break is kept, further ones are not. -/
  | clip
  /-- No line break is kept. -/
  | strip
  /-- All line breaks are kept. -/
  | keep
deriving DecidableEq, Repr

/-- The chomping that a character asks for. -/
def chomping? : Char → Option Chomping
  | '+' => some .keep
  | '-' => some .strip
  | _ => none

/-- The header of a block scalar: chomping, and by how much it is indented if that is given. -/
structure BlockHeader where
  chomping : Chomping := .clip
  increment : Option Nat := none
deriving DecidableEq, Repr

/-- Reads an optional indentation increment, which is not zero. -/
def increment? (c : Cursor) : Option (Option Nat × Cursor) :=
  match c.peek? with
  | some a =>
    if a.isDigit then
      if a = '0' then none else some (some (a.toNat - '0'.toNat), c.next)
    else some (none, c)
  | none => some (none, c)

/-- Reads an optional chomping mark. -/
def chompingMark (c : Cursor) : Option Chomping × Cursor :=
  match c.peek?.bind chomping? with
  | some chomping => (some chomping, c.next)
  | none => (none, c)

/-- Reads the header of a block scalar up to and with the line break that ends it. -/
def blockHeader? (c : Cursor) : Option (BlockHeader × Cursor) := do
  let (before, c) := chompingMark c
  let (increment, c) ← increment? c
  let (chomping, c) := if before.isSome then (before, c) else
    if increment.isSome then chompingMark c else (none, c)
  let c := c.skipWhile isBlank
  let c := if c.peek? = some '#' then c.skipWhile (!isBreak ·) else c
  match c.peek? with
  | none => some (⟨chomping.getD .clip, increment⟩, c)
  | some a => if isBreak a then some (⟨chomping.getD .clip, increment⟩, c.next) else none

/-- Where the reading of a block scalar is. `indent` is the indentation once it is known, and
`deepest` the deepest seen before. `ended` is the break that ended the last line with text, and
`blank` the breaks of the empty lines since. `startedBlank` tells whether the last line with text
began with a blank. -/
structure BlockState where
  indent : Option Nat
  deepest : Nat := 0
  ended : Option Char := none
  blank : List Char := []
  startedBlank : Bool := false
  inLine : Bool := false

/-- What stands between two lines with text. In a folded scalar a line feed between two lines that
start without a blank is read as a space, or as nothing if empty lines follow. -/
def BlockState.joint (folds : Bool) (s : BlockState) (next : Char) : List Char :=
  if folds ∧ s.ended = some '\n' ∧ !s.startedBlank ∧ !isBlank next then
    if s.blank = [] then [' '] else s.blank
  else s.ended.toList ++ s.blank

/-- What stands at the end of a block scalar. -/
def BlockState.tail (chomping : Chomping) (s : BlockState) : List Char :=
  match chomping with
  | .strip => []
  | .clip => s.ended.toList
  | .keep => s.ended.toList ++ s.blank

/-- Reads the lines of a block scalar on. An indentation that was not given is that of the first line
with text, or of a deeper empty line before it, and at least `least`. -/
def block? (folds : Bool) (chomping : Chomping) (least : Nat) :
    List Char → BlockState → Mark → Option (List Char × Cursor)
  | [], s, mark => some (if s.inLine then [] else s.tail chomping, ⟨[], mark⟩)
  | c :: rest, s, mark =>
    if s.inLine then
      if isBreak c then
        block? folds chomping least rest { s with ended := some c, inLine := false } (mark.after c)
      else
        (block? folds chomping least rest s (mark.after c)).map fun (text, behind) =>
          (c :: text, behind)
    else
      let indenting : Bool := match s.indent with
        | some indent => decide (mark.column < indent)
        | none => true
      if c = ' ' ∧ indenting then
        block? folds chomping least rest { s with deepest := max s.deepest (mark.column + 1) }
          (mark.after c)
      else if c = '\t' ∧ indenting then none
      else if isBreak c then
        block? folds chomping least rest { s with blank := s.blank ++ [c] } (mark.after c)
      else
        let indent := s.indent.getD (max s.deepest least)
        if mark.column = indent then
          let started : BlockState :=
            { indent := some indent, startedBlank := isBlank c, inLine := true }
          (block? folds chomping least rest started (mark.after c)).map fun (text, behind) =>
            (s.joint folds c ++ c :: text, behind)
        else some (s.tail chomping, ⟨c :: rest, mark⟩)

end Scalar

end PathLock.Yaml
