import PathLock.Yaml.Token
/-!
# Reading tokens

A text is cut into tokens from front to back. A key without a mark of its own is recognised only at
the `:` behind it; its token is then put in front of what was read since. The columns at which the
open block collections start are kept in a stack.

* `Token.read?`: the tokens of a text, if it can be cut into tokens.
-/

namespace PathLock.Yaml

/-! ## State -/

/-- A place at which a key may have started. -/
structure KeyCandidate where
  /-- The number of tokens before it. -/
  position : Nat
  /-- Whether there must be a key, since a block mapping goes on here. -/
  required : Bool
  mark : Mark
deriving DecidableEq, Repr

/-- The state between two tokens. -/
structure Lexer where
  cursor : Cursor
  tokens : Array Token := #[]
  /-- The column of the innermost block collection, -1 outside of all. -/
  indent : Int := -1
  /-- The columns of the collections around it. -/
  outerIndents : List Int := []
  /-- Whether a key without a mark of its own may start here. -/
  keyAllowed : Bool := true
  /-- Where a key may have started, in the innermost brackets. -/
  candidate : Option KeyCandidate := none
  /-- The same for the brackets around them, and at last outside of all brackets. -/
  outerCandidates : List (Option KeyCandidate) := []

namespace Lexer

/-- Whether the place lies inside of brackets. -/
def inFlow (s : Lexer) : Bool := !s.outerCandidates.isEmpty

/-- The column of the place. -/
def column (s : Lexer) : Nat := s.cursor.mark.column

/-- Adds a token at the end. -/
def emit (s : Lexer) (token : Token) : Lexer := { s with tokens := s.tokens.push token }

/-- Adds a token for the next character. -/
def emitChar (s : Lexer) (token : Token) : Lexer :=
  { s with tokens := s.tokens.push token, cursor := s.cursor.next }

/-! ## Blanks and comments -/

/-- Skips blanks, comments and line breaks on from a place. Tabs are skipped where no key may start.
After a line break outside of brackets a key may start again. -/
def skipFrom (inFlow : Bool) : List Char → Bool → Bool → Mark → Cursor × Bool
  | [], keyAllowed, _, mark => (⟨[], mark⟩, keyAllowed)
  | c :: rest, keyAllowed, inComment, mark =>
    if isBreak c then skipFrom inFlow rest (keyAllowed || !inFlow) false (mark.after c)
    else if inComment ∨ c = '#' then skipFrom inFlow rest keyAllowed true (mark.after c)
    else if c = ' ' ∨ (c = '\t' ∧ (inFlow ∨ !keyAllowed)) ∨ (c = byteOrderMark ∧ mark.column = 0) then
      skipFrom inFlow rest keyAllowed false (mark.after c)
    else (⟨c :: rest, mark⟩, keyAllowed)

/-- Skips to the next token. -/
def skipGap (s : Lexer) : Lexer :=
  let (cursor, keyAllowed) := skipFrom s.inFlow s.cursor.rest s.keyAllowed false s.cursor.mark
  { s with cursor, keyAllowed }

/-! ## Keys and indentation -/

/-- Gives up the candidate for a key. That fails if there must be a key. -/
def dropCandidate (s : Lexer) : Option Lexer :=
  match s.candidate with
  | some candidate => if candidate.required then none else some { s with candidate := none }
  | none => some s

/-- Makes the place a candidate for a key, if one may start here. -/
def saveCandidate (s : Lexer) : Option Lexer := do
  if s.keyAllowed then
    let required := !s.inFlow && s.indent == s.column
    let t ← s.dropCandidate
    return { t with candidate := some ⟨s.tokens.size, required, s.cursor.mark⟩ }
  else return s

/-- Opens a block collection at a column, unless one that starts there or further right is open. Its
token goes before the token with number `position`. -/
def openBlock (s : Lexer) (column position : Nat) (token : Token) : Lexer :=
  if s.inFlow ∨ (column : Int) ≤ s.indent then s
  else
    { s with
      tokens := s.tokens.insertIdxIfInBounds position token
      indent := column
      outerIndents := s.indent :: s.outerIndents }

/-- Ends the open block collections that start right of a column. -/
def closeBlocksFrom (column : Int) (tokens : Array Token) (indent : Int) :
    List Int → Array Token × Int × List Int
  | [] => (tokens, indent, [])
  | outer :: rest =>
    if column < indent then closeBlocksFrom column (tokens.push .blockEnd) outer rest
    else (tokens, indent, outer :: rest)

/-- Ends the open block collections that start right of a column, outside of brackets. -/
def closeBlocks (s : Lexer) (column : Int) : Lexer :=
  if s.inFlow then s
  else
    let (tokens, indent, outerIndents) := closeBlocksFrom column s.tokens s.indent s.outerIndents
    { s with tokens, indent, outerIndents }

/-- How many bytes a key without a mark of its own may take up to its colon. -/
def keyLimit : Nat := 1024

/-- Whether a candidate can still be a key here: it is on the same line and not too far away. -/
def isLive (s : Lexer) (candidate : KeyCandidate) : Bool :=
  candidate.mark.line == s.cursor.mark.line &&
    s.cursor.mark.bytes ≤ candidate.mark.bytes + keyLimit

/-! ## Directives -/

/-- Reads a version number of one to nine digits. -/
def versionNumber? (c : Cursor) : Option (Nat × Cursor) :=
  let (digits, c) := c.spanWhile Char.isDigit
  if digits = [] ∨ 9 < digits.length then none else some (Nat.ofDigitChars 10 digits 0, c)

/-- Reads a tag handle: `!`, word characters and another `!` if there is one. -/
def handle? (c : Cursor) : Option (List Char × Cursor) :=
  if c.peek? = some '!' then
    let (word, c) := c.next.spanWhile isWordChar
    if c.peek? = some '!' then some ('!' :: word ++ ['!'], c.next) else some ('!' :: word, c)
  else none

/-- Characters of tags besides word characters. Commas and square brackets are only allowed in tags
between angle brackets. -/
def isTagChar (bracketed : Bool) (c : Char) : Bool :=
  isWordChar c || c ∈ [';', '/', '?', ':', '@', '&', '=', '+', '$', '.', '%', '!', '~', '*', '\'',
    '(', ')'] || (bracketed && c ∈ [',', '[', ']'])

/-- Reads the rest of a tag, at least one character unless `mayBeEmpty`. -/
def tagText? (bracketed mayBeEmpty : Bool) (c : Cursor) : Option (Tag × Cursor) := do
  let (text, c) := c.spanWhile (isTagChar bracketed)
  if text = [] ∧ !mayBeEmpty then none
  else return (← Tag.ofEscaped? text, c)

/-- Skips blanks, a comment and the line break at the end of a line with nothing else on it. -/
def lineEnd? (c : Cursor) : Option Cursor :=
  let c := c.skipWhile isBlank
  let c := if c.peek? = some '#' then c.skipWhile (!isBreak ·) else c
  match c.peek? with
  | none => some c
  | some a => if isBreak a then some c.next else none

/-- Reads a directive after its `%`. -/
def directive? (c : Cursor) : Option (Token × Cursor) := do
  let (name, c) := c.spanWhile isWordChar
  if !c.atWordEnd then none
  else if name = ['Y', 'A', 'M', 'L'] then
    let (major, c) ← versionNumber? (c.skipWhile isBlank)
    if c.peek? ≠ some '.' then none
    else
      let (minor, c) ← versionNumber? c.next
      return (.version major minor, ← lineEnd? c)
  else if name = ['T', 'A', 'G'] then
    let (handle, c) ← handle? (c.skipWhile isBlank)
    if (handle ≠ ['!'] ∧ (handle.length < 2 ∨ handle.getLast? ≠ some '!')) ∨
        !(c.peek?.any isBlank) then none
    else
      let (stem, c) ← tagText? true false (c.skipWhile isBlank)
      if !c.atWordEnd then none
      else return (.tagHandle (String.ofList handle) stem, ← lineEnd? c)
  else none

/-! ## Anchors and tags -/

/-- Reads the name of an anchor or alias after its mark. -/
def anchorName? (c : Cursor) : Option (String × Cursor) :=
  let (name, c) := c.spanWhile isWordChar
  let ended := c.atWordEnd ||
    c.peek?.any fun a => a ∈ ['?', ':', ',', ']', '\x7d', '%', '@', '\x60']
  if name ≠ [] ∧ ended then some (String.ofList name, c) else none

/-- Reads a tag. A tag between angle brackets has an empty handle, as has the tag `!`. -/
def tag? (inFlow : Bool) (c : Cursor) : Option (Token × Cursor) := do
  let (handle, suffix, c) ←
    if c.next.peek? = some '<' then do
      let (suffix, c) ← tagText? true false c.next.next
      if c.peek? = some '>' then some ([], suffix, c.next) else none
    else do
      let (handle, c) ← handle? c
      if 2 ≤ handle.length ∧ handle.getLast? = some '!' then
        let (suffix, c) ← tagText? false false c
        some (handle, suffix, c)
      else
        let (more, c) ← tagText? false true c
        let suffix := Tag.ofChars handle.tail ++ more
        some (if suffix.bytes = [] then ([], .bang, c) else (['!'], suffix, c))
  if c.atWordEnd ∨ (inFlow ∧ c.peek? = some ',') then
    return (.tag (String.ofList handle) suffix, c)
  else none

/-! ## Tokens -/

/-- Reads an opening bracket. -/
def openFlow (s : Lexer) (token : Token) : Option Lexer := do
  let s ← s.saveCandidate
  return { s.emitChar token with
    keyAllowed := true, candidate := none, outerCandidates := s.candidate :: s.outerCandidates }

/-- Reads a closing bracket. -/
def closeFlow (s : Lexer) (token : Token) : Option Lexer := do
  let s ← s.dropCandidate
  let s := { s.emitChar token with keyAllowed := false }
  match s.outerCandidates with
  | [] => return s
  | candidate :: outer => return { s with candidate, outerCandidates := outer }

/-- Reads the comma between the entries of a collection in brackets. -/
def flowEntry (s : Lexer) : Option Lexer := do
  let s ← s.dropCandidate
  return { s.emitChar .flowEntry with keyAllowed := true }

/-- Reads the hyphen before an entry of a block sequence. -/
def blockEntry (s : Lexer) : Option Lexer := do
  if !s.inFlow && !s.keyAllowed then none
  else
    let s := s.openBlock s.column s.tokens.size .blockSequenceStart
    let s ← s.dropCandidate
    return { s.emitChar .blockEntry with keyAllowed := true }

/-- Reads the question mark before a key. -/
def explicitKey (s : Lexer) : Option Lexer := do
  if !s.inFlow && !s.keyAllowed then none
  else
    let s := s.openBlock s.column s.tokens.size .blockMappingStart
    let s ← s.dropCandidate
    return { s.emitChar .key with keyAllowed := !s.inFlow }

/-- Reads the colon after a key that has no mark of its own, or before a value without such a key. -/
def mappingValue (s : Lexer) : Option Lexer := do
  let live := s.candidate.filter s.isLive
  match live with
  | some candidate =>
    let tokens := s.tokens.insertIdxIfInBounds candidate.position .key
    let s := ({ s with tokens } : Lexer).openBlock candidate.mark.column candidate.position
      .blockMappingStart
    return { s.emitChar .value with candidate := none, keyAllowed := false }
  | none =>
    let s ← s.dropCandidate
    if s.inFlow then return { s.emitChar .value with keyAllowed := false }
    else if s.keyAllowed then
      let s := s.openBlock s.column s.tokens.size .blockMappingStart
      return { s.emitChar .value with keyAllowed := true }
    else none

/-- Reads a token that can be a key, by a reader that answers with the token and the place behind. -/
def keyLike (s : Lexer) (read : Option (Token × Cursor)) : Option Lexer := do
  let s ← s.saveCandidate
  let (token, cursor) ← read
  return { s.emit token with cursor, keyAllowed := false }

/-- Reads a block scalar. -/
def blockScalar (s : Lexer) (style : Style) : Option Lexer := do
  let s ← s.dropCandidate
  let (header, c) ← Scalar.blockHeader? s.cursor.next
  let state : Scalar.BlockState :=
    { indent := header.increment.map fun n => (max s.indent 0).toNat + n }
  let (text, cursor) ← Scalar.block? (style == .folded) header.chomping
    (max 1 (s.indent + 1).toNat) c.rest state c.mark
  return { s.emit (.scalar style (String.ofList text)) with cursor, keyAllowed := true }

/-- Reads a plain scalar. After line breaks behind it a key may start again. -/
def plainScalar (s : Lexer) : Option Lexer := do
  let t ← s.saveCandidate
  let plain ← Scalar.plain? ⟨s.inFlow, s.indent + 1⟩ s.cursor.rest .empty s.cursor.mark
  return { t.emit (.scalar .plain (String.ofList plain.text)) with
    cursor := plain.behind, keyAllowed := plain.brokeLine }

/-- Reads a directive or a marker between documents, which end all block collections. -/
def atMargin (s : Lexer) (read : Option (Token × Cursor)) : Option Lexer := do
  let s ← (s.closeBlocks (-1)).dropCandidate
  let (token, cursor) ← read
  return { s.emit token with cursor, keyAllowed := false }

/-- The characters that do not start a plain scalar. -/
def isIndicator (c : Char) : Bool :=
  c ∈ ['-', '?', ':', ',', '[', ']', '\x7b', '\x7d', '#', '&', '*', '!', '|', '>', '\'', '"', '%',
    '@', '\x60']

/-- Whether a plain scalar starts with these characters. -/
def startsPlain (inFlow : Bool) (c : Char) (rest : List Char) : Bool :=
  (!isGap c && !isIndicator c) || (c == '-' && !(rest.head?.any isBlank)) ||
    (!inFlow && (c == '?' || c == ':') && !wordEnds rest)

/-- Reads the token that starts with these characters. -/
def token (s : Lexer) (c : Char) (rest : List Char) : Option Lexer :=
  let behind := s.cursor.next
  let mark := s.column == 0 && startsMarker 0 (c :: rest)
  let ends := wordEnds rest
  if s.column = 0 ∧ c = '%' then s.atMargin (directive? behind)
  else if mark ∧ c = '-' then s.atMargin (some (.documentStart, behind.next.next))
  else if mark then s.atMargin (some (.documentEnd, behind.next.next))
  else if c = '[' then s.openFlow .flowSequenceStart
  else if c = '\x7b' then s.openFlow .flowMappingStart
  else if c = ']' then s.closeFlow .flowSequenceEnd
  else if c = '\x7d' then s.closeFlow .flowMappingEnd
  else if c = ',' then s.flowEntry
  else if c = '-' ∧ ends then s.blockEntry
  else if c = '?' ∧ (s.inFlow ∨ ends) then s.explicitKey
  else if c = ':' ∧ (s.inFlow ∨ ends) then s.mappingValue
  else if c = '*' then s.keyLike ((anchorName? behind).map fun (name, c) => (.alias name, c))
  else if c = '&' then s.keyLike ((anchorName? behind).map fun (name, c) => (.anchor name, c))
  else if c = '!' then s.keyLike (tag? s.inFlow s.cursor)
  else if c = '|' ∧ !s.inFlow then s.blockScalar .literal
  else if c = '>' ∧ !s.inFlow then s.blockScalar .folded
  else if c = '\'' then
    s.keyLike ((Scalar.single? rest .empty behind.mark).map fun (text, c) =>
      (.scalar .singleQuoted (String.ofList text), c))
  else if c = '"' then
    s.keyLike ((Scalar.double? rest (.words .empty) behind.mark).map fun (text, c) =>
      (.scalar .doubleQuoted (String.ofList text), c))
  else if startsPlain s.inFlow c rest then s.plainScalar
  else none

/-- Reads tokens up to the end of the text; `fuel` bounds their number. -/
def tokensFrom : Nat → Lexer → Option (Array Token)
  | 0, _ => none
  | fuel + 1, s =>
    let s := s.skipGap
    match s.cursor.rest with
    | [] => do return (← (s.closeBlocks (-1)).dropCandidate).tokens
    | c :: rest => do tokensFrom fuel (← (s.closeBlocks s.column).token c rest)

end Lexer

/-- The tokens of a text. Each takes at least one character, so the length of the text bounds their
number. -/
def Token.read? (text : List Char) : Option (List Token) := do
  return (← Lexer.tokensFrom (text.length + 1) { cursor := { rest := text } }).toList

end PathLock.Yaml
