import PathLock.Yaml.Text
/-!
# Tags

A tag tells what kind of thing a node is. Escapes such as `%C3` write single bytes into a tag, so it
need not be text and is kept as bytes. A tag ends before a byte that is zero.

* `Tag.ofEscaped?`: the tag that characters and escapes write.
* `Tag.core?`, `Tag.isLocal`, `Tag.localName?`: the tags that matter to the reading of values.
-/

namespace PathLock.Yaml

/-- The bytes of a tag, or of a part of one. -/
structure Tag where
  bytes : List UInt8
deriving DecidableEq, Repr

namespace Tag

/-- The tag with the bytes of these characters. -/
def ofChars (text : List Char) : Tag := ⟨text.flatMap String.utf8EncodeChar⟩

/-- The tag that two parts make up. -/
instance : Append Tag where
  append stem suffix := ⟨stem.bytes ++ suffix.bytes⟩

/-! ## Escapes -/

/-- How many more bytes a character has by its first one. -/
def owedAfter? (byte : Nat) : Option Nat :=
  if byte < 0x80 then some 0
  else if byte < 0xC0 then none
  else if byte < 0xE0 then some 1
  else if byte < 0xF0 then some 2
  else if byte < 0xF8 then some 3
  else none

/-- The bytes that characters and escapes write. While `owed` is not zero, so many more escapes must
follow at once to complete a character; nothing but their leading bits is checked. -/
def unescape? : Nat → List Char → Option (List UInt8)
  | owed, [] => if owed = 0 then some [] else none
  | owed, '%' :: a :: b :: rest => do
    let byte := 16 * (← hexValue? a) + (← hexValue? b)
    let owed ← match owed with
      | 0 => owedAfter? byte
      | owed + 1 => if 0x80 ≤ byte ∧ byte < 0xC0 then some owed else none
    return UInt8.ofNat byte :: (← unescape? owed rest)
  | owed, c :: rest => do
    if owed ≠ 0 ∨ c = '%' then none
    else return String.utf8EncodeChar c ++ (← unescape? 0 rest)

/-- The tag that characters and escapes write. -/
def ofEscaped? (text : List Char) : Option Tag :=
  (unescape? 0 text).map fun bytes => ⟨bytes.takeWhile (· ≠ 0)⟩

/-! ## Known tags -/

/-- The tag `!`, which only tells that a node has a tag. -/
def bang : Tag := ofChars ['!']

/-- What the handle `!!` stands for, unless a directive says otherwise. -/
def coreStem : Tag := ofChars "tag:yaml.org,2002:".toList

/-- The tags that change what a scalar means. -/
inductive Core
  | null
  | bool
  | int
  | float
deriving DecidableEq, Repr

/-- The name of a core tag. -/
def Core.name : Core → String
  | null => "null"
  | bool => "bool"
  | int => "int"
  | float => "float"

/-- The core tag that a tag is. -/
def core? (tag : Tag) : Option Core :=
  [Core.null, .bool, .int, .float].find? fun core => tag == coreStem ++ ofChars core.name.toList

/-- Whether a tag is a local one: it starts with `!`. -/
def isLocal (tag : Tag) : Bool := tag.bytes.head? == bang.bytes.head?

/-- The name of a local tag, if it is text: what follows its `!`, or `!` if nothing does. -/
def localName? (tag : Tag) : Option String :=
  if tag = bang then some "!"
  else if tag.isLocal then String.fromUTF8? ⟨tag.bytes.tail.toArray⟩
  else none

end Tag

end PathLock.Yaml
