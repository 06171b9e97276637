import PathLock.Yaml.Scalar
import PathLock.Yaml.Tag
/-!
# The tokens of YAML texts

What a YAML text consists of between blanks and comments. The starts and ends of block collections,
which only the indentation tells, are tokens of their own.
-/

namespace PathLock.Yaml

/-- A token. The end of the text is not one. -/
inductive Token
  | version (major minor : Nat)
  | tagHandle (handle : String) (stem : Tag)
  | documentStart
  | documentEnd
  | blockSequenceStart
  | blockMappingStart
  | blockEnd
  | flowSequenceStart
  | flowSequenceEnd
  | flowMappingStart
  | flowMappingEnd
  | blockEntry
  | flowEntry
  | key
  | value
  | alias (anchor : String)
  | anchor (name : String)
  | tag (handle : String) (suffix : Tag)
  | scalar (style : Style) (text : String)
deriving DecidableEq, Repr

end PathLock.Yaml
