import PathLock.Yaml.Visit
/-!
# Values

* `Value`: a node with its meaning, for places that may hold anything.
* `Value.ofScalar?`: what the tag and the style of a scalar let its spelling mean.
* `Value.ofNode`: the value of a node, with aliases followed.
* `Value.asText?` and its companions: the forms that a value may be expected to have.
-/

namespace PathLock.Yaml

/-- A node with its meaning. -/
inductive Value
  | null
  | bool (b : Bool)
  | natural (n : Nat)
  | number
  | text (text : String)
  | sequence (items : List Value)
  | mapping (entries : List (Value × Value))
deriving Repr, Inhabited

namespace Value

/-- The value of a meaning. Integers that need more than 64 bits have none. -/
def ofMeaning? (spelling : String) : Plain.Meaning → Option Value
  | .null => some .null
  | .bool b => some (.bool b)
  | .natural n => some (.natural n)
  | .wide => none
  | .number => some .number
  | .text => some (.text spelling)

/-- The value of a scalar. A core tag says what the text must spell; with any other tag but a local
one the scalar is text. -/
def ofScalar? (tag : Option Tag) (style : Style) (spelling : String) : Option Value :=
  match tag.bind Tag.core? with
  | some .null => if Plain.isNull spelling.toList then some .null else none
  | some .bool => (Plain.bool? spelling.toList).map .bool
  | some .int => (Plain.integer? spelling.toList).bind (ofMeaning? spelling)
  | some .float => (Plain.number? spelling.toList).map fun _ => .number
  | none =>
    if style = .plain ∧ tag.all Tag.isLocal then
      ofMeaning? spelling (Plain.meaning spelling.toList)
    else some (.text spelling)

/-- Whether a tag names a local kind of thing, of which there are no values. -/
def isForeign (tag : Option Tag) : Bool := (tag.bind Tag.localName?).isSome

/-- The value of a node whose collections are nested no deeper than `depth`. -/
def ofNode (d : Document) (depth : Nat) (node : Node) : Visit Value := do
  match ← d.resolve node with
  | .scalar tag style spelling => if isForeign tag then failure else ofScalar? tag style spelling
  | .sequence tag items =>
    match depth with
    | 0 => failure
    | depth + 1 =>
      if isForeign tag then failure else return .sequence (← items.mapM (ofNode d depth))
  | .mapping tag entries =>
    match depth with
    | 0 => failure
    | depth + 1 =>
      if isForeign tag then failure
      else
        return .mapping (← entries.mapM fun (key, value) => do
          return (← ofNode d depth key, ← ofNode d depth value))
  | .alias _ => failure

/-- The text that a value is. -/
def asText? : Value → Option String
  | text s => some s
  | _ => none

/-- The truth value that a value is. -/
def asBool? : Value → Option Bool
  | bool b => some b
  | _ => none

/-- The texts of a sequence. -/
def asTexts? : Value → Option (List String)
  | sequence items => items.mapM asText?
  | _ => none

/-- Reads a value that may be null. -/
def optional {α : Type} (read : Value → Option α) : Value → Option (Option α)
  | null => some none
  | value => (read value).map some

end Value

end PathLock.Yaml
