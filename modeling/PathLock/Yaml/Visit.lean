import PathLock.Yaml.Node
import PathLock.Yaml.Plain
/-!
# Visits to documents

A visit reads the places of a document and follows aliases on its way. So that no document can
multiply itself without bound, the number of aliases followed in one visit is limited.

* `Document.visit?`: the answer of a whole visit.
* `Document.resolve`: the node that stands at a place, the one step that follows aliases.
* `Document.entries`, `Document.items`, `Document.text`, `Document.natural`, `Document.number`,
  `Document.optional`, `Document.fields`: what is expected at a place.
* `field?`: looks a field up among entries and refuses one that is given twice.
-/

namespace PathLock.Yaml

/-! ## Events -/

mutual

/-- The number of events that a node is: one for a scalar or an alias, and for a collection its start
and its end besides those of its content. -/
def Node.events : Node → Nat
  | .scalar _ _ _ => 1
  | .alias _ => 1
  | .sequence _ items => 2 + itemEvents items
  | .mapping _ entries => 2 + entryEvents entries

/-- The number of events of the items of a sequence. -/
def itemEvents : List Node → Nat
  | [] => 0
  | item :: rest => item.events + itemEvents rest

/-- The number of events of the entries of a mapping. -/
def entryEvents : List (Node × Node) → Nat
  | [] => 0
  | (key, value) :: rest => key.events + value.events + entryEvents rest

end

/-! ## Following aliases -/

/-- A part of a visit, which may fail. The state is how many aliases may still be followed. -/
abbrev Visit (α : Type) := StateT Nat Option α

namespace Document

variable (d : Document)

/-- How many aliases a visit may follow for each event of the document. -/
def aliasesPerEvent : Nat := 100

/-- The answer of a whole visit. -/
def visit? {α : Type} (visit : Visit α) : Option α :=
  visit.run' (aliasesPerEvent * (d.root.map Node.events).getD 0)

/-- The node that stands at a place: the one that an alias stands for, or the node itself. -/
def resolve : Node → Visit Node
  | .alias number => do
    match ← get with
    | 0 => failure
    | left + 1 =>
      set left
      d.target? number
  | node => return node

/-! ## Places with an expected form -/

/-- The entries of a mapping. A document without a node and an empty plain scalar have none. -/
def entries : Option Node → Visit (List (Node × Node))
  | none => return []
  | some node => do
    match ← d.resolve node with
    | .mapping _ entries => return entries
    | .scalar _ .plain "" => return []
    | _ => failure

/-- The items of a sequence. An empty plain scalar has none. -/
def items (node : Node) : Visit (List Node) := do
  match ← d.resolve node with
  | .sequence _ items => return items
  | .scalar _ .plain "" => return []
  | _ => failure

/-- The text of a scalar, whatever its style. -/
def text (node : Node) : Visit String := do
  match ← d.resolve node with
  | .scalar _ _ text => return text
  | _ => failure

/-- Whether a scalar in this style and with this tag can be read as a number of the given kind. -/
def mayBeNumber (kind : Tag.Core) (tag : Option Tag) (style : Style) : Bool :=
  style == .plain || (style == .literal && tag.bind Tag.core? == some kind)

/-- The natural number that a plain scalar spells. -/
def natural (node : Node) : Visit Nat := do
  match ← d.resolve node with
  | .scalar tag style text =>
    if mayBeNumber .int tag style then Plain.natural? text.toList else failure
  | _ => failure

/-- The number that a plain scalar spells. -/
def number (node : Node) : Visit Binary64 := do
  match ← d.resolve node with
  | .scalar tag style text =>
    if mayBeNumber .float tag style then Plain.number? text.toList else failure
  | _ => failure

/-- Reads a place that may be null or empty. A scalar tagged null must be null, and one with another
tag is not. -/
def optional {α : Type} (read : Node → Visit α) (node : Node) : Visit (Option α) := do
  let node ← d.resolve node
  match node with
  | .scalar none .plain text =>
    if text = "" ∨ Plain.isNull text.toList then return none else return some (← read node)
  | .scalar (some tag) .plain text =>
    if tag.core? ≠ some .null then return some (← read node)
    else if Plain.isNull text.toList then return none
    else failure
  | _ => return some (← read node)

/-- The entries of a mapping with their keys read as text. -/
def fields (node : Option Node) : Visit (List (String × Node)) := do
  (← d.entries node).mapM fun (key, value) => do return (← d.text key, value)

end Document

/-- The field with a name, if it is there; refuses a field that is given twice. -/
def field? {α : Type} (fields : List (String × α)) (name : String) : Option (Option α) :=
  match fields.filter fun field => field.1 == name with
  | [] => some none
  | [(_, value)] => some (some value)
  | _ => none

end PathLock.Yaml
