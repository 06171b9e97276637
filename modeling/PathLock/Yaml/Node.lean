import PathLock.Yaml.Token.Lexer
/-!
# YAML documents

The nodes of a document, with aliases left in place, and the nodes that anchors stand for.

* `Node.parse?`, `Node.blockItems?` and their companions: collections from tokens.
* `Document.read?`: the one document that a text holds, possibly empty.
* `Document.target?`: the node that an alias stands for.

Anchors are numbered by the distinct names seen before them. An anchor name that is used again takes
a new number, which the next new name takes too; the node that started last then stands for both.
-/

namespace PathLock.Yaml

/-- A node of a document. -/
inductive Node
  | scalar (tag : Option Tag) (style : Style) (text : String)
  | sequence (tag : Option Tag) (items : List Node)
  | mapping (tag : Option Tag) (entries : List (Node × Node))
  | alias (number : Nat)
deriving Repr, Inhabited

/-- The node that is read where nothing is written. -/
def Node.blank : Node := .scalar none .plain ""

/-- The node an anchor stands for. The order tells which nodes started earlier. -/
structure Anchored where
  number : Nat
  order : Nat
  node : Node
deriving Repr

/-- The state of reading nodes: the tokens left, the tag handles in force, and the anchors. -/
structure Reading where
  tokens : List Token
  handles : List (String × Tag) := []
  /-- The anchor names with their numbers, each name once. -/
  names : List (String × Nat) := []
  /-- How many anchored nodes have started. -/
  started : Nat := 0
  anchored : List Anchored := []

/-- A step of reading, which may fail. -/
abbrev Parse (α : Type) := StateT Reading Option α

namespace Parse

/-- The next token. -/
def peek : Parse (Option Token) := do return (← get).tokens.head?

/-- Goes on to the token after the next. -/
def skip : Parse Unit := modify fun r => { r with tokens := r.tokens.tail }

/-- Fails. -/
def fail {α : Type} : Parse α := fun _ => none

/-- Whether the next token is the given one, which is then skipped. -/
def accept (token : Token) : Parse Bool := do
  if (← peek) == some token then
    skip
    return true
  else return false

/-- Whether a node is missing, since one of the given tokens comes next. -/
def missingBefore (tokens : List Token) : Parse Bool := do
  match ← peek with
  | some token => return tokens.contains token
  | none => return false

end Parse

open Parse

/-! ## Properties -/

/-- Reads the anchor and the tag before a node, in either order. -/
def properties : Parse (Option String × Option (String × Tag)) := do
  match ← peek with
  | some (.anchor name) =>
    skip
    match ← peek with
    | some (.tag handle suffix) =>
      skip
      return (some name, some (handle, suffix))
    | _ => return (some name, none)
  | some (.tag handle suffix) =>
    skip
    match ← peek with
    | some (.anchor name) =>
      skip
      return (some name, some (handle, suffix))
    | _ => return (none, some (handle, suffix))
  | _ => return (none, none)

/-- The tag written by a handle and a suffix. The handle must be known, unless it is empty. -/
def expandTag : Option (String × Tag) → Parse (Option Tag)
  | none => return none
  | some (handle, suffix) => do
    if handle = "" then return some suffix
    else
      match (← get).handles.lookup handle with
      | some stem => return some (stem ++ suffix)
      | none => fail

/-- Numbers the anchor of a node that starts here. -/
def startAnchor : Option String → Parse (Option (Nat × Nat))
  | none => return none
  | some name => do
    let r ← get
    let number := r.names.length
    set { r with
      names := (name, number) :: r.names.filter fun entry => entry.1 ≠ name
      started := r.started + 1 }
    return some (number, r.started)

/-- Notes the node that an anchor stands for. -/
def finishAnchor (anchor : Option (Nat × Nat)) (node : Node) : Parse Node := do
  match anchor with
  | none => return node
  | some (number, order) =>
    modify fun r => { r with anchored := ⟨number, order, node⟩ :: r.anchored }
    return node

/-- Reads an alias of an anchor seen before. -/
def aliasOf (name : String) : Parse Node := do
  match (← get).names.lookup name with
  | some number => return .alias number
  | none => fail

/-! ## Nodes -/

namespace Node

mutual

/-- Reads a node. Block collections may start here if `block`, and a sequence that is not indented if
`flat`. The first argument bounds the depth of the reading. -/
def parse? (block flat : Bool) : Nat → Parse Node
  | 0 => fail
  | fuel + 1 => do
    if let some (.alias name) ← peek then
      skip
      aliasOf name
    else
      let (anchor, tag) ← properties
      let tag ← expandTag tag
      let opened ← startAnchor anchor
      finishAnchor opened (← content? block flat (anchor.isSome || tag.isSome) tag fuel)

/-- Reads what a node consists of after its properties. It may be missing after a property. -/
def content? (block flat mayBeMissing : Bool) (tag : Option Tag) : Nat → Parse Node
  | 0 => fail
  | fuel + 1 => do
    match ← peek with
    | some (.scalar style text) =>
      skip
      return .scalar tag style text
    | some .flowSequenceStart =>
      skip
      return .sequence tag (← flowItems? true fuel)
    | some .flowMappingStart =>
      skip
      return .mapping tag (← flowEntries? true fuel)
    | some .blockSequenceStart =>
      if block then
        skip
        return .sequence tag (← blockItems? fuel)
      else if mayBeMissing then return .scalar tag .plain ""
      else fail
    | some .blockMappingStart =>
      if block then
        skip
        return .mapping tag (← blockEntries? fuel)
      else if mayBeMissing then return .scalar tag .plain ""
      else fail
    | some .blockEntry =>
      if flat then return .sequence tag (← flatItems? fuel)
      else if mayBeMissing then return .scalar tag .plain ""
      else fail
    | _ => if mayBeMissing then return .scalar tag .plain "" else fail

/-- Reads the items of a block sequence. -/
def blockItems? : Nat → Parse (List Node)
  | 0 => fail
  | fuel + 1 => do
    if ← accept .blockEntry then
      let item ← if ← missingBefore [.blockEntry, .blockEnd] then pure blank
        else parse? true false fuel
      return item :: (← blockItems? fuel)
    else if ← accept .blockEnd then return []
    else fail

/-- Reads the items of a sequence that is not indented. -/
def flatItems? : Nat → Parse (List Node)
  | 0 => fail
  | fuel + 1 => do
    if ← accept .blockEntry then
      let item ← if ← missingBefore [.blockEntry, .key, .value, .blockEnd] then pure blank
        else parse? true false fuel
      return item :: (← flatItems? fuel)
    else return []

/-- Reads the entries of a block mapping. -/
def blockEntries? : Nat → Parse (List (Node × Node))
  | 0 => fail
  | fuel + 1 => do
    if ← accept .key then
      let key ← if ← missingBefore [.key, .value, .blockEnd] then pure blank
        else parse? true true fuel
      let value ← if ← accept .value then
          if ← missingBefore [.key, .value, .blockEnd] then pure blank
          else parse? true true fuel
        else pure blank
      return (key, value) :: (← blockEntries? fuel)
    else if ← accept .blockEnd then return []
    else fail

/-- Reads the items of a sequence in brackets. An item that is a single entry with a key is a
mapping. -/
def flowItems? (first : Bool) : Nat → Parse (List Node)
  | 0 => fail
  | fuel + 1 => do
    if ← accept .flowSequenceEnd then return []
    else if !first && !(← accept .flowEntry) then fail
    else if ← accept .key then
      let item ← flowPair? fuel
      return item :: (← flowItems? false fuel)
    else if ← accept .flowSequenceEnd then return []
    else
      let item ← parse? false false fuel
      return item :: (← flowItems? false fuel)

/-- Reads the rest of a single entry among the items of a sequence in brackets. Where the key is
missing, the token that comes instead of it is passed over. -/
def flowPair? : Nat → Parse Node
  | 0 => fail
  | fuel + 1 => do
    let key ← if ← missingBefore [.value, .flowEntry, .flowSequenceEnd] then do
        skip
        pure blank
      else parse? false false fuel
    let value ← if ← accept .value then
        if ← missingBefore [.flowEntry, .flowSequenceEnd] then pure blank
        else parse? false false fuel
      else pure blank
    return .mapping none [(key, value)]

/-- Reads the entries of a mapping in brackets. -/
def flowEntries? (first : Bool) : Nat → Parse (List (Node × Node))
  | 0 => fail
  | fuel + 1 => do
    if ← accept .flowMappingEnd then return []
    else if !first && !(← accept .flowEntry) then fail
    else if ← accept .key then
      let key ← if ← missingBefore [.value, .flowEntry, .flowMappingEnd] then pure blank
        else parse? false false fuel
      let value ← if ← accept .value then
          if ← missingBefore [.flowEntry, .flowMappingEnd] then pure blank
          else parse? false false fuel
        else pure blank
      return (key, value) :: (← flowEntries? false fuel)
    else if ← accept .flowMappingEnd then return []
    else
      let key ← parse? false false fuel
      return (key, blank) :: (← flowEntries? false fuel)

end

end Node

/-! ## Documents -/

/-- A document: its node, unless the text is empty, and the nodes with anchors. -/
structure Document where
  root : Option Node
  anchored : List Anchored := []

namespace Document

/-- The tag handles that need no directive. -/
def standardHandles : List (String × Tag) := [("!", .bang), ("!!", .coreStem)]

/-- Reads directives: at most one version, which must be 1.1 or 1.2, and tag handles, each at most
once. The first argument is the number of tokens that may be directives. -/
def directives? : Nat → Bool → List (String × Tag) → Parse (Bool × List (String × Tag))
  | 0, hasVersion, handles => return (hasVersion, handles)
  | fuel + 1, hasVersion, handles => do
    match ← peek with
    | some (.version major minor) =>
      skip
      if hasVersion ∨ major ≠ 1 ∨ (minor ≠ 1 ∧ minor ≠ 2) then fail
      else directives? fuel true handles
    | some (.tagHandle handle stem) =>
      skip
      if (handles.lookup handle).isSome then fail
      else directives? fuel hasVersion ((handle, stem) :: handles)
    | _ => return (hasVersion, handles)

/-- Whether a document without content ends here. -/
def contentMissing : Parse Bool := do
  match ← peek with
  | none => return true
  | some (.version _ _) => return true
  | some (.tagHandle _ _) => return true
  | some .documentStart => return true
  | some .documentEnd => return true
  | _ => return false

/-- Reads the node of the first document, if there is a document. -/
def root? : Parse (Option Node) := do
  let count := (← get).tokens.length
  if count = 0 then return none
  else
    let (hasVersion, handles) ← directives? count false []
    modify fun r => { r with handles := handles ++ standardHandles }
    if ← accept .documentStart then
      if ← contentMissing then return some .blank
      else return some (← Node.parse? true false (4 * count + 4))
    else if hasVersion || !handles.isEmpty then fail
    else return some (← Node.parse? true false (4 * count + 4))

/-- Reads a text that holds one document or none. -/
def read? (text : String) : Option Document := do
  let chars := text.toList
  if chars.all isAllowed then
    let (root, r) ← root?.run { tokens := ← Token.read? (unifyBreaks chars) }
    if r.tokens.all (· == .documentEnd) then return { root, anchored := r.anchored } else none
  else none

/-- The node with an anchor of the given number that started last. -/
def target? (d : Document) (number : Nat) : Option Node :=
  ((d.anchored.filter fun a => a.number == number).foldl (fun best a =>
    match best with
    | some b => if b.order < a.order then some a else best
    | none => some a) none).map (·.node)

end Document

end PathLock.Yaml
