import Std.Data.TreeMap
import PathLock.Path
import PathLock.Lock.Details
import PathLock.Lock.Slots
/-!
# The index of locked names

A node exists for every name that is locked or has a locked name below it. It counts the locks at or
below it and goes away when the count is zero. There are no links between nodes: levels above are
read off the name.

* `NodeIndex.admits`: whether a new lock is compatible with the locks that are there.
* `NodeIndex.retainAll`, `NodeIndex.releaseAll`: count a lock in or out at its root and at every
  level above.
-/

namespace PathLock

/-- A name in use. -/
structure Node where
  /-- What is locked here. The root is the node's name also where nothing is locked. -/
  details : Details
  /-- The token of the lock here. Without one the node only anchors locks below it. -/
  token : Option String := none
  /-- The number of locks at or below the name. -/
  refs : Nat
  /-- When the lock here expires, if it does. -/
  expiry : Option Instant := none
  /-- Whether the lock here is claimed. -/
  held : Bool := false
deriving DecidableEq, Repr

/-- The node for a name with one lock below it and none at it. -/
def Node.anchor (name : String) : Node := { details := .anchor name, refs := 1 }

/-- The nodes and the names they are found by. -/
structure NodeIndex where
  nodes : Slots Node := {}
  byName : Std.TreeMap String Handle := {}

namespace NodeIndex

/-- The handle of the node at exactly this name. -/
def find? (index : NodeIndex) (name : String) : Option Handle := index.byName[name]?

/-- The node that a handle names. -/
def node? (index : NodeIndex) (id : Handle) : Option Node := index.nodes.get? id

/-- The node at exactly this name. -/
def nodeAt? (index : NodeIndex) (name : String) : Option Node :=
  (index.find? name).bind index.node?

/-- Changes the node that a handle names. -/
def modify (index : NodeIndex) (id : Handle) (f : Node → Node) : NodeIndex :=
  { index with nodes := index.nodes.modify id f }

/-- The number of nodes. -/
def size (index : NodeIndex) : Nat := index.byName.size

/-- Whether the node at a level stands in the way of a new lock. At the root of the new lock any lock
does, and for a lock of infinite depth any node, since it tells of a lock below. Above the root only
a lock of infinite depth does. -/
def blocks (index : NodeIndex) (zeroDepth : Bool) (level : String) (first : Bool) : Bool :=
  match index.nodeAt? level with
  | none => false
  | some node =>
    if first then node.token.isSome || !zeroDepth
    else node.token.isSome && !node.details.zeroDepth

/-- Whether a lock of the given depth at `root` is compatible with every lock that is there. -/
def admits (index : NodeIndex) (root : String) (zeroDepth : Bool) : Bool :=
  !(Path.walk root (index.blocks zeroDepth)).2

/-- Puts a fresh node at a name. -/
def addAnchor (index : NodeIndex) (name : String) : Handle × NodeIndex :=
  let (id, nodes) := index.nodes.insert (.anchor name)
  (id, { nodes, byName := index.byName.insert name id })

/-- Counts one more lock at a name, with a fresh node if there is none. -/
def retain (index : NodeIndex) (name : String) : Handle × NodeIndex :=
  match index.find? name with
  | some id =>
    match index.node? id with
    | some _ => (id, index.modify id fun node => { node with refs := node.refs + 1 })
    | none => index.addAnchor name
  | none => index.addAnchor name

/-- Counts one more lock at `root` and at every level above. Answers with the node at `root`. -/
def retainAll (index : NodeIndex) (root : String) : Handle × NodeIndex :=
  let (target, index) := index.retain root
  (target, (Path.ancestors root).tail.foldl (fun index level => (index.retain level).2) index)

/-- Takes the node at a name away. -/
def drop (index : NodeIndex) (name : String) (id : Handle) : NodeIndex :=
  { nodes := index.nodes.erase id, byName := index.byName.erase name }

/-- Counts one lock less at a name, and takes the node away with the last. -/
def release (index : NodeIndex) (name : String) : NodeIndex :=
  match index.find? name with
  | none => index
  | some id =>
    match index.node? id with
    | none => index.drop name id
    | some node =>
      if node.refs - 1 = 0 then index.drop name id
      else index.modify id fun node => { node with refs := node.refs - 1 }

/-- Counts one lock less at `root` and at every level above. -/
def releaseAll (index : NodeIndex) (root : String) : NodeIndex :=
  (Path.ancestors root).foldl release index

end NodeIndex

end PathLock
