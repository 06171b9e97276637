import PathLock.Lock.NodeIndex
import PathLock.Lock.Registry
import PathLock.Lock.ExpiryQueue
/-!
# The lock table

Exclusive locks on resource names, with tokens, expiry and claims. Every operation that is given an
instant first drops the locks that have expired by then; nothing else moves time.

* `LockTable.create`, `LockTable.refresh`, `LockTable.unlock`, `LockTable.delete`: the life of a lock.
* `LockTable.confirm`, `LockTable.release`: claims, which hold locks so that they can neither expire
  nor be claimed again, refreshed or unlocked.
* `LockTable.lockAt`, `LockTable.countAt`, `LockTable.size`, `LockTable.isEmpty`: what is locked.

An operation answers with a value or an error and with the table afterwards.
-/

namespace PathLock

/-- A lock held by a claim. The token tells it from a later lock on the same node. -/
structure ClaimedLock where
  id : Handle
  token : String
deriving DecidableEq, Repr

/-- The locks held by a successful confirm, in the order in which they were claimed. -/
structure Claim where
  locks : List ClaimedLock
deriving DecidableEq, Repr

/-- The tokens of the claimed locks. -/
def Claim.tokens (claim : Claim) : List String := claim.locks.map (·.token)

/-- The nodes, the tokens that lead to them, and the queue of the locks that may expire: those with
an expiry that no claim holds. -/
structure LockTable where
  index : NodeIndex := {}
  registry : Registry
  queue : ExpiryQueue := {}

namespace LockTable

/-- The table without locks whose first token follows `seed`. -/
def empty (seed : UInt64) : LockTable := { registry := { counter := seed } }

/-! ## Removal and expiry -/

/-- Removes the lock at a node: its token, its place in the queue and its count in the index. -/
def remove (t : LockTable) (id : Handle) : LockTable :=
  let t := { t with queue := t.queue.erase id }
  match t.index.node? id with
  | none => t
  | some node =>
    { t with
      registry := match node.token with
        | some token => t.registry.erase token
        | none => t.registry
      index := (t.index.modify id fun node =>
        { node with token := none, held := false, expiry := none }).releaseAll node.details.root }

/-- Removes locks from the front of the queue while they expire at or before `now`, at most as many
as the first argument allows. -/
def sweepAtMost : Nat → Instant → LockTable → LockTable
  | 0, _, t => t
  | n + 1, now, t =>
    match t.queue.peek? with
    | none => t
    | some entry => if now < entry.due then t else sweepAtMost n now (t.remove entry.id)

/-- Removes every lock that has expired by `now`. Each removal takes one node out of the queue, so
its size bounds their number. -/
def sweep (t : LockTable) (now : Instant) : LockTable := sweepAtMost t.queue.size now t

/-! ## Access -/

/-- The node that a token leads to. -/
def byToken (t : LockTable) (token : String) : Except LockError Handle :=
  match t.registry.find? token with
  | some id => .ok id
  | none => .error .noSuchLock

/-- The node of a handle that is expected to name one. -/
def node (t : LockTable) (id : Handle) : Except LockError Node :=
  match t.index.node? id with
  | some node => .ok node
  | none => .error (.internal .missingNode)

/-- Changes a node. -/
def modify (t : LockTable) (id : Handle) (f : Node → Node) : LockTable :=
  { t with index := t.index.modify id f }

/-- Queues a node to expire, if it does. -/
def schedule (t : LockTable) (id : Handle) : Option Instant → LockTable
  | some due => { t with queue := t.queue.push id due }
  | none => t

/-- The node that a condition claims for a clean name: the lock it presents must not be held and must
cover the name. -/
def matchCondition (t : LockTable) (name : String) (condition : Condition) : Option Handle := do
  let id ← t.registry.find? condition.token
  let node ← t.index.node? id
  if node.held then none
  else if name = node.details.root then some id
  else if node.details.zeroDepth then none
  else if Path.below node.details.root name then some id
  else none

/-- The node that the first matching condition claims for a clean name. -/
def lookup (t : LockTable) (name : String) (conditions : List Condition) : Option Handle :=
  conditions.findSome? (t.matchCondition name)

/-! ## Holding -/

/-- Holds the lock at a node and takes it out of the queue. -/
def hold (t : LockTable) (id : Handle) : Except LockError LockTable := do
  let node ← t.node id
  if node.held then .error (.internal (.alreadyHeld node.details.root))
  else
    let t := t.modify id fun node => { node with held := true }
    .ok { t with queue := t.queue.erase id }

/-- Lets the lock at a node go and queues it with the expiry it had. -/
def unhold (t : LockTable) (id : Handle) : Except LockError LockTable := do
  let node ← t.node id
  if node.held then
    .ok ((t.modify id fun node => { node with held := false }).schedule id node.expiry)
  else .error (.internal (.notHeld node.details.root))

/-- Lets a lock go if that is possible. -/
def undoHold (t : LockTable) (id : Handle) : LockTable :=
  match t.unhold id with
  | .ok t => t
  | .error _ => t

/-- Holds the locks at nodes in turn. If one cannot be held, those in `taken` and those held before
it are let go again. -/
def holdFrom (taken : List Handle) : List Handle → LockTable → Except LockError Unit × LockTable
  | [], t => (.ok (), t)
  | id :: rest, t =>
    match t.hold id with
    | .ok t => holdFrom (taken ++ [id]) rest t
    | .error e => (.error e, taken.foldl undoHold t)

/-- Holds the locks at all nodes or at none. -/
def holdAll (t : LockTable) (ids : List Handle) : Except LockError Unit × LockTable :=
  holdFrom [] ids t

/-- Whether a node still carries the lock with this token. -/
def stillLockedBy (t : LockTable) (id : Handle) (token : String) : Bool :=
  match t.index.node? id with
  | some node => node.token == some token
  | none => false

/-! ## The life of a lock -/

/-- Creates a lock and answers with its token. The root is brought to its clean form. -/
def create (t : LockTable) (now : Instant) (details : Details) :
    Except LockError String × LockTable :=
  let t := t.sweep now
  let details := { details with root := Path.clean details.root }
  if t.index.admits details.root details.zeroDepth then
    let (id, index) := t.index.retainAll details.root
    let (token, registry) := t.registry.issue
    let t : LockTable := { t with index, registry := registry.register token id }
    let expiry := details.duration.expiry now
    match t.node id with
    | .error e => (.error e, t)
    | .ok _ =>
      let t := t.modify id fun node =>
        { node with token := some token, details, expiry, held := false }
      (.ok token, t.schedule id expiry)
  else (.error .locked, t)

/-- Gives the lock of a token a new timeout that starts now. -/
def refresh (t : LockTable) (now : Instant) (token : String) (duration : Timeout) :
    Except LockError Details × LockTable :=
  let t := t.sweep now
  match do let id ← t.byToken token; return (id, ← t.node id) with
  | .error e => (.error e, t)
  | .ok (id, node) =>
    if node.held then (.error .locked, t)
    else
      let details := { node.details with duration }
      let expiry := duration.expiry now
      let t := t.modify id fun node => { node with details, expiry }
      (.ok details, LockTable.schedule { t with queue := t.queue.erase id } id expiry)

/-- Removes the lock of a token. -/
def unlock (t : LockTable) (now : Instant) (token : String) : Except LockError Unit × LockTable :=
  let t := t.sweep now
  match do let id ← t.byToken token; return (id, ← t.node id) with
  | .error e => (.error e, t)
  | .ok (id, node) => if node.held then (.error .locked, t) else (.ok (), t.remove id)

/-- Removes the lock at exactly this name, held or not. It is no error if there is none. -/
def delete (t : LockTable) (now : Instant) (name : String) : LockTable :=
  let t := t.sweep now
  match t.index.find? (Path.clean name) with
  | none => t
  | some id =>
    match t.index.node? id with
    | some node => if node.token.isSome then t.remove id else t
    | none => t

/-! ## Claims -/

/-- The nodes claimed for names, each node once, empty names apart. -/
def resolve (t : LockTable) (conditions : List Condition) :
    List String → List Handle → Except LockError (List Handle)
  | [], found => .ok found
  | name :: rest, found =>
    if name = "" then t.resolve conditions rest found
    else
      match t.lookup (Path.clean name) conditions with
      | none => .error .confirmationFailed
      | some id => t.resolve conditions rest (if id ∈ found then found else found ++ [id])

/-- The claim on nodes, with the tokens of their locks. -/
def claimOf (t : LockTable) (ids : List Handle) : Except LockError Claim := do
  let locks ← ids.mapM fun id => do
    let node ← t.node id
    return { id, token := node.token.getD "" : ClaimedLock }
  return ⟨locks⟩

/-- Claims the locks that give access to up to two resources. For each name that is not empty, the
first condition with a lock that covers it and is not held is claimed. -/
def confirm (t : LockTable) (now : Instant) (name₀ name₁ : String) (conditions : List Condition) :
    Except LockError Claim × LockTable :=
  let t := t.sweep now
  match t.resolve conditions [name₀, name₁] [] with
  | .error e => (.error e, t)
  | .ok ids =>
    match t.holdAll ids with
    | (.error e, t) => (.error e, t)
    | (.ok (), t) => (t.claimOf ids, t)

/-- Releases claimed locks in turn, those apart that are gone. The first fault is reported. -/
def releaseLocks : List ClaimedLock → LockTable → Except LockError Unit × LockTable
  | [], t => (.ok (), t)
  | lock :: rest, t =>
    if t.stillLockedBy lock.id lock.token then
      match t.unhold lock.id with
      | .ok t => releaseLocks rest t
      | .error e => (.error e, (releaseLocks rest t).2)
    else releaseLocks rest t

/-- Releases a claim, the lock claimed last first. Locks go back to the queue with the expiry they
had. -/
def release (t : LockTable) (claim : Claim) : Except LockError Unit × LockTable :=
  releaseLocks claim.locks.reverse t

/-! ## Discovery -/

/-- The lock at a level of the way up from a name, if it covers the name. -/
def covering (t : LockTable) (depth : Nat) (level : String) : Option LockInfo := do
  let node ← t.index.nodeAt? level
  let token ← node.token
  if 0 < depth && node.details.zeroDepth then none
  else some { token, expiry := node.expiry, details := node.details }

/-- The lock that covers a name: the nearest that is rooted at the name, or above it with infinite
depth. -/
def lockAt (t : LockTable) (now : Instant) (name : String) :
    Except LockError LockInfo × LockTable :=
  let t := t.sweep now
  let levels := (Path.ancestors (Path.clean name)).mapIdx fun depth level => (depth, level)
  match levels.findSome? fun (depth, level) => t.covering depth level with
  | some info => (.ok info, t)
  | none => (.error .noSuchLock, t)

/-- The number of locks, expired ones included that have not been dropped yet. -/
def size (t : LockTable) : Nat := t.registry.size

/-- Whether there are no locks. -/
def isEmpty (t : LockTable) : Bool := t.size == 0

/-- The number of locks that are there at an instant. -/
def countAt (t : LockTable) (now : Instant) : Nat × LockTable :=
  let t := t.sweep now
  (t.size, t)

end LockTable

end PathLock
