import Std.Data.TreeMap
import PathLock.Time.Instant
import PathLock.Lock.Slots
/-!
# The queue of expiring locks

A binary heap of nodes, earliest expiry first, with a table of the position of each node, so that any
node can be taken out at once.

* `ExpiryQueue.push`, `ExpiryQueue.remove`, `ExpiryQueue.peek?`.
-/

namespace PathLock

/-- A node and the instant at which its lock expires. -/
structure Expiring where
  due : Instant
  id : Handle
deriving DecidableEq, Repr

/-- The heap and the position of each node in it. -/
structure ExpiryQueue where
  heap : Array Expiring := #[]
  positions : Std.TreeMap Handle Nat := {}

namespace ExpiryQueue

/-- The number of queued nodes. -/
def size (q : ExpiryQueue) : Nat := q.heap.size

/-- The node that expires first. -/
def peek? (q : ExpiryQueue) : Option Expiring := q.heap[0]?

/-- Records where the node at position `i` is. -/
def place (q : ExpiryQueue) (i : Nat) : ExpiryQueue :=
  match q.heap[i]? with
  | some entry => { q with positions := q.positions.insert entry.id i }
  | none => q

/-- Exchanges the nodes at two positions. -/
def swap (q : ExpiryQueue) (i j : Nat) : ExpiryQueue :=
  (({ q with heap := q.heap.swapIfInBounds i j } : ExpiryQueue).place i).place j

@[simp] theorem heap_place (q : ExpiryQueue) (i : Nat) : (q.place i).heap = q.heap := by
  unfold place; split <;> rfl

@[simp] theorem heap_swap (q : ExpiryQueue) (i j : Nat) :
    (q.swap i j).heap = q.heap.swapIfInBounds i j := by
  simp [swap]

/-- Whether the node at position `i` expires strictly before the one at `j`. -/
def before (q : ExpiryQueue) (i j : Nat) : Bool :=
  match q.heap[i]?, q.heap[j]? with
  | some a, some b => decide (a.due < b.due)
  | _, _ => false

/-- Moves a node up while it expires before its parent. -/
def siftUp (q : ExpiryQueue) (pos : Nat) : ExpiryQueue :=
  if 0 < pos ∧ q.before pos ((pos - 1) / 2) then siftUp (q.swap pos ((pos - 1) / 2)) ((pos - 1) / 2)
  else q
termination_by pos

/-- The position below `pos` whose node expires first, the left one of two that tie. -/
def firstChild (q : ExpiryQueue) (pos : Nat) : Nat :=
  if q.before (2 * pos + 2) (2 * pos + 1) then 2 * pos + 2 else 2 * pos + 1

theorem pos_lt_firstChild (q : ExpiryQueue) (pos : Nat) : pos < q.firstChild pos := by
  unfold firstChild; split <;> omega

theorem lt_size_of_before {q : ExpiryQueue} {i j : Nat} (h : q.before i j = true) :
    i < q.heap.size := by
  unfold before at h
  split at h
  · rename_i a b hi hj
    exact (Array.getElem?_eq_some_iff.1 hi).1
  · exact absurd h (by simp)

/-- Moves a node down while one below it expires before it. Answers also with the position at which
the node ends. -/
def siftDown (q : ExpiryQueue) (pos : Nat) : ExpiryQueue × Nat :=
  if q.before (q.firstChild pos) pos then
    siftDown (q.swap pos (q.firstChild pos)) (q.firstChild pos)
  else (q, pos)
termination_by q.heap.size - pos
decreasing_by
  rename_i h
  have h₁ := lt_size_of_before h
  have h₂ := pos_lt_firstChild q pos
  simp only [heap_swap, Array.size_swapIfInBounds]
  omega

/-- Restores the order around a position whose node was replaced. -/
def settle (q : ExpiryQueue) (pos : Nat) : ExpiryQueue :=
  let (sunk, final) := q.siftDown pos
  if final = pos then sunk.siftUp pos else sunk

/-- Shortens the heap by the node at a position. The last node takes its place. -/
def fill (q : ExpiryQueue) (pos : Nat) : ExpiryQueue :=
  let last := q.heap.size - 1
  let filled : ExpiryQueue :=
    if pos = last then q
    else ({ q with heap := q.heap.swapIfInBounds pos last } : ExpiryQueue).place pos
  { filled with heap := filled.heap.pop }

/-- Takes out the node at a position, and restores the order. -/
def removeAt (q : ExpiryQueue) (pos : Nat) : ExpiryQueue :=
  let shrunk := q.fill pos
  if pos < shrunk.heap.size then shrunk.settle pos else shrunk

/-- Takes a node out, and tells whether it was queued. -/
def remove (q : ExpiryQueue) (id : Handle) : Bool × ExpiryQueue :=
  match q.positions[id]? with
  | none => (false, q)
  | some pos => (true, ({ q with positions := q.positions.erase id } : ExpiryQueue).removeAt pos)

/-- Takes a node out if it is queued. -/
def erase (q : ExpiryQueue) (id : Handle) : ExpiryQueue := (q.remove id).2

/-- Queues a node to expire at an instant, in place of any earlier entry for it. -/
def push (q : ExpiryQueue) (id : Handle) (due : Instant) : ExpiryQueue :=
  let q := q.erase id
  let last := q.heap.size
  let q : ExpiryQueue := { heap := q.heap.push ⟨due, id⟩, positions := q.positions.insert id last }
  q.siftUp last

end ExpiryQueue

end PathLock
