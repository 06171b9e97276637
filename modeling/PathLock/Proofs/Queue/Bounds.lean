import Mathlib.Algebra.Group.Nat.Defs
import PathLock.Proofs.Queue.Contents

/-!
# The queue stays inside of its heap

The operations of the queue once more, with everything checked that could go wrong. They answer with
nothing as soon as a position outside of the heap is read or exchanged, or the last position of an
empty heap is asked for, or a node is still on the move after a number of rounds that is logarithmic
in the size of the heap. From a well-formed queue none of this happens, and the answers are those of
the operations without checks: `remove?_eq`, `push?_eq`.
-/

namespace PathLock.ExpiryQueue

variable {q : ExpiryQueue} {i j p rounds : ℕ} {id : Handle} {due : Instant}

/-! ## Checked operations -/

/-- The instant of the node at a position, which must be in the heap. -/
def dueAt? (q : ExpiryQueue) (i : ℕ) : Option Instant := (q.heap[i]?).map Expiring.due

/-- The last position of a heap, which must not be empty. -/
def last? (heap : Array Expiring) : Option ℕ := if heap.size = 0 then none else some (heap.size - 1)

/-- Records where the node at a position is, which must be in the heap. -/
def place? (q : ExpiryQueue) (i : ℕ) : Option ExpiryQueue := do
  let entry ← q.heap[i]?
  return { q with positions := q.positions.insert entry.id i }

/-- Exchanges the nodes at two positions of the heap, and leaves the table as it is. -/
def exchange? (q : ExpiryQueue) (i j : ℕ) : Option ExpiryQueue :=
  if i < q.heap.size ∧ j < q.heap.size then some { q with heap := q.heap.swapIfInBounds i j }
  else none

/-- Exchanges the nodes at two positions of the heap. -/
def swap? (q : ExpiryQueue) (i j : ℕ) : Option ExpiryQueue := do
  (← (← q.exchange? i j).place? i).place? j

/-- Moves a node up while it expires before its parent, at most so many rounds. -/
def siftUp? : ℕ → ExpiryQueue → ℕ → Option ExpiryQueue
  | 0, _, _ => none
  | rounds + 1, q, pos =>
    if pos = 0 then some q
    else do
      if (← q.dueAt? pos) < (← q.dueAt? ((pos - 1) / 2)) then
        siftUp? rounds (← q.swap? pos ((pos - 1) / 2)) ((pos - 1) / 2)
      else return q

/-- The position below `pos` whose node expires first. The left one must be in the heap, the right
one need not be. -/
def firstChild? (q : ExpiryQueue) (pos : ℕ) : Option ℕ :=
  if 2 * pos + 2 < q.heap.size then do
    if (← q.dueAt? (2 * pos + 2)) < (← q.dueAt? (2 * pos + 1)) then return 2 * pos + 2
    else return 2 * pos + 1
  else some (2 * pos + 1)

/-- Moves a node down while one below it expires before it, at most so many rounds. -/
def siftDown? : ℕ → ExpiryQueue → ℕ → Option (ExpiryQueue × ℕ)
  | 0, _, _ => none
  | rounds + 1, q, pos =>
    if q.heap.size ≤ 2 * pos + 1 then some (q, pos)
    else do
      let child ← q.firstChild? pos
      if (← q.dueAt? child) < (← q.dueAt? pos) then siftDown? rounds (← q.swap? pos child) child
      else return (q, pos)

/-- The number of levels of the heap, and so of the rounds in which a node finds its place. -/
def levels (q : ExpiryQueue) : ℕ := q.heap.size.log2 + 1

/-- Restores the order around a position whose node was replaced. -/
def settle? (q : ExpiryQueue) (pos : ℕ) : Option ExpiryQueue := do
  let (sunk, final) ← q.siftDown? q.levels pos
  if final = pos then sunk.siftUp? q.levels pos else return sunk

/-- Shortens the heap by the node at a position. The last node takes its place. -/
def fill? (q : ExpiryQueue) (pos : ℕ) : Option ExpiryQueue := do
  let last ← last? q.heap
  let filled ← if pos = last then some q else do (← q.exchange? pos last).place? pos
  return { filled with heap := filled.heap.pop }

/-- Takes a node out, and tells whether it was queued. -/
def remove? (q : ExpiryQueue) (id : Handle) : Option (Bool × ExpiryQueue) :=
  match q.positions[id]? with
  | none => some (false, q)
  | some pos => do
    let shrunk ← ({ q with positions := q.positions.erase id } : ExpiryQueue).fill? pos
    if pos < shrunk.heap.size then return (true, ← shrunk.settle? pos) else return (true, shrunk)

/-- Queues a node to expire at an instant, in place of any earlier entry for it. -/
def push? (q : ExpiryQueue) (id : Handle) (due : Instant) : Option ExpiryQueue := do
  let q := (← q.remove? id).2
  let heap := q.heap.push ⟨due, id⟩
  let last ← last? heap
  let q : ExpiryQueue := { heap, positions := q.positions.insert id last }
  q.siftUp? q.levels last

/-! ## Steps inside of the heap -/

theorem dueAt?_of_lt (hi : i < q.heap.size) : q.dueAt? i = some q.heap[i].due := by
  unfold dueAt?
  rw [Array.getElem?_eq_getElem hi]
  rfl

theorem before_eq_decide (hi : i < q.heap.size) (hj : j < q.heap.size) :
    q.before i j = decide (q.heap[i].due < q.heap[j].due) := by
  unfold before
  rw [Array.getElem?_eq_getElem hi, Array.getElem?_eq_getElem hj]

theorem not_before_of_size_le (hi : q.heap.size ≤ i) : ¬ q.before i j :=
  fun h => absurd (lt_size_of_before h) (Nat.not_lt.2 hi)

theorem place?_eq (hi : i < q.heap.size) : q.place? i = some (q.place i) := by
  unfold place? place
  rw [Array.getElem?_eq_getElem hi]
  rfl

theorem exchange?_eq (hi : i < q.heap.size) (hj : j < q.heap.size) :
    q.exchange? i j = some { q with heap := q.heap.swapIfInBounds i j } := if_pos ⟨hi, hj⟩

theorem swap?_eq (hi : i < q.heap.size) (hj : j < q.heap.size) :
    q.swap? i j = some (q.swap i j) := by
  unfold swap? swap
  rw [exchange?_eq hi hj, Option.bind_eq_bind, Option.bind_some, place?_eq (by simpa using hi),
    Option.bind_some, place?_eq (by simpa using hj)]

theorem size_swap (q : ExpiryQueue) (i j : ℕ) : (q.swap i j).heap.size = q.heap.size := by
  rw [heap_swap, Array.size_swapIfInBounds]

/-! ## Moving a node -/

/-- The parent of position `p` is at half of its distance from the front, counted from one. -/
theorem siftUp?_eq (hp : p < q.heap.size) (hrounds : p + 1 < 2 ^ rounds) :
    q.siftUp? rounds p = some (q.siftUp p) := by
  induction rounds generalizing q p with
  | zero => omega
  | succ n ih =>
    unfold siftUp? siftUp
    by_cases h0 : p = 0
    · rw [if_pos h0, if_neg fun h => absurd h.1 (by omega)]
    · have hparent : (p - 1) / 2 < q.heap.size := by omega
      have hbefore := before_eq_decide hp hparent
      rw [if_neg h0, dueAt?_of_lt hp, dueAt?_of_lt hparent, swap?_eq hp hparent]
      show (if q.heap[p].due < q.heap[(p - 1) / 2].due then _ else _) = _
      by_cases hlt : q.heap[p].due < q.heap[(p - 1) / 2].due
      · rw [if_pos hlt, if_pos ⟨by omega, hbefore.trans (decide_eq_true hlt)⟩]
        exact ih (by rwa [size_swap]) (by omega)
      · rw [if_neg hlt, if_neg fun h => hlt (of_decide_eq_true (hbefore.symm.trans h.2))]
        rfl

theorem firstChild?_eq (hp : 2 * p + 1 < q.heap.size) :
    q.firstChild? p = some (q.firstChild p) ∧ q.firstChild p < q.heap.size := by
  unfold firstChild? firstChild
  by_cases hright : 2 * p + 2 < q.heap.size
  · rw [if_pos hright, dueAt?_of_lt hright, dueAt?_of_lt hp, before_eq_decide hright hp]
    show (if q.heap[2 * p + 2].due < q.heap[2 * p + 1].due then _ else _) = _ ∧ _
    by_cases hlt : q.heap[2 * p + 2].due < q.heap[2 * p + 1].due
    · rw [if_pos hlt, if_pos (decide_eq_true hlt)]
      exact ⟨rfl, hright⟩
    · rw [if_neg hlt, if_neg fun h => hlt (of_decide_eq_true h)]
      exact ⟨rfl, hp⟩
  · rw [if_neg hright, if_neg (not_before_of_size_le (Nat.not_lt.1 hright))]
    exact ⟨rfl, hp⟩

/-- Each round leads from a position to one at twice its distance from the front. -/
theorem siftDown?_eq (hp : p < q.heap.size) (hrounds : q.heap.size < (p + 1) * 2 ^ rounds) :
    q.siftDown? rounds p = some (q.siftDown p) := by
  induction rounds generalizing q p with
  | zero => omega
  | succ n ih =>
    obtain ⟨_, hchild⟩ := isChild_firstChild (q := q) (p := p)
    unfold siftDown? siftDown
    by_cases hleaf : q.heap.size ≤ 2 * p + 1
    · rw [if_pos hleaf, if_neg (not_before_of_size_le (by omega))]
    · obtain ⟨hfirst, hlt⟩ := firstChild?_eq (Nat.not_le.1 hleaf)
      have hbefore := before_eq_decide hlt hp
      rw [if_neg hleaf, hfirst, Option.bind_eq_bind, Option.bind_some, dueAt?_of_lt hlt,
        dueAt?_of_lt hp, swap?_eq hp hlt]
      show (if q.heap[q.firstChild p].due < q.heap[p].due then _ else _) = _
      by_cases hdue : q.heap[q.firstChild p].due < q.heap[p].due
      · rw [if_pos hdue, if_pos (hbefore.trans (decide_eq_true hdue))]
        refine ih (by rwa [size_swap]) ?_
        rw [size_swap]
        calc q.heap.size < (p + 1) * 2 ^ (n + 1) := hrounds
          _ = (p + 1) * 2 * 2 ^ n := by rw [Nat.pow_succ', Nat.mul_assoc]
          _ ≤ (q.firstChild p + 1) * 2 ^ n := Nat.mul_le_mul_right _ (by omega)
      · rw [if_neg hdue, if_neg fun h => hdue (of_decide_eq_true (hbefore.symm.trans h))]
        rfl

theorem size_lt_two_pow_levels (q : ExpiryQueue) : q.heap.size < 2 ^ q.levels :=
  Nat.lt_log2_self

theorem size_siftDown (q : ExpiryQueue) (p : ℕ) : (q.siftDown p).1.heap.size = q.heap.size := by
  induction q, p using siftDown.induct with
  | case1 q p hb ih => rw [siftDown, if_pos hb, ih, size_swap]
  | case2 q p hb => rw [siftDown, if_neg hb]

theorem settle?_eq (hp : p < q.heap.size) : q.settle? p = some (q.settle p) := by
  have hlevels := q.size_lt_two_pow_levels
  unfold settle? settle
  rw [siftDown?_eq hp (hlevels.trans_le (Nat.le_mul_of_pos_left _ (Nat.succ_pos p)))]
  show (if (q.siftDown p).2 = p then _ else _) = some (if (q.siftDown p).2 = p then _ else _)
  by_cases hstays : (q.siftDown p).2 = p
  · rw [if_pos hstays, if_pos hstays, siftUp?_eq (by rwa [size_siftDown]) (by omega)]
  · rw [if_neg hstays, if_neg hstays]
    rfl

/-! ## The two operations -/

theorem fill?_eq (hp : p < q.heap.size) : q.fill? p = some (q.fill p) := by
  have hlast : last? q.heap = some (q.heap.size - 1) := if_neg (by omega)
  unfold fill? fill
  rw [hlast, Option.bind_eq_bind, Option.bind_some]
  by_cases h : p = q.heap.size - 1
  · simp only [if_pos h]
    rfl
  · simp only [if_neg h]
    rw [exchange?_eq hp (by omega), Option.bind_eq_bind, Option.bind_some,
      place?_eq (by simpa using hp)]
    rfl

/-- The table holds positions in the heap only. -/
theorem remove?_eq (h : Placed q) (id : Handle) : q.remove? id = some (q.remove id) := by
  unfold remove? remove
  cases hpos : q.positions[id]? with
  | none => rfl
  | some pos =>
    have hlt := lt_size_of_idAt ((h id pos).1 hpos)
    dsimp only
    rw [fill?_eq (q := { q with positions := q.positions.erase id }) hlt, Option.bind_eq_bind,
      Option.bind_some]
    unfold removeAt
    dsimp only
    split_ifs with hsize
    · rw [settle?_eq hsize]
      rfl
    · rfl

theorem push?_eq (h : Placed q) (id : Handle) (due : Instant) :
    q.push? id due = some (q.push id due) := by
  have hlast : ∀ heap : Array Expiring, last? (heap.push ⟨due, id⟩) = some heap.size := by
    intro heap
    unfold last?
    rw [Array.size_push, if_neg (Nat.succ_ne_zero _), Nat.add_sub_cancel]
  unfold push? push erase
  rw [remove?_eq h, Option.bind_eq_bind, Option.bind_some]
  generalize (q.remove id).2 = r
  dsimp only
  rw [hlast, Option.bind_eq_bind, Option.bind_some]
  generalize hpushed : (⟨r.heap.push ⟨due, id⟩, r.positions.insert id r.heap.size⟩ :
    ExpiryQueue) = pushed
  have hsize : pushed.heap.size = r.heap.size + 1 := by rw [← hpushed, Array.size_push]
  exact siftUp?_eq (by omega) (hsize ▸ pushed.size_lt_two_pow_levels)

end PathLock.ExpiryQueue
