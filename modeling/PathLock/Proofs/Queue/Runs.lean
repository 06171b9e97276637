import PathLock.Proofs.Queue.Bounds

/-!
# The queue under any calls

Whatever nodes are queued and removed, in whatever order, from the empty queue on: the queue stands
for the finite map from nodes to instants that the same calls make by overwriting and erasing
(`Keeps`), and no call reads outside of the heap or moves a node without end
(`run_keeps_schedule`).
-/

namespace PathLock

/-- A call that changes a queue. -/
inductive QueueCall
  | push (id : Handle) (due : Instant)
  | remove (id : Handle)
deriving DecidableEq, Repr

/-- When nodes are to expire. -/
abbrev Schedule := Std.TreeMap Handle Instant

/-- The schedule after a call. -/
def Schedule.after (m : Schedule) : QueueCall → Schedule
  | .push id due => m.insert id due
  | .remove id => m.erase id

/-- The schedule that calls make. -/
def Schedule.ofCalls (calls : List QueueCall) : Schedule := calls.foldl Schedule.after {}

namespace ExpiryQueue

variable {q : ExpiryQueue} {m : Schedule} {id : Handle} {due : Instant}

/-- The queue after a call. -/
def after (q : ExpiryQueue) : QueueCall → ExpiryQueue
  | .push id due => q.push id due
  | .remove id => q.erase id

/-- The queue after a call, with everything checked on the way. -/
def after? (q : ExpiryQueue) : QueueCall → Option ExpiryQueue
  | .push id due => q.push? id due
  | .remove id => (q.remove? id).map Prod.snd

/-- The queue that calls make of the empty one. -/
def run (calls : List QueueCall) : ExpiryQueue := calls.foldl after {}

/-- The queue that calls make of the empty one, with everything checked on the way. -/
def run? (calls : List QueueCall) : Option ExpiryQueue := calls.foldlM after? {}

/-- The queue is right in itself and stands for the schedule. -/
structure Keeps (q : ExpiryQueue) (m : Schedule) : Prop where
  /-- No node expires before its parent. -/
  ordered : ∀ i parent entry, 0 < i → q.heap[(i - 1) / 2]? = some parent →
    q.heap[i]? = some entry → parent.due ≤ entry.due
  nodup : (q.heap.toList.map Expiring.id).Nodup
  /-- The table has the position of each queued node and nothing else. -/
  placed : ∀ (id : Handle) (i : ℕ),
    q.positions[id]? = some i ↔ ∃ due, q.heap[i]? = some ⟨due, id⟩
  contents : ∀ id due, ⟨due, id⟩ ∈ q.heap.toList ↔ m[id]? = some due
  size : q.size = m.size
  /-- The answer of a removal. -/
  removes : ∀ id, (q.remove id).1 = m.contains id
  peeks : ∀ entry, q.peek? = some entry →
    m[entry.id]? = some entry.due ∧
      ∀ (id : Handle) due, m[id]? = some due → entry.due ≤ due
  peeks_none : q.peek? = none ↔ m.isEmpty

/-! ## The instants of the nodes -/

theorem WellFormed.after (h : WellFormed q) (call : QueueCall) : WellFormed (q.after call) := by
  cases call with
  | push id due => exact h.push id due
  | remove id => exact h.erase id

theorem after?_eq (h : WellFormed q) (call : QueueCall) :
    q.after? call = some (q.after call) := by
  cases call with
  | push id due => exact push?_eq h.placed id due
  | remove id => exact congrArg (Option.map Prod.snd) (remove?_eq h.placed id)

theorem due?_after (h : WellFormed q) (hm : ∀ id, q.due? id = m[id]?) (call : QueueCall) :
    (q.after call).due? id = (m.after call)[id]? := by
  cases call with
  | push id' due =>
    refine (due?_push h).trans ?_
    show _ = (m.insert id' due)[id]?
    rw [Std.TreeMap.getElem?_insert, ← hm]
    simp only [Std.compare_eq_iff_eq, eq_comm (a := id)]
  | remove id' =>
    refine (due?_erase h).trans ?_
    show _ = (m.erase id')[id]?
    rw [Std.TreeMap.getElem?_erase, ← hm]
    simp only [Std.compare_eq_iff_eq, eq_comm (a := id)]

/-! ## What the schedule tells -/

theorem not_before_iff {i j : ℕ} : ¬ q.before i j ↔
    ∀ a b, q.heap[i]? = some a → q.heap[j]? = some b → b.due ≤ a.due := by
  rw [before_iff]
  constructor
  · intro h a b ha hb
    exact not_lt.1 fun hlt => h ⟨a, b, ha, hb, hlt⟩
  · rintro h ⟨a, b, ha, hb, hlt⟩
    exact not_lt.2 (h a b ha hb) hlt

/-- The nodes in the heap are the keys of the schedule. -/
theorem WellFormed.keys_perm (h : WellFormed q) (hm : ∀ id, q.due? id = m[id]?) :
    (q.heap.toList.map Expiring.id).Perm m.keys := by
  refine (List.perm_ext_iff_of_nodup h.placed.nodup Std.TreeMap.nodup_keys).2 fun id => ?_
  rw [Std.TreeMap.mem_keys, Std.TreeMap.mem_iff_isSome_getElem?, ← hm, Option.isSome_iff_exists,
    List.mem_map]
  simp only [h.placed.due?_eq_some]
  constructor
  · rintro ⟨entry, hmem, rfl⟩
    exact ⟨entry.due, hmem⟩
  · rintro ⟨due, hmem⟩
    exact ⟨_, hmem, rfl⟩

theorem WellFormed.fst_remove (h : WellFormed q) (id : Handle) :
    (q.remove id).1 = (q.due? id).isSome := by
  cases hdue : q.due? id with
  | none =>
    unfold remove
    rw [positions_eq_none h hdue]
    rfl
  | some due =>
    unfold due? at hdue
    obtain ⟨pos, hpos, _⟩ := Option.bind_eq_some_iff.1 hdue
    unfold remove
    rw [hpos]
    rfl

theorem WellFormed.keeps (h : WellFormed q) (hm : ∀ id, q.due? id = m[id]?) : Keeps q m where
  ordered i parent entry hi hparent hentry :=
    not_before_iff.1 (h.ordered i hi) entry parent hentry hparent
  nodup := h.placed.nodup
  placed id i := (h.placed id i).trans idAt_eq_some
  contents id due := by rw [← h.placed.due?_eq_some, hm]
  size := by
    rw [← Std.TreeMap.length_keys, ← (h.keys_perm hm).length_eq, List.length_map]
    rfl
  removes id := by rw [h.fst_remove, hm, Std.TreeMap.contains_eq_isSome_getElem?]
  peeks entry hpeek := by
    simp only [← hm]
    exact peek?_eq_some h hpeek
  peeks_none := by
    rw [Std.TreeMap.isEmpty_iff_forall_not_mem]
    simp only [Std.TreeMap.mem_iff_isSome_getElem?, ← hm]
    constructor
    · intro hpeek id
      rw [peek?_eq_none hpeek]
      exact Bool.false_ne_true
    · intro hnone
      cases hpeek : q.peek? with
      | none => rfl
      | some entry =>
        obtain ⟨hfront, _⟩ := peek?_eq_some h hpeek
        exact absurd (congrArg Option.isSome hfront) (hnone entry.id)

/-! ## Runs -/

theorem foldl_after (h : WellFormed q) (hm : ∀ id, q.due? id = m[id]?) (calls : List QueueCall) :
    calls.foldlM after? q = some (calls.foldl after q) ∧
      Keeps (calls.foldl after q) (calls.foldl Schedule.after m) := by
  induction calls generalizing q m with
  | nil => exact ⟨rfl, h.keeps hm⟩
  | cons call calls ih =>
    obtain ⟨hchecked, hkeeps⟩ := ih (h.after call) fun id => due?_after h hm call
    refine ⟨?_, hkeeps⟩
    rw [List.foldlM_cons, after?_eq h, Option.bind_eq_bind, Option.bind_some]
    exact hchecked

/-- Any calls keep the queue right, and leave in it what they leave in a map. None of their checks
fails on the way. -/
theorem run_keeps_schedule (calls : List QueueCall) :
    run? calls = some (run calls) ∧ Keeps (run calls) (Schedule.ofCalls calls) :=
  foldl_after wellFormed_empty (fun id => by simp [due?]) calls

-- The node at the front is queued anew for later, and another one comes to the front.
example : (run [.push ⟨0, 0⟩ .epoch, .push ⟨1, 0⟩ (Instant.epoch.after 2),
    .push ⟨0, 0⟩ (Instant.epoch.after 9)]).heap.toList.map Expiring.id = [⟨1, 0⟩, ⟨0, 0⟩] := by
  decide +kernel

end ExpiryQueue

end PathLock
