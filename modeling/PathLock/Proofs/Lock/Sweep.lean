import PathLock.Proofs.Lock.Representation

/-!
# What a sweep drops

The loop of a sweep takes locks from the front of the queue until that one has not expired.
`Sweeps` is this loop with nothing to bound its rounds. From a well-formed table it makes one round
for every expired lock and ends in the table without these, whatever the order in which they came
to the front: `WellFormed.sweep_drops_expired`.
-/

namespace PathLock.LockTable

variable {t t' u : LockTable} {ls : List Lock} {lock : Lock} {h k : Handle} {now later : Instant}
  {m n : ℕ}

/-! ## The loop -/

/-- The loop of a sweep leads from one table to the other in this many rounds. -/
inductive Sweeps (now : Instant) : ℕ → LockTable → LockTable → Prop
  | done {t : LockTable} (hnone : ∀ h, ¬ t.Due now h) : Sweeps now 0 t t
  | round {n : ℕ} {t t' : LockTable} {h : Handle} (hdue : t.Due now h)
      (hrest : Sweeps now n (t.remove h) t') : Sweeps now (n + 1) t t'

/-- The table `t'` is `t` without the locks that have expired by `now`. -/
structure Drops (t : LockTable) (now : Instant) (t' : LockTable) : Prop where
  wellFormed : t'.WellFormed
  locks : ∀ lock, lock ∈ t'.locks ↔
    lock ∈ t.locks ∧ ¬ (lock.held = false ∧ ∃ due, lock.expiry = some due ∧ due ≤ now)
  /-- A lock stays on its node, where only the number of locks at or below it can change. -/
  stays : ∀ lock ∈ t'.locks, ∃ h node refs,
    t.Carries h node lock ∧ t'.Carries h { node with refs } lock
  queued : ∀ h due,
    ⟨due, h⟩ ∈ t'.queue.heap.toList ↔ ⟨due, h⟩ ∈ t.queue.heap.toList ∧ now < due
  counter : t'.registry.counter = t.registry.counter

theorem Due.eq (hd : t.Due now h) (hd' : t.Due later k) : h = k := by
  obtain ⟨due, hpeek, _⟩ := hd
  obtain ⟨due', hpeek', _⟩ := hd'
  rw [hpeek, Option.some.injEq, Expiring.mk.injEq] at hpeek'
  exact hpeek'.2

theorem Due.mono (hle : now ≤ later) (hd : t.Due now h) : t.Due later h := by
  obtain ⟨due, hpeek, hdue⟩ := hd
  exact ⟨due, hpeek, hdue.trans hle⟩

theorem Sweeps.eq (hs : Sweeps now m t u) (hs' : Sweeps now n t t') : n = m ∧ t' = u := by
  induction hs generalizing n t' with
  | done hnone =>
    cases hs' with
    | done _ => exact ⟨rfl, rfl⟩
    | round hdue _ => exact absurd hdue (hnone _)
  | round hdue _ ih =>
    cases hs' with
    | done hnone => exact absurd hdue (hnone _)
    | round hdue' hs' =>
      rw [← hdue.eq hdue'] at hs'
      obtain ⟨rfl, heq⟩ := ih hs'
      exact ⟨rfl, heq⟩

/-- Whoever sweeps later does what is left to do. -/
theorem Sweeps.trans (hle : now ≤ later) (hs : Sweeps now m t u) (hs' : Sweeps later n u t') :
    ∃ rounds, Sweeps later rounds t t' := by
  induction hs with
  | done _ => exact ⟨n, hs'⟩
  | round hdue _ ih =>
    obtain ⟨rounds, hrest⟩ := ih hs'
    exact ⟨rounds + 1, .round (hdue.mono hle) hrest⟩

/-- Nothing is left for an earlier sweep. -/
theorem Sweeps.again (hle : now ≤ later) (hs : Sweeps later m t u) : Sweeps now 0 u u := by
  induction hs with
  | done hnone => exact .done fun h hdue => hnone h (hdue.mono hle)
  | round _ _ ih => exact ih

/-! ## Its rounds -/

theorem Holds.countP_of_not_due (ht : Holds t ls) (hnone : ∀ h, ¬ t.Due now h) :
    ls.countP (·.expired now) = 0 :=
  List.countP_eq_zero.2 fun lock hl => by rw [ht.expired_of_not_due hnone hl]; simp

/-- Every round of the loop drops one expired lock. -/
theorem Holds.sweeps (ht : Holds t ls) (hn : t.queue.size ≤ n) :
    Sweeps now (ls.countP (·.expired now)) t (LockTable.sweepAtMost n now t) := by
  induction n generalizing t ls with
  | zero =>
    have hnone : ∀ h, ¬ t.Due now h := fun h => not_due_of_size_eq_zero (Nat.le_zero.1 hn)
    rw [ht.countP_of_not_due hnone]
    exact .done hnone
  | succ n ih =>
    by_cases hdue : ∃ h, t.Due now h
    · obtain ⟨h, hdue⟩ := hdue
      obtain ⟨lock, hl, hf, hexpired, hsize⟩ := ht.exists_of_due hdue
      rw [hdue.sweepAtMost_succ, (List.perm_cons_erase hl).countP_eq, List.countP_cons,
        if_pos hexpired]
      refine .round hdue (ih (ht.remove_mem hl hf) ?_)
      rw [queue_remove]
      omega
    · have hnone := not_exists.1 hdue
      rw [sweepAtMost_of_not_due hnone, ht.countP_of_not_due hnone]
      exact .done hnone

theorem WellFormed.sweeps (hw : t.WellFormed) (now : Instant) :
    Sweeps now (t.locks.countP (·.expired now)) t (t.sweep now) :=
  hw.holds.sweeps (Nat.le_refl _)

/-! ## What it leaves -/

theorem expired_of_due? {due : Instant} (hdue : lock.due? = some due) :
    lock.expired now = decide (due ≤ now) := by
  rw [Bool.eq_iff_iff, Lock.expired_iff, hdue, decide_eq_true_eq]
  simp

theorem WellFormed.holds_sweep (hw : t.WellFormed) (now : Instant) :
    Holds (t.sweep now) (t.locks.filter fun lock => !lock.expired now) :=
  hw.holds.sweepAtMost (Nat.le_refl _)

theorem WellFormed.sweep (hw : t.WellFormed) (now : Instant) : (t.sweep now).WellFormed :=
  (hw.holds_sweep now).wellFormed

theorem WellFormed.mem_locks_sweep (hw : t.WellFormed) :
    lock ∈ (t.sweep now).locks ↔ lock ∈ t.locks ∧ lock.expired now = false := by
  rw [(hw.holds_sweep now).locks_perm.mem_iff, List.mem_filter, Bool.not_eq_true']

/-- A lock that is left is on the node on which it was. -/
theorem WellFormed.carries_sweep (hw : t.WellFormed) (hl : lock ∈ (t.sweep now).locks) :
    ∃ h node refs, t.Carries h node lock ∧ (t.sweep now).Carries h { node with refs } lock := by
  obtain ⟨h, node, hc⟩ := hw.holds.exists_carries (hw.mem_locks_sweep.1 hl).1
  obtain ⟨k, node', hc'⟩ := (hw.sweep now).holds.exists_carries hl
  have hk := noNewTokens_sweep t now lock.token k hc'.registered
  rw [hc.registered, Option.some.injEq] at hk
  subst hk
  have hnode : node' = { node with refs := node'.refs } := by
    obtain ⟨token, details, expiry, held⟩ := Node.lock?_eq_some.1 hc.carried
    obtain ⟨token', details', expiry', held'⟩ := Node.lock?_eq_some.1 hc'.carried
    cases node
    cases node'
    simp_all
  exact ⟨h, node, node'.refs, hc, hnode ▸ hc'⟩

theorem WellFormed.mem_queue_sweep (hw : t.WellFormed) {due : Instant} :
    ⟨due, h⟩ ∈ (t.sweep now).queue.heap.toList ↔ ⟨due, h⟩ ∈ t.queue.heap.toList ∧ now < due := by
  rw [← hw.queue.placed.due?_eq_some, ← (hw.sweep now).queue.placed.due?_eq_some,
    hw.holds.queued, (hw.sweep now).holds.queued]
  constructor
  · rintro ⟨lock, hl, hf, hdue⟩
    obtain ⟨k, node, refs, hc, hc'⟩ := hw.carries_sweep hl
    obtain ⟨hl, hexpired⟩ := hw.mem_locks_sweep.1 hl
    rw [hc'.found, ← hc.found] at hf
    rw [expired_of_due? hdue, decide_eq_false_iff_not, not_le] at hexpired
    exact ⟨⟨lock, hl, hf, hdue⟩, hexpired⟩
  · rintro ⟨⟨lock, hl, hf, hdue⟩, hlt⟩
    have hexpired : lock.expired now = false :=
      (expired_of_due? hdue).trans (decide_eq_false hlt.not_ge)
    have hl' := hw.mem_locks_sweep.2 ⟨hl, hexpired⟩
    obtain ⟨k, node, refs, hc, hc'⟩ := hw.carries_sweep hl'
    rw [hc.found, ← hc'.found] at hf
    exact ⟨lock, hl', hf, hdue⟩

theorem WellFormed.drops (hw : t.WellFormed) (now : Instant) : t.Drops now (t.sweep now) where
  wellFormed := hw.sweep now
  locks lock := by
    rw [hw.mem_locks_sweep, ← Bool.not_eq_true, Lock.expired_iff]
    unfold Lock.due?
    cases lock.held <;> simp
  stays _ hl := hw.carries_sweep hl
  queued _ _ := hw.mem_queue_sweep
  counter := counter_sweepAtMost _ _ _

/-! ## Sweeping twice -/

theorem WellFormed.sweep_sweep (hw : t.WellFormed) (now later : Instant) :
    (t.sweep now).sweep later = t.sweep (max now later) := by
  have hfirst := hw.sweeps now
  have hsecond := (hw.sweep now).sweeps later
  rcases le_total now later with hle | hle
  · obtain ⟨rounds, hboth⟩ := hfirst.trans hle hsecond
    rw [max_eq_right hle]
    exact ((hw.sweeps later).eq hboth).2
  · rw [max_eq_left hle]
    exact ((hfirst.again hle).eq hsecond).2

/-- The loop ends after as many rounds as there are expired locks, and has then dropped these and
nothing else. Of two sweeps, the later instant counts. -/
theorem WellFormed.sweep_drops_expired (hw : t.WellFormed) (now later : Instant) :
    (∀ n t', Sweeps now n t t' ↔
        n = t.locks.countP (·.expired now) ∧ t' = t.sweep now) ∧
      t.Drops now (t.sweep now) ∧
      (t.sweep now).sweep later = t.sweep (max now later) ∧
      (t.sweep later).sweep now = t.sweep (max now later) := by
  refine ⟨fun n t' => ⟨fun hs => (hw.sweeps now).eq hs, ?_⟩, hw.drops now, hw.sweep_sweep now later,
    max_comm now later ▸ hw.sweep_sweep later now⟩
  rintro ⟨rfl, rfl⟩
  exact hw.sweeps now

/-- Two locks below one name, one that a claim holds, and one that never expires. -/
def lockedBelow : List Call :=
  [.create .epoch { root := "/a/b", duration := .seconds 5 },
    .create .epoch { root := "/a/c", duration := .seconds 3 },
    .create .epoch { root := "/d", duration := .seconds 2 },
    .create .epoch { root := "/e", duration := .infinite },
    .confirm .epoch "/d" "" [.ofToken "10"]]

/-- Three seconds on, one round drops the second lock; the first has expired after nine. -/
theorem sweep_drops_expired_below :
    let t := ((Session.start 7).run lockedBelow).2.table
    let now := Instant.after .epoch 3
    let later := Instant.after .epoch 9
    t.WellFormed ∧ t.locks.map (·.token) = ["8", "9", "10", "11"] ∧
      (∀ n t', Sweeps now n t t' ↔ n = 1 ∧ t' = t.sweep now) ∧ t.Drops now (t.sweep now) ∧
      (t.sweep now).locks.map (·.token) = ["8", "10", "11"] ∧
      (t.sweep now).sweep later = t.sweep later ∧ (t.sweep later).sweep now = t.sweep later ∧
      (t.sweep later).locks.map (·.token) = ["10", "11"] := by
  intro t now later
  have hs : ((Session.start 7).run lockedBelow).2.Reachable :=
    ⟨7, lockedBelow, by decide +kernel, rfl⟩
  have hone : t.locks.countP (·.expired now) = 1 := by decide +kernel
  have hlater : max now later = later := max_eq_right (by decide)
  obtain ⟨hrounds, hdrops, hup, hdown⟩ := hs.wellFormed.sweep_drops_expired now later
  refine ⟨hs.wellFormed, by decide +kernel, ?_, hdrops, by decide +kernel, ?_, ?_, by decide +kernel⟩
  · rw [← hone]
    exact hrounds
  · exact hup.trans (congrArg t.sweep hlater)
  · exact hdown.trans (congrArg t.sweep hlater)

-- The name above the dropped lock is still there, for the lock beside it.
example : (((Session.start 7).run lockedBelow).2.table.sweep (.after .epoch 3)).index.find? "/a" =
    some ⟨1, 0⟩ := by
  decide +kernel

end PathLock.LockTable
