import PathLock.Proofs.Lock.Orderly
import PathLock.Proofs.Lock.Representation

/-!
# Where there is room for a lock

A create asks the nodes on the way up from the new root, and a lookup asks them in another way. They
agree all the same (`Session.Reachable.create_matches_lookup`): a lock can be created where a lookup
finds none and, if it is to reach down, nothing below is locked. Otherwise the answer is that the
name is locked.
-/

namespace PathLock

/-- What rules a lock out covers its root, or lies in its reach. -/
theorem Lock.conflicts_iff {lock : Lock} {root : String} {zeroDepth : Bool} :
    lock.Conflicts root zeroDepth ↔
      lock.Covers root ∨ zeroDepth = false ∧ Path.StrictlyWithin root lock.root := or_assoc.symm

namespace Ledger

variable {l : Ledger} {now : Instant} {details : Details} {name : String}

theorem lockAt_eq_noSuchLock_iff : (l.lockAt now name).1 = .error .noSuchLock ↔
    ∀ lock ∈ (l.sweep now).locks, ¬ lock.Covers (Path.clean name) := by
  have hnone : ((l.sweep now).locks.find? fun lock => lock.Covers (Path.clean name)) = none ↔
      ∀ lock ∈ (l.sweep now).locks, ¬ lock.Covers (Path.clean name) := by
    simp only [List.find?_eq_none, decide_eq_true_eq]
  rw [← hnone]
  unfold lockAt
  dsimp only
  cases (l.sweep now).locks.find? fun lock => lock.Covers (Path.clean name) <;> simp

theorem exists_create_iff : (∃ token, (l.create now details).1 = .ok token) ↔
    ∀ lock ∈ (l.sweep now).locks,
      ¬ lock.Conflicts (Path.clean details.root) details.zeroDepth := by
  constructor
  · rintro ⟨token, htoken⟩ lock hl hc
    rw [create_of_conflict ⟨lock, hl, hc⟩] at htoken
    exact absurd htoken (by simp)
  · intro hnone
    rw [create_of_no_conflict fun ⟨lock, hl, hc⟩ => hnone lock hl hc]
    exact ⟨_, rfl⟩

/-- There is no other reason for a create to fail. -/
theorem create_eq_locked (h : ∀ token, (l.create now details).1 ≠ .ok token) :
    (l.create now details).1 = .error .locked := by
  by_cases hc : ∃ lock ∈ (l.sweep now).locks,
      lock.Conflicts (Path.clean details.root) details.zeroDepth
  · rw [create_of_conflict hc]
  · rw [create_of_no_conflict hc] at h
    exact absurd rfl (h _)

theorem exists_create_iff_lockAt : (∃ token, (l.create now details).1 = .ok token) ↔
    (l.lockAt now details.root).1 = .error .noSuchLock ∧
      (details.zeroDepth = false → ∀ lock ∈ (l.sweep now).locks,
        ¬ Path.StrictlyWithin (Path.clean details.root) lock.root) := by
  rw [exists_create_iff, lockAt_eq_noSuchLock_iff]
  simp only [Lock.conflicts_iff, not_or, not_and]
  constructor
  · intro h
    exact ⟨fun lock hl => (h lock hl).1, fun hdepth lock hl => (h lock hl).2 hdepth⟩
  · rintro ⟨hcovers, hbelow⟩ lock hl
    exact ⟨hcovers lock hl, fun hdepth => hbelow hdepth lock hl⟩

end Ledger

namespace Session

variable {s : Session}

/-- A lock of zero depth can be created exactly where a lookup finds none, one of infinite depth
where moreover nothing is locked strictly below its root. Any other create finds the name locked. -/
theorem Reachable.create_matches_lookup (hs : s.Reachable) (now : Instant) (details : Details) :
    ((∃ token, (s.table.create now details).1 = .ok token) ↔
      (s.table.lockAt now details.root).1 = .error .noSuchLock ∧
        (details.zeroDepth = false → ∀ lock ∈ (s.table.sweep now).locks,
          ¬ Path.StrictlyWithin (Path.clean details.root) lock.root)) ∧
      ((∀ token, (s.table.create now details).1 ≠ .ok token) →
        (s.table.create now details).1 = .error .locked) := by
  obtain ⟨_, _, m, h, hm⟩ := hs.refines
  have hlocks : ∀ lock, lock ∈ (s.table.sweep now).locks ↔ lock ∈ (m.ledger.sweep now).locks :=
    fun lock => (h.represents.sweep now).holds.locks_perm.mem_iff
  rw [(h.represents.create now details).1, (h.represents.lockAt hm.exclusive now details.root).1]
  simp only [hlocks]
  exact ⟨Ledger.exists_create_iff_lockAt, Ledger.create_eq_locked⟩

/-- A lock on one name, which expires, and a lock far below it. -/
def farApart : List Call :=
  [.create .epoch { root := "/a", duration := .seconds 60, zeroDepth := true },
    .create .epoch { root := "/a/b/c", duration := .infinite, zeroDepth := true }]

/-- A lock on the upper name again that reaches down to the lower one. -/
def reachingDown : Details := { root := "a//b/../", duration := .infinite }

/-- Nothing covers the name, but a lock below it is in the way of one that reaches down. -/
theorem create_matches_lookup_below :
    let t := ((start 7).run farApart).2.table
    let now := Instant.epoch.after 60
    ((start 7).run farApart).2.Reachable ∧
      (t.lockAt now reachingDown.root).1 = .error .noSuchLock ∧
      (t.create now reachingDown).1 = .error .locked ∧
      (∃ lock ∈ (t.sweep now).locks,
        Path.StrictlyWithin (Path.clean reachingDown.root) lock.root) ∧
      ∃ token, (t.create now { reachingDown with zeroDepth := true }).1 = .ok token := by
  intro t now
  have hs : ((start 7).run farApart).2.Reachable := ⟨7, farApart, by decide +kernel, rfl⟩
  have hvacant : (t.lockAt now reachingDown.root).1 = .error .noSuchLock := by decide +kernel
  have hrefused : ∀ token, (t.create now reachingDown).1 ≠ .ok token := by
    have hlocked : (t.create now reachingDown).1 = .error .locked := by decide +kernel
    intro token htoken
    cases hlocked.symm.trans htoken
  obtain ⟨hiff, hlocked⟩ := hs.create_matches_lookup now reachingDown
  refine ⟨hs, hvacant, hlocked hrefused, ?_, ?_⟩
  · by_contra hnone
    obtain ⟨token, hcreate⟩ :=
      hiff.2 ⟨hvacant, fun _ lock hl hbelow => hnone ⟨lock, hl, hbelow⟩⟩
    exact hrefused token hcreate
  · exact (hs.create_matches_lookup now { reachingDown with zeroDepth := true }).1.2
      ⟨hvacant, fun hdepth => Bool.noConfusion hdepth⟩

end Session

end PathLock
