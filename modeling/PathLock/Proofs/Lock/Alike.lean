import PathLock.Proofs.Lock.Representation

/-!
# Tables that hold the same locks

Two tables may hold the same locks although they do so at other nodes and in another order.
`LockTable.AlikeUnder` says all that two tables then have in common, with the locks of the one
written as those of the other: the locks, the names in use with their counts, and what is queued.

* `LockTable.Represents.alikeUnder`: tables are alike as soon as their ledgers are.
-/

namespace PathLock

/-! ## Counts and queues by name -/

theorem lockedWithin_map {locks : List Lock} {f : Lock → Lock}
    (hroot : ∀ lock, (f lock).root = lock.root) (name : String) :
    lockedWithin (locks.map f) name = lockedWithin locks name := by
  unfold lockedWithin
  rw [List.countP_map]
  refine List.countP_congr fun lock _ => ?_
  rw [Function.comp_apply, hroot]

theorem lockedWithin_perm {locks locks' : List Lock} (h : locks.Perm locks') (name : String) :
    lockedWithin locks name = lockedWithin locks' name := h.countP_eq _

/-- A name is in use, with the number of locks on it or below it, unless there is none. -/
theorem NodeIndex.Counts.map_refs {x : NodeIndex} {locks : List Lock} (hx : x.Counts locks)
    (name : String) : (x.nodeAt? name).map Node.refs =
      if lockedWithin locks name = 0 then none else some (lockedWithin locks name) := by
  rw [← hx.refs]
  unfold NodeIndex.refsAt
  cases hn : x.nodeAt? name with
  | none => rfl
  | some node => exact (if_neg (Nat.ne_of_gt (hx.refs_pos name node hn))).symm

namespace LockTable

variable {t u : LockTable} {l l' : Ledger} {locks : List Lock} {name : String} {due : Instant}
  {f : Lock → Lock}

/-- The lock on this name is queued to expire at this instant. -/
def Queues (t : LockTable) (name : String) (due : Instant) : Prop :=
  ∃ h, t.index.find? name = some h ∧ ⟨due, h⟩ ∈ t.queue.heap.toList

theorem Holds.queues_iff (ht : Holds t locks) :
    t.Queues name due ↔ ∃ lock ∈ locks, lock.root = name ∧ lock.due? = some due := by
  unfold Queues
  simp only [← ht.queue.placed.due?_eq_some, ht.queued]
  constructor
  · rintro ⟨h, hname, lock, hl, hf, hdue⟩
    exact ⟨lock, hl, ht.counts.consistent.find?_inj hf hname, hdue⟩
  · rintro ⟨lock, hl, rfl, hdue⟩
    obtain ⟨h, _, hf, _⟩ := ht.counts.exists_node hl
    exact ⟨h, hf, lock, hl, hf, hdue⟩

/-! ## Likeness -/

/-- Both tables are well formed and hold the same locks, if those of the first are changed as `f`
says. Names are counted alike and the same expiries are queued for them. -/
structure AlikeUnder (f : Lock → Lock) (t u : LockTable) : Prop where
  wellFormed : t.WellFormed ∧ u.WellFormed
  locks : (t.locks.map f).Perm u.locks
  refs : ∀ name, (t.index.nodeAt? name).map Node.refs = (u.index.nodeAt? name).map Node.refs
  queued : ∀ name due, t.Queues name due ↔ u.Queues name due

/-- A change that moves no lock, and neither holds nor frees one, tells from the ledgers whether the
tables are alike. -/
theorem Represents.alikeUnder (ht : Represents t l) (hu : Represents u l')
    (hlocks : (l.locks.map f).Perm l'.locks) (hroot : ∀ lock, (f lock).root = lock.root)
    (hdue : ∀ lock, (f lock).due? = lock.due?) : AlikeUnder f t u where
  wellFormed := ⟨ht.holds.wellFormed, hu.holds.wellFormed⟩
  locks := ((ht.holds.locks_perm.map f).trans hlocks).trans hu.holds.locks_perm.symm
  refs name := by
    have hwithin : lockedWithin l.locks name = lockedWithin l'.locks name :=
      (lockedWithin_map hroot name).symm.trans (lockedWithin_perm hlocks name)
    rw [ht.holds.counts.map_refs, hu.holds.counts.map_refs, hwithin]
  queued name due := by
    rw [ht.holds.queues_iff, hu.holds.queues_iff]
    simp only [← hlocks.mem_iff, List.mem_map]
    constructor
    · rintro ⟨lock, hl, hname, hlock⟩
      exact ⟨f lock, ⟨lock, hl, rfl⟩, (hroot lock).trans hname, (hdue lock).trans hlock⟩
    · rintro ⟨_, ⟨lock, hl, rfl⟩, hname, hlock⟩
      exact ⟨lock, hl, (hroot lock).symm.trans hname, (hdue lock).symm.trans hlock⟩

/-- Tables with one ledger are alike as they are. -/
theorem Represents.alike (ht : Represents t l) (hu : Represents u l')
    (hlocks : l.locks = l'.locks) : AlikeUnder id t u :=
  ht.alikeUnder hu (by rw [List.map_id, hlocks]) (fun _ => rfl) fun _ => rfl

end LockTable

end PathLock
