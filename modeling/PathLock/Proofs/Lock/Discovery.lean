import PathLock.Proofs.Lock.Exclusive
import PathLock.Proofs.Lock.Lifecycle

/-!
# What is locked

The way up from a name meets the lock that covers it. Where locks exclude one another there is one
such lock at most, so that the order of the levels does not matter and the ledger may look for it in
any order.

* `Represents.lockAt`, `Represents.countAt`, `Represents.size`, `Represents.isEmpty`.
-/

namespace PathLock

namespace LockTable

variable {t : LockTable} {l : Ledger} {lock : Lock} {name level : String} {info : LockInfo}
  {depth : Nat}

/-- The lock as it is told to callers. -/
def describe (lock : Lock) : LockInfo :=
  { token := lock.token, expiry := lock.expiry, details := lock.details }

theorem covering_eq (t : LockTable) (depth : Nat) (level : String) : t.covering depth level =
    (t.index.lockAt? level).bind fun lock =>
      if 0 < depth && lock.details.zeroDepth then none else some (describe lock) := by
  unfold covering NodeIndex.lockAt?
  cases t.index.nodeAt? level with
  | none => rfl
  | some node =>
    show (node.token.bind fun token => _) = (node.lock?.bind _)
    unfold Node.lock?
    cases node.token <;> rfl

theorem Represents.covering_iff (hr : Represents t l) : t.covering depth level = some info ↔
    ∃ lock ∈ l.locks, lock.root = level ∧ (0 < depth → lock.details.zeroDepth = false) ∧
      describe lock = info := by
  rw [covering_eq, Option.bind_eq_some_iff]
  simp only [hr.holds.counts.locked, Option.ite_none_left_eq_some, Bool.and_eq_true,
    decide_eq_true_eq, not_and, Bool.not_eq_true, Option.some.injEq, and_assoc]

/-- Some level meets a lock with this description if and only if a lock with it covers the name. -/
theorem Represents.exists_covering_iff (hr : Represents t l) :
    (∃ level ∈ (Path.ancestors (Path.clean name)).mapIdx fun depth level => (depth, level),
      t.covering level.1 level.2 = some info) ↔
      ∃ lock ∈ l.locks, lock.Covers (Path.clean name) ∧ describe lock = info := by
  have hclean := Path.isClean_clean name
  rw [Path.ancestors_eq_cons, List.mapIdx_cons, List.exists_mem_cons_iff, hr.covering_iff]
  simp only [List.mem_mapIdx, Nat.lt_irrefl, false_implies, true_and]
  constructor
  · rintro (⟨lock, hl, hroot, hinfo⟩ | ⟨_, ⟨i, hi, rfl⟩, hcovering⟩)
    · exact ⟨lock, hl, .inl hroot, hinfo⟩
    · obtain ⟨lock, hl, hroot, hdepth, hinfo⟩ := hr.covering_iff.1 hcovering
      have hlevel := (Path.mem_tail_ancestors hclean).1 (List.getElem_mem hi)
      exact ⟨lock, hl, .inr ⟨hdepth (Nat.succ_pos i), hroot ▸ hlevel.2⟩, hinfo⟩
  · rintro ⟨lock, hl, hroot | ⟨hdepth, hs⟩, hinfo⟩
    · exact .inl ⟨lock, hl, hroot, hinfo⟩
    · have hlevel := (Path.mem_tail_ancestors hclean).2 ⟨hr.holds.clean lock hl, hs⟩
      obtain ⟨i, hi, hi'⟩ := List.mem_iff_getElem.1 hlevel
      exact .inr ⟨_, ⟨i, hi, rfl⟩, hr.covering_iff.2 ⟨lock, hl, hi'.symm, fun _ => hdepth, hinfo⟩⟩

theorem Represents.lockAt (hr : Represents t l) (hl : l.Exclusive) (now : Instant) (name : String) :
    (t.lockAt now name).1 = (l.lockAt now name).1 ∧
      Represents (t.lockAt now name).2 (l.lockAt now name).2 := by
  have hsweep := hr.sweep now
  have hexclusive := hl.sweep now
  have hclean := Path.isClean_clean name
  unfold LockTable.lockAt Ledger.lockAt
  generalize t.sweep now = s at hsweep ⊢
  generalize l.sweep now = m at hsweep hexclusive ⊢
  dsimp only
  cases hfind : m.locks.find? fun lock => lock.Covers (Path.clean name) with
  | none =>
    have hnone : ((Path.ancestors (Path.clean name)).mapIdx fun depth level =>
        (depth, level)).findSome? (fun level => s.covering level.1 level.2) = none := by
      rw [Option.eq_none_iff_forall_ne_some]
      intro info hinfo
      obtain ⟨lock, hl, hcov, _⟩ :=
        hsweep.exists_covering_iff.1 (List.exists_of_findSome?_eq_some hinfo)
      exact of_decide_eq_false (by simpa using List.find?_eq_none.1 hfind lock hl) hcov
    rw [hnone]
    exact ⟨rfl, hsweep⟩
  | some lock =>
    have hl := List.mem_of_find?_eq_some hfind
    have hcov : lock.Covers (Path.clean name) := by simpa using List.find?_some hfind
    have hsome : ((Path.ancestors (Path.clean name)).mapIdx fun depth level =>
        (depth, level)).findSome? (fun level => s.covering level.1 level.2) =
          some (describe lock) := by
      obtain ⟨level, hlevel, hcovering⟩ := hsweep.exists_covering_iff.2 ⟨lock, hl, hcov, rfl⟩
      obtain ⟨info, hinfo⟩ : ∃ info, ((Path.ancestors (Path.clean name)).mapIdx
          fun depth level => (depth, level)).findSome?
            (fun level => s.covering level.1 level.2) = some info := by
        refine Option.ne_none_iff_exists'.1 fun hnone => ?_
        rw [List.findSome?_eq_none_iff.1 hnone level hlevel] at hcovering
        exact absurd hcovering (by simp)
      obtain ⟨other, ho, hcov', rfl⟩ :=
        hsweep.exists_covering_iff.1 (List.exists_of_findSome?_eq_some hinfo)
      rw [hinfo, hexclusive.eq_of_covers hsweep.holds.clean hclean ho hl hcov' hcov]
    rw [hsome]
    exact ⟨rfl, hsweep⟩

/-! ## Counting locks -/

theorem Represents.size (hr : Represents t l) : t.size = l.locks.length := hr.holds.size

theorem Represents.isEmpty (hr : Represents t l) : t.isEmpty = l.locks.isEmpty := by
  unfold LockTable.isEmpty
  rw [hr.size]
  cases l.locks <;> rfl

theorem Represents.countAt (hr : Represents t l) (now : Instant) :
    (t.countAt now).1 = (l.countAt now).1 ∧ Represents (t.countAt now).2 (l.countAt now).2 :=
  ⟨(hr.sweep now).size, hr.sweep now⟩

end LockTable

end PathLock
