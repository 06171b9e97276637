import PathLock.Proofs.Lock.Later
import PathLock.Proofs.Path.Cleaning

/-!
# What holds in every state

Whatever calls have been made, as long as no more creates succeeded than there are tokens:

* `Session.Reachable.at_most_one_covers`: at most one lock covers a name.
* `Session.claims_hold_locks`: no call finds a rule broken, and a lock is held exactly as long as
  one outstanding claim has its token.
* `Session.Reachable.parts_agree`: the parts of the table agree, and nothing is left behind.
-/

namespace PathLock

/-- If no two elements pass a test, at most one does. -/
theorem countP_le_one {α : Type} {p : α → Bool} {l : List α}
    (h : l.Pairwise fun a b => ¬ (p a = true ∧ p b = true)) : l.countP p ≤ 1 := by
  induction l with
  | nil => exact Nat.zero_le 1
  | cons a l ih =>
    rw [List.pairwise_cons] at h
    rw [List.countP_cons]
    split_ifs with ha
    · have hzero : l.countP p = 0 := List.countP_eq_zero.2 fun b hb hpb => h.1 b hb ⟨ha, hpb⟩
      omega
    · exact ih h.2

namespace Lock

variable {a b : Lock}

theorem apart_iff : a.Apart b ↔ a.root ≠ b.root ∧
    (a.details.zeroDepth = false → ¬ Path.StrictlyWithin a.root b.root) ∧
    (b.details.zeroDepth = false → ¬ Path.StrictlyWithin b.root a.root) := by
  unfold Apart Conflicts
  simp only [not_or, not_and, ne_eq]

end Lock

/-- The errors with which a table refuses what it is asked for. -/
def LockError.refusals : List LockError := [.confirmationFailed, .locked, .noSuchLock]

namespace Ledger

variable {l l' : Ledger} {m : Ledger.Session} {now : Instant} {e : LockError}

/-! ## Ledgers find no rule broken -/

theorem refusal_of_create {details : Details} (h : (l.create now details).1 = .error e) :
    e ∈ LockError.refusals := by
  unfold create at h
  dsimp only at h
  split_ifs at h
  cases h
  decide

theorem refusal_of_refresh {token : String} {duration : Timeout}
    (h : (l.refresh now token duration).1 = .error e) : e ∈ LockError.refusals := by
  unfold refresh at h
  dsimp only at h
  split at h
  · cases h
    decide
  · split_ifs at h
    cases h
    decide

theorem refusal_of_unlock {token : String} (h : (l.unlock now token).1 = .error e) :
    e ∈ LockError.refusals := by
  unfold unlock at h
  dsimp only at h
  split at h
  · cases h
    decide
  · split_ifs at h
    cases h
    decide

theorem refusal_of_confirm {name₀ name₁ : String} {conditions : List Condition}
    (h : l.confirm now name₀ name₁ conditions = (.error e, l')) : e ∈ LockError.refusals := by
  obtain ⟨rfl, _⟩ := confirm_error h
  decide

theorem refusal_of_lockAt {name : String} (h : (l.lockAt now name).1 = .error e) :
    e ∈ LockError.refusals := by
  unfold lockAt at h
  dsimp only at h
  split at h
  · cases h
    decide
  · exact absurd h (by simp)

namespace Session

theorem refusal_of_claim {name₀ name₁ : String} {conditions : List Condition}
    (h : (m.claim now name₀ name₁ conditions).1 = .failed e) : e ∈ LockError.refusals := by
  unfold claim at h
  split at h
  · exact Answer.noConfusion h
  · rename_i hconfirm
    rw [← Answer.failed.inj h]
    exact refusal_of_confirm hconfirm

theorem release_ne_failed (m : Session) (number : Nat) : (m.release number).1 ≠ .failed e := by
  unfold release
  split <;> exact Answer.noConfusion

/-- A call that fails is refused. -/
theorem refusal_of_step {call : Call} (h : (m.step call).1 = .failed e) :
    e ∈ LockError.refusals := by
  cases call with
  | create now details => exact refusal_of_create (error_of_ofResult (by simp) h)
  | refresh now token duration => exact refusal_of_refresh (error_of_ofResult (by simp) h)
  | unlock now token => exact refusal_of_unlock (error_of_ofResult (by simp) h)
  | confirm now name₀ name₁ conditions => exact refusal_of_claim h
  | guard now name₀ name₁ conditions => exact refusal_of_claim h
  | release number => exact absurd h (release_ne_failed m number)
  | dropGuard number => exact absurd h (release_ne_failed m number)
  | lockAt now name => exact refusal_of_lockAt (error_of_ofResult (by simp) h)
  | delete now name => exact Answer.noConfusion h
  | countAt now => exact Answer.noConfusion h
  | size => exact Answer.noConfusion h
  | isEmpty => exact Answer.noConfusion h

theorem run_ne_internal (m : Session) (calls : List Call) (fault : Fault) :
    Answer.failed (.internal fault) ∉ (m.run calls).1 := by
  induction calls generalizing m with
  | nil => exact List.not_mem_nil
  | cons call calls ih =>
    rw [run_cons]
    intro hmem
    rcases List.mem_cons.1 hmem with he | hmem
    · exact absurd (refusal_of_step he.symm) (by simp [LockError.refusals])
    · exact ih _ hmem

/-- A token is in one outstanding claim at most. -/
theorem Sound.countP_claims_le {m : Session} {seed : UInt64} {n : Nat} (hm : m.Sound seed n)
    (token : String) : m.outstanding.countP (fun entry => token ∈ entry.2) ≤ 1 := by
  refine countP_le_one ((List.nodup_flatMap.1 hm.claimed_once).2.imp fun hdisjoint => ?_)
  rw [decide_eq_true_eq, decide_eq_true_eq]
  exact fun h => hdisjoint h.1 h.2

end Session

end Ledger

namespace Session

variable {s : Session}

/-! ## Exclusion -/

theorem Reachable.pairwise_apart (hs : s.Reachable) : s.table.locks.Pairwise Lock.Apart := by
  obtain ⟨_, _, m, h, hm⟩ := hs.refines
  exact (h.represents.holds.locks_perm.pairwise_iff fun hab => hab.symm).2 hm.exclusive

theorem Reachable.isClean (hs : s.Reachable) {lock : Lock} (hl : lock ∈ s.table.locks) :
    Path.IsClean lock.root := by
  obtain ⟨_, _, m, h, _⟩ := hs.refines
  exact h.represents.holds.wellFormed.isClean hl

/-- Locks that have expired and were not dropped yet count, and so do locks that are held. -/
theorem Reachable.at_most_one_covers (hs : s.Reachable) :
    (∀ name, Path.IsClean name → s.table.locks.countP (fun lock => lock.Covers name) ≤ 1) ∧
      s.table.locks.Pairwise fun a b => a.root ≠ b.root ∧
        (a.details.zeroDepth = false → ¬ Path.StrictlyWithin a.root b.root) ∧
        (b.details.zeroDepth = false → ¬ Path.StrictlyWithin b.root a.root) := by
  have hapart := hs.pairwise_apart
  refine ⟨fun name hn => countP_le_one ?_, hapart.imp Lock.apart_iff.1⟩
  refine hapart.imp_of_mem fun {a b} ha hb hab => ?_
  rw [decide_eq_true_eq, decide_eq_true_eq]
  rintro ⟨hca, hcb⟩
  exact hab.not_covers (hs.isClean ha) (hs.isClean hb) hn hca hcb

/-- Time goes back after the first lock, and the second one is claimed. -/
def besideOneAnother : List Call :=
  [.create .last { root := "/", duration := .seconds 0, zeroDepth := true },
    .create .epoch { root := "/a/b", duration := .seconds 60 },
    .confirm .epoch "/a/b/c" "" [.ofToken "9"],
    .create .epoch { root := "/a/b/c", duration := .infinite }]

theorem at_most_one_covers_beside :
    let s := ((start 7).run besideOneAnother).2
    s.Reachable ∧ s.table.locks.map (fun lock => (lock.token, lock.root)) =
        [("8", "/"), ("9", "/a/b")] ∧
      s.table.locks.countP (fun lock => lock.Covers "/a/b/c") = 1 ∧
      (∀ name, Path.IsClean name → s.table.locks.countP (fun lock => lock.Covers name) ≤ 1) ∧
      s.table.locks.Pairwise fun a b => a.root ≠ b.root ∧
        (a.details.zeroDepth = false → ¬ Path.StrictlyWithin a.root b.root) ∧
        (b.details.zeroDepth = false → ¬ Path.StrictlyWithin b.root a.root) := by
  intro s
  have hs : s.Reachable := ⟨7, besideOneAnother, by decide +kernel, rfl⟩
  have hclean : Path.IsClean "/a/b/c" := Path.clean_eq_self_iff.1 (by decide +kernel)
  have hcovered : ∃ lock ∈ s.table.locks, lock.Covers "/a/b/c" := by decide +kernel
  obtain ⟨hone, hpairs⟩ := hs.at_most_one_covers
  refine ⟨hs, by decide +kernel, ?_, hone, hpairs⟩
  refine Nat.le_antisymm (hone "/a/b/c" hclean) (List.countP_pos_iff.2 ?_)
  simpa only [decide_eq_true_eq] using hcovered

/-! ## Claims -/

theorem Refines.held_iff {m : Ledger.Session} {seed : UInt64} {n : Nat} (h : Refines s m)
    (hm : m.Sound seed n) {lock : Lock} (hl : lock ∈ s.table.locks) :
    lock.held = true ↔ ∃ entry ∈ s.outstanding, lock.token ∈ entry.2.tokens := by
  rw [hm.held lock (h.represents.holds.locks_perm.mem_iff.1 hl)]
  unfold Ledger.Session.claimed
  rw [h.outstanding, List.flatMap_map, List.mem_flatMap]

/-- Claims that nobody releases are outstanding for ever. -/
theorem claims_hold_locks (seed : UInt64) (calls : List Call)
    (hcreated : created ((start seed).run calls).1 ≤ UInt64.size) :
    (∀ fault, Answer.failed (.internal fault) ∉ ((start seed).run calls).1) ∧
      ∀ lock ∈ ((start seed).run calls).2.table.locks,
        (lock.held = true ↔
          ∃ entry ∈ ((start seed).run calls).2.outstanding, lock.token ∈ entry.2.tokens) ∧
        ((start seed).run calls).2.outstanding.countP
          (fun entry => lock.token ∈ entry.2.tokens) ≤ 1 := by
  obtain ⟨hanswers, h⟩ := run_start seed calls hcreated
  have hm := (Ledger.Session.sound_start seed).run calls (by rwa [Nat.zero_add, ← hanswers])
  refine ⟨fun fault => ?_, fun lock hl => ⟨h.held_iff hm hl, ?_⟩⟩
  · rw [hanswers]
    exact Ledger.Session.run_ne_internal _ calls fault
  · have hcount := hm.countP_claims_le lock.token
    rw [h.outstanding, List.countP_map] at hcount
    exact hcount

/-- The first claim is on a lock that is gone, the second on the one in its place. -/
theorem claims_hold_locks_replaced :
    let made := (start 7).run (replacedWhileClaimed.take 5)
    created made.1 ≤ UInt64.size ∧ (∀ fault, Answer.failed (.internal fault) ∉ made.1) ∧
      made.2.outstanding.map (fun entry => (entry.1, entry.2.tokens)) = [(1, ["9"]), (0, ["8"])] ∧
      ∃ lock, made.2.table.locks = [lock] ∧ lock.token = "9" ∧ lock.held = true ∧
        made.2.outstanding.countP (fun entry => lock.token ∈ entry.2.tokens) = 1 := by
  intro made
  have hcreated : created made.1 ≤ UInt64.size := by decide +kernel
  have hclaimed : ∃ entry ∈ made.2.outstanding, "9" ∈ entry.2.tokens := by decide +kernel
  have htokens : made.2.table.locks.map (·.token) = ["9"] := by decide +kernel
  obtain ⟨hfaults, hlocks⟩ := claims_hold_locks 7 (replacedWhileClaimed.take 5) hcreated
  obtain ⟨lock, hlock, htoken⟩ := List.map_eq_singleton_iff.1 htokens
  obtain ⟨hheld, hone⟩ := hlocks lock (hlock ▸ List.mem_singleton_self lock)
  refine ⟨hcreated, hfaults, by decide +kernel, lock, hlock, htoken, hheld.2 (htoken ▸ hclaimed), ?_⟩
  refine Nat.le_antisymm hone (List.countP_pos_iff.2 ?_)
  simpa only [htoken, decide_eq_true_eq] using hclaimed

/-! ## The parts of the table -/

theorem Reachable.parts_agree (hs : s.Reachable) : s.table.WellFormed ∧
    (s.table.locks = [] → s.table.index.byName.isEmpty ∧ s.table.registry.byToken.isEmpty ∧
      s.table.queue.heap = #[] ∧ s.table.queue.positions.isEmpty) := by
  obtain ⟨_, _, m, h, _⟩ := hs.refines
  have hw := h.represents.holds.wellFormed
  exact ⟨hw, hw.empty_of_locks⟩

/-- Slots are freed and used again, and a claimed lock is left. -/
def reusedSlots : List Call :=
  [.create .epoch { root := "/a/b", duration := .seconds 60 },
    .unlock .epoch "8",
    .create .epoch { root := "/c/../d", duration := .infinite },
    .create .epoch { root := "/d/e", duration := .seconds 60 },
    .confirm .epoch "/d" "" [.ofToken "9"]]

/-- The claim is released, and the last lock deleted. -/
def lettingGo : List Call := [.release 0, .delete .epoch "d"]

theorem parts_agree_reused :
    let s := ((start 7).run reusedSlots).2
    let bare := ((start 7).run (reusedSlots ++ lettingGo)).2
    s.Reachable ∧ s.table.WellFormed ∧ s.table.locks.map (·.token) = ["9"] ∧
      bare.Reachable ∧ bare.table.WellFormed ∧ bare.table.locks = [] ∧
      bare.table.index.byName.isEmpty ∧ bare.table.registry.byToken.isEmpty ∧
      bare.table.queue.heap = #[] ∧ bare.table.queue.positions.isEmpty := by
  intro s bare
  have hs : s.Reachable := ⟨7, reusedSlots, by decide +kernel, rfl⟩
  have hbare : bare.Reachable := ⟨7, reusedSlots ++ lettingGo, by decide +kernel, rfl⟩
  have hnone : bare.table.locks = [] := by decide +kernel
  obtain ⟨hparts, hempty⟩ := hbare.parts_agree
  exact ⟨hs, hs.parts_agree.1, by decide +kernel, hbare, hparts, hnone, hempty hnone⟩

end Session

end PathLock
