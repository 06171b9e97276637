import PathLock.Proofs.Lock.Later

/-!
# Calls that come to nothing

A call that is answered with an error has dropped what has expired, as any call at its instant does,
and has done nothing else: the session is the one that counting the locks would have left
(`Session.Reachable.failure_leaves_no_trace`).
-/

namespace PathLock

namespace LockTable

variable {t : LockTable} {l : Ledger} {now : Instant} {token name name₀ name₁ : String}
  {e : LockError}

/-! ## Operations that fail -/

theorem refresh_of_error {duration : Timeout} (h : (t.refresh now token duration).1 = .error e) :
    (t.refresh now token duration).2 = t.sweep now := by
  unfold refresh at h ⊢
  dsimp only at h ⊢
  split
  · rfl
  · rename_i heq
    rw [heq] at h
    dsimp only at h
    split_ifs at h ⊢
    rfl

theorem unlock_of_error (h : (t.unlock now token).1 = .error e) :
    (t.unlock now token).2 = t.sweep now := by
  unfold unlock at h ⊢
  dsimp only at h ⊢
  split
  · rfl
  · rename_i heq
    rw [heq] at h
    dsimp only at h
    split_ifs at h ⊢
    rfl

theorem lockAt_snd (t : LockTable) (now : Instant) (name : String) :
    (t.lockAt now name).2 = t.sweep now := by
  unfold lockAt
  dsimp only
  split <;> rfl

/-- No handle has been given out and no token issued when a create fails. -/
theorem Represents.create_of_error (hr : Represents t l) {details : Details}
    (h : (t.create now details).1 = .error e) : (t.create now details).2 = t.sweep now := by
  have hsweep := hr.sweep now
  have hconflict : ∃ lock ∈ (l.sweep now).locks,
      lock.Conflicts (Path.clean details.root) details.zeroDepth := by
    by_contra hnone
    rw [(hr.create now details).1, Ledger.create_of_no_conflict hnone] at h
    exact absurd h (by simp)
  obtain ⟨lock, hl, hc⟩ := hconflict
  rw [create_of_not_admits]
  intro hadmits
  exact (hsweep.holds.counts.admits_iff hsweep.holds.clean (Path.isClean_clean _)).1 hadmits lock hl
    hc

/-- No lock is held when a confirm fails, not even that for the first name. -/
theorem Represents.confirm_of_error (hr : Represents t l) {conditions : List Condition}
    (h : (t.confirm now name₀ name₁ conditions).1 = .error e) :
    (t.confirm now name₀ name₁ conditions).2 = t.sweep now := by
  have hledger := hr.confirm_tokens now name₀ name₁ conditions
  rw [h] at hledger
  rw [(hr.confirm_error (Prod.ext hledger.symm rfl)).1]

/-- A node on the name that carries no lock is left alone. -/
theorem Represents.delete_of_none (hr : Represents t l)
    (h : ∀ lock ∈ (t.sweep now).locks, lock.root ≠ Path.clean name) :
    t.delete now name = t.sweep now := by
  have hsweep := hr.sweep now
  unfold LockTable.delete
  dsimp only
  cases hf : (t.sweep now).index.find? (Path.clean name) with
  | none => rfl
  | some id =>
    obtain ⟨node, hn, hroot⟩ := hsweep.holds.counts.consistent.named _ _ hf
    dsimp only
    rw [hn]
    dsimp only
    cases htoken : node.token with
    | none => rfl
    | some token =>
      obtain ⟨lock, hl, _, hc⟩ := hsweep.holds.exists_of_token hn htoken
      have hlroot : lock.root = Path.clean name := by
        rw [← hroot, hc.details_eq]
        rfl
      exact absurd hlroot (h lock (hsweep.holds.locks_perm.mem_iff.2 hl))

end LockTable

namespace Session

variable {s : Session} {call : Call} {now : Instant}

/-! ## Calls that fail -/

/-- The call is made at this instant and answered with an error, or is a delete on a name that no
lock is left on. -/
inductive Fails (s : Session) (now : Instant) : Call → Prop
  | error {call : Call} {e : LockError} (hnow : call.now? = some now)
      (h : (s.step call).1 = .failed e) : Fails s now call
  | delete {name : String} (h : ∀ lock ∈ (s.table.sweep now).locks, lock.root ≠ Path.clean name) :
      Fails s now (.delete now name)

theorem Refines.claim_of_error {m : Ledger.Session} (h : Refines s m) {name₀ name₁ : String}
    {conditions : List Condition} {e : LockError}
    (hfailed : (s.claim now name₀ name₁ conditions).1 = .failed e) :
    (s.claim now name₀ name₁ conditions).2 = { s with table := s.table.sweep now } := by
  unfold Session.claim at hfailed ⊢
  cases hconfirm : s.table.confirm now name₀ name₁ conditions with
  | mk result t =>
    rw [hconfirm] at hfailed
    cases result with
    | ok claim => exact Answer.noConfusion hfailed
    | error e' =>
      have ht := h.represents.confirm_of_error (congrArg Prod.fst hconfirm)
      rw [hconfirm] at ht
      rw [← ht]

/-- A call that fails only drops what has expired. -/
theorem Refines.step_of_fails {m : Ledger.Session} (h : Refines s m) (hfails : s.Fails now call) :
    (s.step call).2 = { s with table := s.table.sweep now } := by
  have hwith : ∀ {t : LockTable}, t = s.table.sweep now →
      { s with table := t } = { s with table := s.table.sweep now } := fun ht => ht ▸ rfl
  cases hfails with
  | delete hnone => exact hwith (h.represents.delete_of_none hnone)
  | error hnow hfailed =>
    cases call with
    | create _ details =>
      obtain rfl := Option.some.inj hnow
      exact hwith (h.represents.create_of_error (error_of_ofResult (by simp) hfailed))
    | refresh _ token duration =>
      obtain rfl := Option.some.inj hnow
      exact hwith (LockTable.refresh_of_error (error_of_ofResult (by simp) hfailed))
    | unlock _ token =>
      obtain rfl := Option.some.inj hnow
      exact hwith (LockTable.unlock_of_error (error_of_ofResult (by simp) hfailed))
    | confirm _ name₀ name₁ conditions =>
      obtain rfl := Option.some.inj hnow
      exact h.claim_of_error hfailed
    | guard _ name₀ name₁ conditions =>
      obtain rfl := Option.some.inj hnow
      exact h.claim_of_error hfailed
    | lockAt _ name =>
      obtain rfl := Option.some.inj hnow
      exact hwith (LockTable.lockAt_snd _ _ _)
    | delete _ name => exact Answer.noConfusion hfailed
    | countAt _ => exact Answer.noConfusion hfailed
    | release number => exact absurd hnow (by simp [Call.now?])
    | dropGuard number => exact absurd hnow (by simp [Call.now?])
    | size => exact absurd hnow (by simp [Call.now?])
    | isEmpty => exact absurd hnow (by simp [Call.now?])

/-- After a call that fails, all further calls are answered as if the locks had been counted
instead, and lead to the same session. -/
theorem Reachable.failure_leaves_no_trace (hs : s.Reachable) (hfails : s.Fails now call)
    (later : List Call) : (s.step call).2.run later = (s.step (.countAt now)).2.run later := by
  obtain ⟨_, _, m, h, _⟩ := hs.refines
  rw [h.step_of_fails hfails]
  rfl

/-- The first lock has expired when the last call comes; the others are there. -/
def expiredBeside : List Call :=
  [.create .epoch { root := "/a", duration := .seconds 0 },
    .create .epoch { root := "/b", duration := .infinite },
    .create .epoch { root := "/c", duration := .seconds 60 }]

/-- A claim that finds the lock on its first name and none on its second. -/
def halfClaim : Call := .confirm .epoch "/b" "/a" [.ofToken "8", .ofToken "9"]

/-- A refused create, a create, and a look at the lock that was not claimed. -/
def afterwards : List Call :=
  [.create .epoch { root := "/c/d", duration := .infinite },
    .create .epoch { root := "/a", duration := .infinite },
    .unlock .epoch "9",
    .lockAt .epoch "/c"]

/-- The lock that the claim found first is free, as if nobody had tried to claim it. -/
theorem failure_leaves_no_trace_half :
    let s := ((start 7).run expiredBeside).2
    s.Reachable ∧ s.Fails .epoch halfClaim ∧
      (s.step halfClaim).2.run afterwards = (s.step (.countAt .epoch)).2.run afterwards ∧
      ((s.step halfClaim).2.run afterwards).1.take 3 = [.failed .locked, .token "11", .done] := by
  intro s
  have hs : s.Reachable := ⟨7, expiredBeside, by decide +kernel, rfl⟩
  have hanswer : (s.step halfClaim).1 = .failed .confirmationFailed := by decide +kernel
  have hfails : s.Fails .epoch halfClaim := .error rfl hanswer
  exact ⟨hs, hfails, hs.failure_leaves_no_trace hfails afterwards, by decide +kernel⟩

end Session

end PathLock
