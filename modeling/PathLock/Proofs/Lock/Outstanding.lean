import PathLock.Proofs.Lock.Protection
import PathLock.Proofs.Lock.Safety

/-!
# Outstanding claims

What the calls of a session do to its table and to its outstanding claims, with the claims as they
are on the table: handles beside tokens.

* `Session.Tracks.create_ok`: a create that succeeds.
* `Session.Tracks.confirm_ok`, `Session.Tracks.confirm_error`: a confirm.
* `Session.Tracks.release_ok`: an outstanding claim can be released, and its locks are free then.
-/

namespace PathLock

namespace Ledger

variable {l : Ledger} {lock : Lock}

/-- To say who is held takes no lock away. -/
theorem exists_mem_setHeld (hl : lock ∈ l.locks) (tokens : List String) (held : Bool) :
    ∃ k ∈ (l.setHeld tokens held).locks, k.token = lock.token :=
  ⟨_, mem_setHeld.2 ⟨lock, hl, rfl⟩, by split_ifs <;> rfl⟩

theorem Session.exists_mem_release {m : Session} (hl : lock ∈ m.ledger.locks) (number : ℕ) :
    ∃ k ∈ (m.release number).2.ledger.locks, k.token = lock.token := by
  unfold release
  split
  · exact ⟨lock, hl, rfl⟩
  · exact exists_mem_setHeld hl _ _

end Ledger

namespace Session

variable {s s' : Session} {m : Ledger.Session} {seed : UInt64} {n : ℕ} {call : Call}
  {answer : Answer} {entry other : ℕ × Claim} {claim : Claim} {t : LockTable}

/-! ## Numbers and tokens -/

theorem Tracks.mem_outstanding (h : Tracks seed n s m) (he : entry ∈ s.outstanding) :
    (entry.1, entry.2.tokens) ∈ m.outstanding := by
  rw [h.refines.outstanding]
  exact List.mem_map.2 ⟨entry, he, rfl⟩

theorem Tracks.numbers (h : Tracks seed n s m) : (s.outstanding.map (·.1)).Nodup := by
  have hnumbers := h.sound.numbers
  rw [h.refines.outstanding, List.map_map] at hnumbers
  exact hnumbers

theorem Tracks.number_lt (h : Tracks seed n s m) (he : entry ∈ s.outstanding) :
    entry.1 < s.claimsMade := by
  rw [h.refines.claimsMade]
  exact h.sound.numbered _ (h.mem_outstanding he)

/-- Claims with a token in common have the same number. -/
theorem Tracks.number_eq (h : Tracks seed n s m) (he : entry ∈ s.outstanding)
    (ho : other ∈ s.outstanding) {token : String} (ht : token ∈ entry.2.tokens)
    (ht' : token ∈ other.2.tokens) : entry.1 = other.1 :=
  (Prod.mk.inj (h.sound.number_eq (h.mem_outstanding he) (h.mem_outstanding ho) ht ht')).1

theorem Tracks.nodup_tokens (h : Tracks seed n s m) (he : entry ∈ s.outstanding) :
    entry.2.tokens.Nodup :=
  (List.nodup_flatMap.1 h.sound.claimed_once).1 _ (h.mem_outstanding he)

theorem Tracks.held_iff (h : Tracks seed n s m) {lock : Lock} (hl : lock ∈ s.table.locks) :
    lock.held = true ↔ ∃ entry ∈ s.outstanding, lock.token ∈ entry.2.tokens :=
  h.refines.held_iff h.sound hl

/-! ## Calls -/

/-- A call that is no successful create. -/
theorem Tracks.step_eq (h : Tracks seed n s m) (hn : n ≤ UInt64.size)
    (hstep : s.step call = (answer, s')) (hanswer : answer.isToken = false) :
    (m.step call).1 = answer ∧ Tracks seed n s' (m.step call).2 := by
  have hcreated : created [(s.step call).1] = 0 := by
    rw [hstep, created, List.countP_singleton, hanswer]
    rfl
  have hle : n + created [(s.step call).1] ≤ UInt64.size := by rwa [hcreated]
  obtain ⟨hsame, hnext⟩ := h.step hle
  rw [hcreated] at hnext
  rw [hstep] at hsame hnext
  exact ⟨hsame.symm, hnext⟩

theorem Tracks.refusal (h : Tracks seed n s m) (hn : n ≤ UInt64.size) {e : LockError}
    (hstep : s.step call = (.failed e, s')) : e ∈ LockError.refusals :=
  Ledger.Session.refusal_of_step (h.step_eq hn hstep rfl).1

/-- A create that succeeds takes the next token. -/
theorem Tracks.create_ok (h : Tracks seed n s m) (hn : n < UInt64.size) {now : Instant}
    {details : Details} {token : String} (hcreate : s.table.create now details = (.ok token, t)) :
    ∃ l, m.ledger.create now details = (.ok token, l) ∧ token = issued seed (n + 1) ∧
      Tracks seed (n + 1) { s with table := t } { m with ledger := l } := by
  have hstep : s.step (.create now details) = (.token token, { s with table := t }) := by
    unfold Session.step
    dsimp only
    rw [hcreate]
    rfl
  have hcreated : created [(s.step (.create now details)).1] = 1 := by
    rw [hstep]
    rfl
  have hle : n + created [(s.step (.create now details)).1] ≤ UInt64.size := by rwa [hcreated]
  obtain ⟨hanswer, hnext⟩ := h.step hle
  rw [hcreated, hstep] at hnext
  rw [hanswer] at hle
  have hok : (m.ledger.create now details).1 = .ok token := by
    rw [hstep] at hanswer
    exact ok_of_ofResult (fun _ => Answer.token.inj) (by simp) hanswer.symm
  exact ⟨_, Prod.ext hok rfl, (h.sound.token_of_create hle hok).1, hnext⟩

/-- What is claimed is there, held. -/
theorem Tracks.confirm_ok (h : Tracks seed n s m) (hn : n ≤ UInt64.size) {now : Instant}
    {name₀ name₁ : String} {conditions : List Condition}
    (hconfirm : s.table.confirm now name₀ name₁ conditions = (.ok claim, t)) :
    Tracks seed n ⟨t, s.claimsMade + 1, (s.claimsMade, claim) :: s.outstanding⟩
        (m.step (.confirm now name₀ name₁ conditions)).2 ∧
      ∀ token ∈ claim.tokens, ∃ lock ∈ t.locks, lock.token = token := by
  have hstep : s.step (.confirm now name₀ name₁ conditions) =
      (.claim s.claimsMade claim.tokens,
        ⟨t, s.claimsMade + 1, (s.claimsMade, claim) :: s.outstanding⟩) := by
    show s.claim now name₀ name₁ conditions = _
    unfold Session.claim
    rw [hconfirm]
  obtain ⟨hanswer, hnext⟩ := h.step_eq hn hstep rfl
  refine ⟨hnext, fun token ht => ?_⟩
  obtain ⟨lock, _, htoken, _, hkeeps⟩ := Ledger.Session.keeps_of_claim hanswer ht
  exact ⟨_, hnext.mem_locks.2 hkeeps.mem, htoken⟩

/-- A confirm that fails takes no held lock away. -/
theorem Tracks.confirm_error (h : Tracks seed n s m) (hn : n ≤ UInt64.size) {now : Instant}
    {name₀ name₁ : String} {conditions : List Condition} {e : LockError}
    (hconfirm : s.table.confirm now name₀ name₁ conditions = (.error e, t)) :
    Tracks seed n { s with table := t } (m.step (.confirm now name₀ name₁ conditions)).2 ∧
      e ∈ LockError.refusals ∧ ∀ lock ∈ s.table.locks, lock.held = true → lock ∈ t.locks := by
  have hstep : s.step (.confirm now name₀ name₁ conditions) = (.failed e, { s with table := t }) := by
    show s.claim now name₀ name₁ conditions = _
    unfold Session.claim
    rw [hconfirm]
  obtain ⟨_, hnext⟩ := h.step_eq hn hstep rfl
  refine ⟨hnext, h.refusal hn hstep, fun lock hl hheld => ?_⟩
  refine hnext.mem_locks.2 (Ledger.Session.mem_step (h.mem_locks.1 hl) (fun now _ => ?_) ?_)
  · exact (Ledger.mem_sweep.1 (Ledger.mem_sweep_of_held (h.mem_locks.1 hl) hheld)).2
  · exact fun _ _ _ => hheld

/-- On the ledger, a release is one by tokens. -/
theorem Tracks.release_ledger (h : Tracks seed n s m) {number : ℕ}
    (he : (number, claim) ∈ s.outstanding) :
    (m.release number).2.ledger = m.ledger.release claim.tokens := by
  unfold Ledger.Session.release
  rw [lookup_of_mem h.sound.numbers (h.mem_outstanding he)]

/-- No lock is lost with a release, and those of the claim are free after it. -/
theorem Tracks.release_ok (h : Tracks seed n s m) (hn : n ≤ UInt64.size) {number : ℕ}
    (he : (number, claim) ∈ s.outstanding) :
    ∃ t, s.table.release claim = (.ok (), t) ∧
      Tracks seed n ⟨t, s.claimsMade, s.outstanding.filter fun entry => entry.1 ≠ number⟩
        (m.step (.release number)).2 ∧
      ∀ lock ∈ s.table.locks, ∃ k ∈ t.locks, k.token = lock.token := by
  have hanswer : (m.step (.release number)).1 = .done := by
    show (m.release number).1 = .done
    unfold Ledger.Session.release
    rw [lookup_of_mem h.sound.numbers (h.mem_outstanding he)]
  cases hrelease : s.table.release claim with
  | mk result t =>
    have hstep : s.step (.release number) = (.ofResult (fun _ => .done) result,
        ⟨t, s.claimsMade, s.outstanding.filter fun entry => entry.1 ≠ number⟩) := by
      show s.release number _ = _
      unfold Session.release
      rw [lookup_of_mem h.numbers he]
      dsimp only
      rw [hrelease]
    obtain ⟨hsame, hnext⟩ := h.step_eq hn hstep (by cases result <;> rfl)
    obtain rfl : result = .ok () := by
      cases result with
      | ok => rfl
      | error e => exact absurd (hsame.symm.trans hanswer) (by simp [Answer.ofResult])
    refine ⟨t, rfl, hnext, fun lock hl => ?_⟩
    obtain ⟨k, hk, htoken⟩ :=
      Ledger.Session.exists_mem_release (h.mem_locks.1 hl) number
    exact ⟨k, hnext.mem_locks.2 hk, htoken⟩

end Session

end PathLock
