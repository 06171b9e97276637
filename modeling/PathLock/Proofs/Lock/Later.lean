import PathLock.Proofs.Lock.Orderly
import PathLock.Proofs.Lock.Representation

/-!
# Locks in later states

What becomes of one lock while calls are made, whatever they are about.

* `Ledger.Session.mem_step`: a lock that has not expired is there after a call as it was before,
  unless the call is about it.
* `Ledger.Session.Sound.lacks_step`, `Ledger.Session.Sound.lacks_of_expired`: a token that is not in
  use does not come into use again, and that of a lock that has expired is not in use any more.
* `Session.Tracks.run_induction`: what single calls keep, a run keeps.
* `LockTable.Misses`, `LockTable.Lacks`: all that is answered when no lock with a token is left, at
  one instant and for good.
-/

namespace PathLock

/-- The instant of a call, by which it first drops what has expired. -/
def Call.now? : Call → Option Instant
  | .create now _ => some now
  | .refresh now _ _ => some now
  | .unlock now _ => some now
  | .confirm now _ _ _ => some now
  | .guard now _ _ _ => some now
  | .release _ => none
  | .dropGuard _ => none
  | .lockAt now _ => some now
  | .delete now _ => some now
  | .countAt now => some now
  | .size => none
  | .isEmpty => none

/-- Whether a lock that is not held has expired is a matter of its expiry alone. -/
theorem Lock.expired_iff_of_free {lock : Lock} {now : Instant} (hfree : lock.held = false) :
    lock.expired now = true ↔ ∃ due, lock.expiry = some due ∧ due ≤ now := by
  rw [Lock.expired_iff]
  unfold Lock.due?
  simp [hfree]

theorem error_of_ofResult {α : Type} {f : α → Answer} {result : Except LockError α} {e : LockError}
    (hvalue : ∀ a, f a ≠ .failed e) (h : Answer.ofResult f result = .failed e) :
    result = .error e := by
  cases result with
  | ok a => exact absurd h (hvalue a)
  | error e' => exact congrArg Except.error (Answer.failed.inj h)

theorem ok_of_ofResult {α : Type} {f : α → Answer} {result : Except LockError α} {a : α}
    (hinj : ∀ b, f b = f a → b = a) (hvalue : ∀ e, f a ≠ .failed e)
    (h : Answer.ofResult f result = f a) : result = .ok a := by
  cases result with
  | ok b => exact congrArg Except.ok (hinj b h)
  | error e => exact absurd h.symm (hvalue e)

/-- Of entries with different keys, the one with a key is found by it. -/
theorem lookup_of_mem {β : Type} {entries : List (Nat × β)} {key : Nat} {b : β}
    (hnodup : (entries.map (·.1)).Nodup) (h : (key, b) ∈ entries) :
    entries.lookup key = some b := by
  induction entries with
  | nil => exact absurd h List.not_mem_nil
  | cons entry entries ih =>
    rw [List.map_cons, List.nodup_cons] at hnodup
    rw [List.lookup_cons]
    rcases List.mem_cons.1 h with rfl | h
    · simp
    · have hne : (key == entry.1) = false := by
        rw [beq_eq_false_iff_ne]
        rintro rfl
        exact hnodup.1 (List.mem_map.2 ⟨_, h, rfl⟩)
      rw [hne]
      exact ih hnodup.2 h

namespace Ledger

variable {l : Ledger} {lock : Lock} {now : Instant} {token name name₀ name₁ : String}
  {tokens : List String} {held : Bool}

/-! ## What a call sees -/

/-- Drops what has expired by an instant, if there is one. -/
def sweep? (l : Ledger) : Option Instant → Ledger
  | none => l
  | some now => l.sweep now

/-- There is nothing to drop a second time. -/
theorem sweep_sweep_self (l : Ledger) (now : Instant) : (l.sweep now).sweep now = l.sweep now := by
  unfold sweep
  simp [List.filter_filter]

theorem locks_sweep_cons (counter : UInt64) (lock : Lock) (l : Ledger) (now : Instant) :
    (sweep ⟨counter, lock :: l.locks⟩ now).locks =
      if lock.expired now then (l.sweep now).locks else lock :: (l.sweep now).locks := by
  unfold sweep
  dsimp only
  rw [List.filter_cons]
  cases lock.expired now <;> rfl

/-- No lock has this token. -/
def Lacks (l : Ledger) (token : String) : Prop := ∀ lock ∈ l.locks, lock.token ≠ token

theorem Lacks.of_remains {l' : Ledger} (h : l.Lacks token) (hr : Remains l l') :
    l'.Lacks token := by
  intro lock hl
  obtain ⟨k, hk, htoken, _⟩ := hr.locks lock hl
  exact htoken ▸ h k hk

theorem Lacks.sweep (h : l.Lacks token) (now : Instant) : (l.sweep now).Lacks token :=
  h.of_remains (remains_sweep l now)

theorem Lacks.setHeld (h : l.Lacks token) (tokens : List String) (held : Bool) :
    (l.setHeld tokens held).Lacks token := by
  intro lock hl
  obtain ⟨k, hk, rfl⟩ := mem_setHeld.1 hl
  have hne := h k hk
  split_ifs <;> exact hne

theorem Lacks.confirm (h : l.Lacks token) (now : Instant) (name₀ name₁ : String)
    (conditions : List Condition) : (l.confirm now name₀ name₁ conditions).2.Lacks token := by
  unfold Ledger.confirm
  dsimp only
  split
  · exact (h.sweep now).setHeld _ _
  · exact h.sweep now

/-- Once a lock has expired, it is not seen any more. -/
theorem Orderly.lacks_sweep (h : l.Orderly) (hl : lock ∈ l.locks)
    (hexpired : lock.expired now = true) : (l.sweep now).Lacks lock.token := by
  intro other hother htoken
  obtain ⟨hother, hlive⟩ := mem_sweep.1 hother
  rw [h.token_inj other hother lock hl htoken, hexpired] at hlive
  exact Bool.noConfusion hlive

/-! ## What an operation leaves -/

theorem mem_create (hl : lock ∈ (l.sweep now).locks) (details : Details) :
    lock ∈ (l.create now details).2.locks := by
  unfold create
  dsimp only
  split_ifs
  · exact hl
  · exact List.mem_cons_of_mem _ hl

theorem mem_refresh (hl : lock ∈ (l.sweep now).locks) {duration : Timeout}
    (hfails : token = lock.token → ∃ e, (l.refresh now token duration).1 = .error e) :
    lock ∈ (l.refresh now token duration).2.locks := by
  unfold refresh at hfails ⊢
  dsimp only at hfails ⊢
  split
  · exact hl
  · rename_i found hfind
    rw [hfind] at hfails
    dsimp only at hfails
    split_ifs at hfails ⊢ with hheld
    · exact hl
    · refine List.mem_map.2 ⟨lock, hl, if_neg ?_⟩
      intro htoken
      obtain ⟨e, he⟩ := hfails htoken.symm
      exact absurd he (by simp)

theorem mem_unlock (hl : lock ∈ (l.sweep now).locks)
    (hfails : token = lock.token → ∃ e, (l.unlock now token).1 = .error e) :
    lock ∈ (l.unlock now token).2.locks := by
  unfold unlock at hfails ⊢
  dsimp only at hfails ⊢
  split
  · exact hl
  · rename_i found hfind
    rw [hfind] at hfails
    dsimp only at hfails
    split_ifs at hfails ⊢ with hheld
    · exact hl
    · refine List.mem_filter.2 ⟨hl, decide_eq_true ?_⟩
      intro htoken
      obtain ⟨e, he⟩ := hfails htoken.symm
      exact absurd he (by simp)

theorem mem_delete (hl : lock ∈ (l.sweep now).locks) (hroot : lock.root ≠ Path.clean name) :
    lock ∈ (l.delete now name).locks := List.mem_filter.2 ⟨hl, decide_eq_true hroot⟩

/-- To say of a lock what holds of it anyway changes nothing. -/
theorem mem_setHeld_of_mem (hl : lock ∈ l.locks) (hsame : lock.token ∈ tokens → lock.held = held) :
    lock ∈ (l.setHeld tokens held).locks := by
  refine mem_setHeld.2 ⟨lock, hl, ?_⟩
  split_ifs with htoken
  · rw [← hsame htoken]
  · rfl

theorem mem_confirm (hl : lock ∈ (l.sweep now).locks) {conditions : List Condition}
    (hheld : ∀ tokens, (l.confirm now name₀ name₁ conditions).1 = .ok tokens →
      lock.token ∈ tokens → lock.held = true) :
    lock ∈ (l.confirm now name₀ name₁ conditions).2.locks := by
  cases hconfirm : l.confirm now name₀ name₁ conditions with
  | mk result l' =>
    rw [hconfirm] at hheld
    cases result with
    | error e =>
      obtain ⟨_, rfl, _⟩ := confirm_error hconfirm
      exact hl
    | ok tokens =>
      obtain ⟨_, _, _, _, _, rfl⟩ := confirm_ok hconfirm
      exact mem_setHeld_of_mem hl (hheld tokens rfl)

theorem lockAt_snd (l : Ledger) (now : Instant) (name : String) :
    (l.lockAt now name).2 = l.sweep now := by
  unfold lockAt
  dsimp only
  split <;> rfl

namespace Session

variable {m : Ledger.Session} {seed : UInt64} {n : Nat} {call : Call}

theorem claim_ledger (m : Ledger.Session) (now : Instant) (name₀ name₁ : String)
    (conditions : List Condition) :
    (m.claim now name₀ name₁ conditions).2.ledger =
      (m.ledger.confirm now name₀ name₁ conditions).2 := by
  unfold claim
  split <;> simp [*]

/-- A call does not see what has expired. -/
theorem step_sweep? (m : Ledger.Session) (call : Call) :
    ({ m with ledger := m.ledger.sweep? call.now? } : Ledger.Session).step call = m.step call := by
  cases call <;>
    simp only [step, Call.now?, sweep?, claim, create, refresh, unlock, confirm, lockAt, delete,
      countAt, sweep_sweep_self]

/-! ## One lock -/

/-- The call does not change this lock: a refresh or unlock with its token fails, a claim of it
finds it held, the release of a claim of it finds it free, and a delete is on another name. -/
def LeavesAlone (m : Ledger.Session) (lock : Lock) : Call → Prop
  | .refresh now token duration =>
    token = lock.token → ∃ e, (m.ledger.refresh now token duration).1 = .error e
  | .unlock now token => token = lock.token → ∃ e, (m.ledger.unlock now token).1 = .error e
  | .confirm now name₀ name₁ conditions | .guard now name₀ name₁ conditions =>
    ∀ tokens, (m.ledger.confirm now name₀ name₁ conditions).1 = .ok tokens →
      lock.token ∈ tokens → lock.held = true
  | .release number | .dropGuard number =>
    ∀ tokens, m.outstanding.lookup number = some tokens → lock.token ∈ tokens → lock.held = false
  | .delete _ name => lock.root ≠ Path.clean name
  | _ => True

theorem mem_release (hl : lock ∈ m.ledger.locks) {number : Nat}
    (hfree : ∀ tokens, m.outstanding.lookup number = some tokens → lock.token ∈ tokens →
      lock.held = false) : lock ∈ (m.release number).2.ledger.locks := by
  unfold release
  split
  · exact hl
  · rename_i tokens hlookup
    exact mem_setHeld_of_mem hl (hfree tokens hlookup)

theorem mem_step (hl : lock ∈ m.ledger.locks)
    (hlive : ∀ now, call.now? = some now → lock.expired now = false)
    (halone : m.LeavesAlone lock call) : lock ∈ (m.step call).2.ledger.locks := by
  have hswept : ∀ now, call.now? = some now → lock ∈ (m.ledger.sweep now).locks :=
    fun now hnow => mem_sweep.2 ⟨hl, hlive now hnow⟩
  cases call with
  | create now details => exact mem_create (hswept now rfl) details
  | refresh now token duration => exact mem_refresh (hswept now rfl) halone
  | unlock now token => exact mem_unlock (hswept now rfl) halone
  | confirm now name₀ name₁ conditions =>
    exact claim_ledger m now name₀ name₁ conditions ▸ mem_confirm (hswept now rfl) halone
  | guard now name₀ name₁ conditions =>
    exact claim_ledger m now name₀ name₁ conditions ▸ mem_confirm (hswept now rfl) halone
  | release number => exact mem_release hl halone
  | dropGuard number => exact mem_release hl halone
  | lockAt now name =>
    show lock ∈ (m.ledger.lockAt now name).2.locks
    rw [lockAt_snd]
    exact hswept now rfl
  | delete now name => exact mem_delete (hswept now rfl) halone
  | countAt now => exact hswept now rfl
  | size => exact hl
  | isEmpty => exact hl

/-! ## One token -/

theorem lacks_create {details : Details} (h : m.ledger.Lacks token)
    (hanswer : (m.step (.create now details)).1 ≠ .token token) :
    (m.ledger.create now details).2.Lacks token := by
  have hsweep := h.sweep now
  by_cases hc : ∃ lock ∈ (m.ledger.sweep now).locks,
      lock.Conflicts (Path.clean details.root) details.zeroDepth
  · rw [create_of_conflict hc]
    exact hsweep
  · unfold step at hanswer
    dsimp only at hanswer
    rw [create_of_no_conflict hc] at hanswer ⊢
    intro lock hl
    rcases List.mem_cons.1 hl with rfl | hl
    · intro htoken
      exact hanswer (congrArg Answer.token htoken)
    · exact hsweep lock hl

theorem lacks_release (h : m.ledger.Lacks token) (number : Nat) :
    (m.release number).2.ledger.Lacks token := by
  unfold release
  split
  · exact h
  · exact h.setHeld _ _

/-- A token is in use after a call only if it was before, or is the answer. -/
theorem lacks_step (h : m.ledger.Lacks token) (hanswer : (m.step call).1 ≠ .token token) :
    (m.step call).2.ledger.Lacks token := by
  cases call with
  | create now details => exact lacks_create h hanswer
  | refresh now token duration => exact h.of_remains (remains_refresh _ _ _ _)
  | unlock now token => exact h.of_remains (remains_unlock _ _ _)
  | confirm now name₀ name₁ conditions =>
    exact claim_ledger m now name₀ name₁ conditions ▸ h.confirm now name₀ name₁ conditions
  | guard now name₀ name₁ conditions =>
    exact claim_ledger m now name₀ name₁ conditions ▸ h.confirm now name₀ name₁ conditions
  | release number => exact lacks_release h number
  | dropGuard number => exact lacks_release h number
  | lockAt now name => exact h.of_remains (remains_lockAt _ _ _)
  | delete now name => exact h.of_remains (remains_delete _ _ _)
  | countAt now => exact h.sweep now
  | size => exact h
  | isEmpty => exact h

/-- A create is answered with the next token. -/
theorem Sound.token_of_step (hm : m.Sound seed n)
    (hn : n + created [(m.step call).1] ≤ UInt64.size) (h : (m.step call).1 = .token token) :
    token = issued seed (n + 1) ∧ n < UInt64.size := by
  have hcreated : created [(m.step call).1] ≠ 0 := by
    rw [h]
    exact Nat.one_ne_zero
  cases call with
  | create now details =>
    exact hm.token_of_create hn (ok_of_ofResult (by simp) (by simp) h)
  | refresh now token duration => exact absurd (created_ofResult (fun _ => rfl) _) hcreated
  | unlock now token => exact absurd (created_ofResult (fun _ => rfl) _) hcreated
  | confirm now name₀ name₁ conditions => exact absurd (created_claim _ _ _ _ _) hcreated
  | guard now name₀ name₁ conditions => exact absurd (created_claim _ _ _ _ _) hcreated
  | release number => exact absurd (created_release _ _) hcreated
  | dropGuard number => exact absurd (created_release _ _) hcreated
  | lockAt now name => exact absurd (created_ofResult (fun _ => rfl) _) hcreated
  | delete now name => exact absurd rfl hcreated
  | countAt now => exact absurd rfl hcreated
  | size => exact absurd rfl hcreated
  | isEmpty => exact absurd rfl hcreated

/-- A token that was issued before is not the answer to a create. -/
theorem Sound.answer_ne_token (hm : m.Sound seed n) (hissued : IsIssued seed n token)
    (hn : n + created [(m.step call).1] ≤ UInt64.size) : (m.step call).1 ≠ .token token := by
  intro h
  obtain ⟨rfl, hlt⟩ := hm.token_of_step hn h
  exact hissued.ne_next hlt rfl

/-- A token that went out of use does not come back. -/
theorem Sound.lacks_step (hm : m.Sound seed n) (hissued : IsIssued seed n token)
    (hn : n + created [(m.step call).1] ≤ UInt64.size) (h : m.ledger.Lacks token) :
    (m.step call).2.ledger.Lacks token :=
  Session.lacks_step h (hm.answer_ne_token hissued hn)

/-- The first call at an instant by which a lock has expired drops it. -/
theorem Sound.lacks_of_expired (hm : m.Sound seed n) (ho : m.ledger.Orderly)
    (hn : n + created [(m.step call).1] ≤ UInt64.size) (hl : lock ∈ m.ledger.locks)
    (hnow : call.now? = some now) (hexpired : lock.expired now = true) :
    (m.step call).2.ledger.Lacks lock.token := by
  -- The lock is gone before the call looks at anything, so the call is one on a ledger without it.
  have hswept : (m.ledger.sweep? call.now?).Lacks lock.token := by
    rw [hnow]
    exact ho.lacks_sweep hl hexpired
  have hanswer := hm.answer_ne_token (hm.lock_issued lock hl) hn
  rw [← step_sweep? m call] at hanswer ⊢
  exact Session.lacks_step hswept hanswer

end Session

end Ledger

/-! ## Tokens that no lock has -/

/-- At this instant, no lock with the token is found, and none stands in the way. -/
structure LockTable.Misses (t : LockTable) (token : String) (now : Instant) : Prop where
  lockAt : ∀ name info, (t.lockAt now name).1 = .ok info → info.token ≠ token
  confirm : ∀ name₀ name₁ conditions claim,
    (t.confirm now name₀ name₁ conditions).1 = .ok claim → token ∉ claim.tokens
  refresh : ∀ duration, (t.refresh now token duration).1 = .error .noSuchLock
  unlock : (t.unlock now token).1 = .error .noSuchLock
  /-- What stands in the way of a new lock is a lock with another token. -/
  create : ∀ details, (t.create now details).1 = .error .locked →
    ∃ lock ∈ (t.sweep now).locks, lock.token ≠ token ∧
      lock.Conflicts (Path.clean details.root) details.zeroDepth

/-- No lock of the table has this token, at any instant. -/
structure LockTable.Lacks (t : LockTable) (token : String) : Prop where
  locks : ∀ lock ∈ t.locks, lock.token ≠ token
  misses : ∀ now, t.Misses token now

namespace LockTable

variable {t : LockTable} {l : Ledger} {token : String} {now : Instant}

theorem Represents.misses (hr : Represents t l) (ho : l.Orderly) (h : (l.sweep now).Lacks token) :
    t.Misses token now where
  lockAt name info hinfo := by
    rw [(hr.lockAt ho.exclusive now name).1, ho.lockAt_eq_ok_iff] at hinfo
    obtain ⟨lock, hl, _, rfl⟩ := hinfo
    exact h lock hl
  confirm name₀ name₁ conditions claim hclaim := by
    intro htoken
    have htokens := hr.confirm_eq_ok_iff.2 ⟨claim, hclaim, rfl⟩
    obtain ⟨lock, hl, hlock, _⟩ := (Ledger.free_of_confirm (Prod.ext htokens rfl)).2 token htoken
    exact h lock hl hlock
  refresh duration := by
    rw [(hr.refresh now token duration).1, Ledger.refresh_of_absent h]
  unlock := by rw [(hr.unlock now token).1, Ledger.unlock_of_absent h]
  create details hlocked := by
    rw [(hr.create now details).1] at hlocked
    have hconflict : ∃ lock ∈ (l.sweep now).locks,
        lock.Conflicts (Path.clean details.root) details.zeroDepth := by
      by_contra hnone
      rw [Ledger.create_of_no_conflict hnone] at hlocked
      exact absurd hlocked (by simp)
    obtain ⟨lock, hl, hc⟩ := hconflict
    exact ⟨lock, (hr.sweep now).holds.locks_perm.mem_iff.2 hl, h lock hl, hc⟩

theorem Represents.lacks (hr : Represents t l) (ho : l.Orderly) (h : l.Lacks token) :
    t.Lacks token where
  locks lock hl := h lock (hr.holds.locks_perm.mem_iff.1 hl)
  misses _ := hr.misses ho (h.sweep _)

end LockTable

namespace Session

variable {s : Session} {m : Ledger.Session} {seed : UInt64} {n : Nat} {calls : List Call}

/-! ## Runs -/

theorem run_append (s : Session) (calls more : List Call) : s.run (calls ++ more) =
    ((s.run calls).1 ++ ((s.run calls).2.run more).1, ((s.run calls).2.run more).2) := by
  induction calls generalizing s with
  | nil => rfl
  | cons call calls ih => rw [List.cons_append, run_cons, ih, run_cons, List.cons_append]

theorem created_run_append (s : Session) (calls more : List Call) :
    created (s.run (calls ++ more)).1 =
      created (s.run calls).1 + created ((s.run calls).2.run more).1 := by
  rw [run_append]
  exact List.countP_append

/-- The session does what one on a ledger does in which `n` creates have succeeded. -/
structure Tracks (seed : UInt64) (n : Nat) (s : Session) (m : Ledger.Session) : Prop where
  refines : Refines s m
  sound : m.Sound seed n

theorem Tracks.orderly (h : Tracks seed n s m) : m.ledger.Orderly := h.refines.orderly h.sound

theorem Tracks.mem_locks (h : Tracks seed n s m) {lock : Lock} :
    lock ∈ s.table.locks ↔ lock ∈ m.ledger.locks :=
  h.refines.represents.holds.locks_perm.mem_iff

theorem Tracks.step (h : Tracks seed n s m) {call : Call}
    (hn : n + created [(s.step call).1] ≤ UInt64.size) :
    (s.step call).1 = (m.step call).1 ∧
      Tracks seed (n + created [(s.step call).1]) (s.step call).2 (m.step call).2 := by
  obtain ⟨hanswer, hrefines⟩ := h.refines.step h.sound call hn
  rw [hanswer] at hn ⊢
  exact ⟨rfl, hrefines, h.sound.step call hn⟩

theorem created_claim (s : Session) (now : Instant) (name₀ name₁ : String)
    (conditions : List Condition) : created [(s.claim now name₀ name₁ conditions).1] = 0 := by
  unfold claim
  split <;> rfl

theorem created_release {number : Nat} {told : Except LockError Unit → Answer}
    (htold : ∀ result, (told result).isToken = false) :
    created [(s.release number told).1] = 0 := by
  unfold created release
  rw [List.countP_singleton]
  split
  · rfl
  · simp [htold]

/-- A create succeeds on the table if it does on the ledger, however many did before. -/
theorem Refines.created_step (h : Refines s m) (call : Call) :
    created [(s.step call).1] = created [(m.step call).1] := by
  have hresult : ∀ {α : Type} {f : α → Answer}, (∀ a, (f a).isToken = false) →
      ∀ result result' : Except LockError α,
        created [Answer.ofResult f result] = created [Answer.ofResult f result'] := by
    intro α f hf result result'
    rw [Ledger.Session.created_ofResult hf, Ledger.Session.created_ofResult hf]
  have hclaim : ∀ now name₀ name₁ conditions,
      created [(s.claim now name₀ name₁ conditions).1] =
        created [(m.claim now name₀ name₁ conditions).1] := by
    intro now name₀ name₁ conditions
    rw [created_claim, Ledger.Session.created_claim]
  have hrelease : ∀ number {told : Except LockError Unit → Answer},
      (∀ result, (told result).isToken = false) →
        created [(s.release number told).1] = created [(m.release number).1] := by
    intro number told htold
    rw [created_release htold, Ledger.Session.created_release]
  cases call with
  | create now details =>
    exact congrArg (fun result => created [Answer.ofResult .token result])
      (h.represents.create now details).1
  | refresh now token duration => exact hresult (fun _ => rfl) _ _
  | unlock now token => exact hresult (fun _ => rfl) _ _
  | confirm now name₀ name₁ conditions => exact hclaim now name₀ name₁ conditions
  | guard now name₀ name₁ conditions => exact hclaim now name₀ name₁ conditions
  | release number => exact hrelease number fun result => by cases result <;> rfl
  | dropGuard number => exact hrelease number fun _ => rfl
  | lockAt now name => exact hresult (fun _ => rfl) _ _
  | delete now name => rfl
  | countAt now => rfl
  | size => rfl
  | isEmpty => rfl

theorem Tracks.run (h : Tracks seed n s m) (hn : n + created (s.run calls).1 ≤ UInt64.size) :
    Tracks seed (n + created (s.run calls).1) (s.run calls).2 (m.run calls).2 := by
  obtain ⟨hanswers, hrefines⟩ := h.refines.run h.sound calls hn
  rw [hanswers] at hn ⊢
  exact ⟨hrefines, h.sound.run calls hn⟩

/-- It is enough that no more creates succeed on the ledger than there are tokens. -/
theorem Tracks.answers_eq (h : Tracks seed n s m)
    (hn : n + created (m.run calls).1 ≤ UInt64.size) : (s.run calls).1 = (m.run calls).1 := by
  induction calls generalizing s m n with
  | nil => rfl
  | cons call calls ih =>
    rw [Ledger.Session.created_run_cons, ← Nat.add_assoc, ← h.refines.created_step] at hn
    obtain ⟨hanswer, hnext⟩ := h.step (Nat.le_of_add_right_le hn)
    rw [run_cons, Ledger.Session.run_cons, hanswer, ih hnext hn]

/-- What single calls keep that are answered in some way, a run of such calls keeps. -/
theorem Tracks.run_induction {P : Nat → Ledger.Session → Prop} {Q : Call → Answer → Prop}
    (hstep : ∀ {s : Session} {m : Ledger.Session} {n : Nat} {call : Call}, Tracks seed n s m →
      n + created [(m.step call).1] ≤ UInt64.size → Q call (m.step call).1 → P n m →
        P (n + created [(m.step call).1]) (m.step call).2)
    (h : Tracks seed n s m) (hn : n + created (s.run calls).1 ≤ UInt64.size)
    (hcalls : ∀ call answer, (call, answer) ∈ calls.zip (s.run calls).1 → Q call answer)
    (hP : P n m) : P (n + created (s.run calls).1) (m.run calls).2 := by
  induction calls generalizing s m n with
  | nil => exact hP
  | cons call calls ih =>
    rw [run_cons, List.zip_cons_cons] at hcalls
    rw [created_run_cons, ← Nat.add_assoc] at hn ⊢
    have hcall := Nat.le_of_add_right_le hn
    obtain ⟨hanswer, hnext⟩ := h.step hcall
    have hhead : P (n + created [(s.step call).1]) (m.step call).2 := by
      rw [hanswer] at hcall hcalls ⊢
      exact hstep h hcall (hcalls _ _ List.mem_cons_self) hP
    exact ih hnext hn (fun call answer hin => hcalls call answer (List.mem_cons_of_mem _ hin)) hhead

/-- Calls lead to this session, and `n` creates succeed on the way. -/
def ReachableAfter (n : Nat) (s : Session) : Prop :=
  ∃ seed calls, created ((start seed).run calls).1 = n ∧ ((start seed).run calls).2 = s

theorem tracks_start (seed : UInt64) : Tracks seed 0 (start seed) (Ledger.Session.start seed) :=
  ⟨refines_start seed, Ledger.Session.sound_start seed⟩

theorem tracks_run (hcreated : created ((start seed).run calls).1 ≤ UInt64.size) :
    Tracks seed (created ((start seed).run calls).1) ((start seed).run calls).2
      ((Ledger.Session.start seed).run calls).2 := by
  have hcalls : 0 + created ((start seed).run calls).1 ≤ UInt64.size := by rwa [Nat.zero_add]
  have hrun := (tracks_start seed).run hcalls
  rwa [Nat.zero_add] at hrun

theorem ReachableAfter.tracks (hs : s.ReachableAfter n) (hn : n ≤ UInt64.size) :
    ∃ seed m, Tracks seed n s m := by
  obtain ⟨seed, calls, rfl, rfl⟩ := hs
  exact ⟨seed, _, tracks_run hn⟩

end Session

end PathLock
