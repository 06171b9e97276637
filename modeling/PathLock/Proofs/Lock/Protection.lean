import PathLock.Proofs.Lock.Later

/-!
# Claimed locks are protected

From a successful claim until its release, and as long as no delete is on its root, a claimed lock
can be neither refreshed nor unlocked nor claimed again, blocks what it blocks, and is found as it
was claimed at any instant, past its expiry too. From the release on its expiry counts again
(`Session.ReachableAfter.claimed_lock_protected`).

What carries this along a run is that the lock is there, held, and has its token in the claim
(`Ledger.Session.Keeps`).
-/

namespace PathLock

/-- The call does not release the claim with this number, and is no delete on this name. -/
def Call.Spares (number : Nat) (root : String) : Call → Prop
  | .release other => other ≠ number
  | .dropGuard other => other ≠ number
  | .delete _ name => Path.clean name ≠ root
  | _ => True

namespace Ledger.Session

variable {m : Ledger.Session} {seed : UInt64} {n number : Nat} {call : Call} {lock : Lock}
  {tokens : List String}

/-! ## What a claim keeps -/

/-- The lock is held, and its token is in the outstanding claim with this number. -/
structure Keeps (m : Ledger.Session) (number : Nat) (lock : Lock) : Prop where
  mem : { lock with held := true } ∈ m.ledger.locks
  claimed : ∃ tokens, (number, tokens) ∈ m.outstanding ∧ lock.token ∈ tokens

/-- No token is in two claims. -/
theorem Sound.number_eq (hm : m.Sound seed n) {entry other : Nat × List String}
    (he : entry ∈ m.outstanding) (ho : other ∈ m.outstanding) {token : String}
    (ht : token ∈ entry.2) (ht' : token ∈ other.2) : entry = other := by
  by_contra hne
  have hdisjoint := (List.nodup_flatMap.1 hm.claimed_once).2
  have : Std.Symm (Function.onFun List.Disjoint fun entry : Nat × List String => entry.2) :=
    ⟨fun _ _ h token ht ht' => h ht' ht⟩
  exact hdisjoint.forall he ho hne ht ht'

theorem mem_outstanding_of_lookup {number : Nat}
    (h : m.outstanding.lookup number = some tokens) : (number, tokens) ∈ m.outstanding := by
  obtain ⟨before, after, heq, _⟩ := List.lookup_eq_some_iff.1 h
  rw [heq]
  exact List.mem_append_right _ List.mem_cons_self

theorem mem_outstanding_claim (h : (number, tokens) ∈ m.outstanding) (now : Instant)
    (name₀ name₁ : String) (conditions : List Condition) :
    (number, tokens) ∈ (m.claim now name₀ name₁ conditions).2.outstanding := by
  unfold claim
  split
  · exact List.mem_cons_of_mem _ h
  · exact h

theorem mem_outstanding_release (h : (number, tokens) ∈ m.outstanding) {other : Nat}
    (hne : other ≠ number) : (number, tokens) ∈ (m.release other).2.outstanding := by
  unfold release
  split
  · exact h
  · exact List.mem_filter.2 ⟨h, decide_eq_true hne.symm⟩

/-- A claim stays outstanding until it is released. -/
theorem mem_outstanding_step {root : String} (hspares : call.Spares number root)
    (h : (number, tokens) ∈ m.outstanding) : (number, tokens) ∈ (m.step call).2.outstanding := by
  cases call with
  | confirm now name₀ name₁ conditions => exact mem_outstanding_claim h _ _ _ _
  | guard now name₀ name₁ conditions => exact mem_outstanding_claim h _ _ _ _
  | release other => exact mem_outstanding_release h hspares
  | dropGuard other => exact mem_outstanding_release h hspares
  | _ => exact h

theorem Keeps.leavesAlone (h : m.Keeps number lock) (hm : m.Sound seed n) (ho : m.ledger.Orderly)
    (hspares : call.Spares number lock.root) :
    m.LeavesAlone { lock with held := true } call := by
  -- The token is in one claim only, so the release of another one does not reach the lock.
  have hrelease : ∀ other, other ≠ number → ∀ tokens, m.outstanding.lookup other = some tokens →
      lock.token ∈ tokens → true = false := by
    intro other hne tokens hlookup htoken
    obtain ⟨kept, hkept, hin⟩ := h.claimed
    have heq := hm.number_eq (mem_outstanding_of_lookup hlookup) hkept htoken hin
    exact absurd (congrArg Prod.fst heq) hne
  cases call with
  | refresh now token duration =>
    rintro rfl
    exact ⟨.locked, congrArg Prod.fst (ho.refresh_of_held h.mem rfl now duration)⟩
  | unlock now token =>
    rintro rfl
    exact ⟨.locked, congrArg Prod.fst (ho.unlock_of_held h.mem rfl now)⟩
  | confirm now name₀ name₁ conditions => exact fun _ _ _ => rfl
  | guard now name₀ name₁ conditions => exact fun _ _ _ => rfl
  | release other => exact hrelease other hspares
  | dropGuard other => exact hrelease other hspares
  | delete now name => exact Ne.symm hspares
  | _ => trivial

theorem Keeps.step (h : m.Keeps number lock) (hm : m.Sound seed n) (ho : m.ledger.Orderly)
    (hspares : call.Spares number lock.root) : (m.step call).2.Keeps number lock where
  mem := mem_step h.mem (fun _ _ => rfl) (h.leavesAlone hm ho hspares)
  claimed := by
    obtain ⟨tokens, htokens, hin⟩ := h.claimed
    exact ⟨tokens, mem_outstanding_step hspares htokens, hin⟩

/-! ## From claim to release -/

theorem confirm_of_claim {now : Instant} {name₀ name₁ : String} {conditions : List Condition}
    (h : (m.claim now name₀ name₁ conditions).1 = .claim number tokens) :
    ∃ l', m.ledger.confirm now name₀ name₁ conditions = (.ok tokens, l') ∧
      (m.claim now name₀ name₁ conditions).2.ledger = l' ∧
      (number, tokens) ∈ (m.claim now name₀ name₁ conditions).2.outstanding := by
  unfold claim at h ⊢
  split at h
  · rename_i l' hconfirm
    obtain ⟨rfl, rfl⟩ := Answer.claim.inj h
    rw [hconfirm]
    exact ⟨l', rfl, rfl, List.mem_cons_self⟩
  · exact Answer.noConfusion h

/-- Only a confirm is answered with a claim. -/
theorem claim_of_step (h : (m.step call).1 = .claim number tokens) :
    ∃ now name₀ name₁ conditions l',
      m.ledger.confirm now name₀ name₁ conditions = (.ok tokens, l') ∧
      (m.step call).2.ledger = l' ∧ (number, tokens) ∈ (m.step call).2.outstanding := by
  have hresult : ∀ {α : Type} {f : α → Answer} {result : Except LockError α},
      (∀ a, f a ≠ .claim number tokens) → Answer.ofResult f result ≠ .claim number tokens := by
    intro α f result hf
    cases result with
    | ok a => exact hf a
    | error e => exact Answer.noConfusion
  have hrelease : ∀ other, (m.release other).1 ≠ .claim number tokens := by
    intro other
    unfold release
    split <;> exact Answer.noConfusion
  cases call with
  | confirm now name₀ name₁ conditions => exact ⟨now, name₀, name₁, conditions, confirm_of_claim h⟩
  | guard now name₀ name₁ conditions => exact ⟨now, name₀, name₁, conditions, confirm_of_claim h⟩
  | create now details => exact absurd h (hresult (by simp))
  | refresh now token duration => exact absurd h (hresult (by simp))
  | unlock now token => exact absurd h (hresult (by simp))
  | release other => exact absurd h (hrelease other)
  | dropGuard other => exact absurd h (hrelease other)
  | lockAt now name => exact absurd h (hresult (by simp))
  | delete now name => exact Answer.noConfusion h
  | countAt now => exact Answer.noConfusion h
  | size => exact Answer.noConfusion h
  | isEmpty => exact Answer.noConfusion h

/-- What is claimed was there, free, and is kept. -/
theorem keeps_of_claim (h : (m.step call).1 = .claim number tokens) {token : String}
    (ht : token ∈ tokens) : ∃ lock ∈ m.ledger.locks, lock.token = token ∧ lock.held = false ∧
      (m.step call).2.Keeps number lock := by
  obtain ⟨now, name₀, name₁, conditions, l', hconfirm, hledger, hout⟩ := claim_of_step h
  obtain ⟨lock, hl, rfl, hfree⟩ := (free_of_confirm hconfirm).2 token ht
  obtain ⟨_, _, _, _, _, rfl⟩ := confirm_ok hconfirm
  refine ⟨lock, (mem_sweep.1 hl).1, rfl, hfree, ?_, tokens, hout, ht⟩
  rw [hledger]
  exact mem_setHeld.2 ⟨lock, hl, if_pos ht⟩

/-- A lock that is let go is as it was before it was claimed. -/
theorem Keeps.release (h : m.Keeps number lock) (hm : m.Sound seed n) (hfree : lock.held = false) :
    lock ∈ (m.release number).2.ledger.locks := by
  obtain ⟨tokens, hout, hin⟩ := h.claimed
  unfold Session.release
  rw [lookup_of_mem hm.numbers hout]
  refine mem_setHeld.2 ⟨_, h.mem, ?_⟩
  rw [if_pos hin, ← hfree]

end Ledger.Session

/-- The lock is out of reach, and is found as it is. -/
structure LockTable.Protects (t : LockTable) (lock : Lock) : Prop where
  refresh : ∀ now duration, (t.refresh now lock.token duration).1 = .error .locked
  unlock : ∀ now, (t.unlock now lock.token).1 = .error .locked
  confirm : ∀ now name₀ name₁ conditions claim,
    (t.confirm now name₀ name₁ conditions).1 = .ok claim → lock.token ∉ claim.tokens
  create : ∀ now details, lock.Conflicts (Path.clean details.root) details.zeroDepth →
    (t.create now details).1 = .error .locked
  lockAt : ∀ now, (t.lockAt now lock.root).1 = .ok (describe lock)

namespace Session

variable {s : Session} {m : Ledger.Session} {seed : UInt64} {n number : Nat} {lock : Lock}

/-- The lock is found before its expiry and not from then on, and the first call from then on drops
it. -/
structure Expires (s : Session) (n : Nat) (lock : Lock) : Prop where
  mem : lock ∈ s.table.locks
  lockAt : ∀ now, (∀ due, lock.expiry = some due → now < due) →
    (s.table.lockAt now lock.root).1 = .ok (LockTable.describe lock)
  misses : ∀ now due, lock.expiry = some due → due ≤ now → s.table.Misses lock.token now
  drops : ∀ call now due, call.now? = some now → lock.expiry = some due → due ≤ now →
    n + created [(s.step call).1] ≤ UInt64.size → (s.step call).2.table.Lacks lock.token

theorem Tracks.protects (h : Tracks seed n s m) (hk : m.Keeps number lock) :
    s.table.Protects lock where
  refresh now duration := by
    rw [(h.refines.represents.refresh now lock.token duration).1]
    exact congrArg Prod.fst (h.orderly.refresh_of_held hk.mem rfl now duration)
  unlock now := by
    rw [(h.refines.represents.unlock now lock.token).1]
    exact congrArg Prod.fst (h.orderly.unlock_of_held hk.mem rfl now)
  confirm now name₀ name₁ conditions claim hclaim := by
    have hconfirm := h.refines.represents.confirm_eq_ok_iff.2 ⟨claim, hclaim, rfl⟩
    have hmem := h.orderly.not_mem_of_confirm_ok hk.mem rfl hconfirm
    exact hmem
  create now details hc := by
    rw [(h.refines.represents.create now details).1, Ledger.create_of_conflict]
    exact ⟨{ lock with held := true }, Ledger.mem_sweep_of_held hk.mem rfl, hc⟩
  lockAt now := by
    have hswept : { lock with held := true } ∈ (m.ledger.sweep now).locks :=
      Ledger.mem_sweep_of_held hk.mem rfl
    have hfound := h.orderly.lockAt_root hswept
    rw [(h.refines.represents.lockAt h.orderly.exclusive now lock.root).1]
    exact hfound

theorem Tracks.expires (h : Tracks seed n s m) (hl : lock ∈ m.ledger.locks)
    (hfree : lock.held = false) : s.Expires n lock where
  mem := h.mem_locks.2 hl
  lockAt now hlive := by
    have hswept : lock ∈ (m.ledger.sweep now).locks := by
      refine Ledger.mem_sweep.2 ⟨hl, ?_⟩
      rw [← Bool.not_eq_true, Lock.expired_iff_of_free hfree]
      rintro ⟨due, hdue, hle⟩
      exact absurd hle (not_le.2 (hlive due hdue))
    rw [(h.refines.represents.lockAt h.orderly.exclusive now lock.root).1]
    exact h.orderly.lockAt_root hswept
  misses now due hdue hle := by
    have hexpired := (Lock.expired_iff_of_free hfree).2 ⟨due, hdue, hle⟩
    exact h.refines.represents.misses h.orderly (h.orderly.lacks_sweep hl hexpired)
  drops call now due hnow hdue hle hn := by
    obtain ⟨hanswer, hnext⟩ := h.step hn
    rw [hanswer] at hn
    have hexpired := (Lock.expired_iff_of_free hfree).2 ⟨due, hdue, hle⟩
    exact hnext.refines.represents.lacks hnext.orderly
      (h.sound.lacks_of_expired h.orderly hn hl hnow hexpired)

theorem Tracks.expires_of_release (h : Tracks seed n s m) (hn : n ≤ UInt64.size)
    (hk : m.Keeps number lock) (hfree : lock.held = false) {release : Call}
    (hrelease : release ∈ [Call.release number, .dropGuard number]) :
    (s.step release).2.Expires n lock := by
  have hledger : m.step release = m.release number := by
    rcases List.mem_pair.1 hrelease with rfl | rfl <;> rfl
  have hcreated : created [(s.step release).1] = 0 := by
    rcases List.mem_pair.1 hrelease with rfl | rfl
    · exact created_release fun result => by cases result <;> rfl
    · exact created_release fun _ => rfl
  have hstep : n + created [(s.step release).1] ≤ UInt64.size := by rwa [hcreated]
  have hnext := (h.step hstep).2
  rw [hcreated, hledger] at hnext
  exact hnext.expires (hk.release h.sound hfree) hfree

/-- A claimed lock is protected until its claim is released, and has its expiry from then on. -/
theorem ReachableAfter.claimed_lock_protected (hs : s.ReachableAfter n) (hn : n ≤ UInt64.size)
    {claiming : Call} {tokens : List String}
    (hclaim : (s.step claiming).1 = .claim number tokens) {token : String} (ht : token ∈ tokens) :
    ∃ lock ∈ s.table.locks, lock.token = token ∧ ∀ later : List Call,
      (∀ call ∈ later, call.Spares number lock.root) →
        n + created ((s.step claiming).2.run later).1 ≤ UInt64.size →
          ((s.step claiming).2.run later).2.table.Protects lock ∧
          ∀ release ∈ [Call.release number, .dropGuard number],
            (((s.step claiming).2.run later).2.step release).2.Expires
              (n + created ((s.step claiming).2.run later).1) lock := by
  obtain ⟨seed, m, hm⟩ := hs.tracks hn
  have hcreated : created [(s.step claiming).1] = 0 := by rw [hclaim]; rfl
  have hclaiming : n + created [(s.step claiming).1] ≤ UInt64.size := by rwa [hcreated]
  obtain ⟨hanswer, hnext⟩ := hm.step hclaiming
  rw [hcreated, Nat.add_zero] at hnext
  obtain ⟨lock, hl, htoken, hfree, hkeeps⟩ := Ledger.Session.keeps_of_claim (hanswer ▸ hclaim) ht
  refine ⟨lock, hm.mem_locks.2 hl, htoken, fun later hspares hlater => ?_⟩
  have htracks := hnext.run hlater
  have hkept : ((m.step claiming).2.run later).2.Keeps number lock :=
    hnext.run_induction (P := fun _ m => m.Keeps number lock)
      (Q := fun call _ => call.Spares number lock.root)
      (fun h _ hspares hk => hk.step h.sound h.orderly hspares) hlater
      (fun call _ hin => hspares call (List.of_mem_zip hin).1) hkeeps
  refine ⟨htracks.protects hkept, fun release hrelease => ?_⟩
  exact htracks.expires_of_release hlater hkept hfree hrelease

/-- A lock on a subtree for a minute. -/
def minuteLock : List Call := [.create .epoch { root := "/a", duration := .seconds 60 }]

/-- A claim of it by way of a name in the subtree. -/
def minuteClaim : Call := .guard .epoch "/a/x" "" [.ofToken "8"]

/-- Calls long after the minute, on the lock, below it and beside it. -/
def longAfter : List Call :=
  [.refresh .last "8" .infinite,
    .unlock .last "8",
    .confirm .last "/a" "" [.ofToken "8"],
    .create .last { root := "/a/b", duration := .infinite },
    .create .last { root := "/c", duration := .seconds 0 },
    .delete .last "/c",
    .dropGuard 1]

theorem claimed_lock_protected_past_expiry :
    ((start 7).run minuteLock).2.ReachableAfter 1 ∧
      (((start 7).run minuteLock).2.step minuteClaim).1 = .claim 0 ["8"] ∧
      ∃ lock ∈ ((start 7).run minuteLock).2.table.locks, lock.token = "8" ∧
        ((((start 7).run minuteLock).2.step minuteClaim).2.run longAfter).2.table.Protects lock ∧
        ∀ release ∈ [Call.release 0, .dropGuard 0],
          (((((start 7).run minuteLock).2.step minuteClaim).2.run longAfter).2.step
            release).2.Expires 2 lock := by
  have hs : ((start 7).run minuteLock).2.ReachableAfter 1 := ⟨7, minuteLock, by decide +kernel, rfl⟩
  have hclaim : (((start 7).run minuteLock).2.step minuteClaim).1 = .claim 0 ["8"] := by
    decide +kernel
  obtain ⟨lock, hl, htoken, hprotected⟩ :=
    hs.claimed_lock_protected (by decide) hclaim (List.mem_singleton_self "8")
  have hroot : lock.root = "/a" := by
    have hlocks : ∀ lock ∈ ((start 7).run minuteLock).2.table.locks, lock.root = "/a" := by
      decide +kernel
    exact hlocks lock hl
  have hspares : ∀ call ∈ longAfter, call.Spares 0 lock.root := by
    have hother : Path.clean "/c" ≠ "/a" := by decide +kernel
    simp [longAfter, Call.Spares, hroot, hother]
  have hcreated :
      created ((((start 7).run minuteLock).2.step minuteClaim).2.run longAfter).1 = 1 := by
    decide +kernel
  have hlater := hprotected longAfter hspares
  rw [hcreated] at hlater
  exact ⟨hs, hclaim, lock, hl, htoken, hlater (by decide)⟩

end Session

end PathLock
