import PathLock.Proofs.Lock.Later

/-!
# Locks live until they expire

A create or refresh gives a lock its expiry. As long as nothing else ends it, the lock is found at
every instant before, and calls at instants before do not change that, whatever they are about; the
first call at the expiry or later ends it for good. A lock without an expiry is always found
(`Session.ReachableAfter.lock_lives_until_expiry`).

A run that leaves the lock alone keeps it as it is or drops it
(`Session.Tracks.stays_or_lacks`), and which of the two happens is a matter of the instants.
-/

namespace PathLock

namespace Call

/-- The call, so answered, started the time of the lock with this token and root. -/
inductive Starts (now : Instant) (timeout : Timeout) (token root : String) : Call → Answer → Prop
  | create {details : Details} (hduration : details.duration = timeout)
      (hroot : Path.clean details.root = root) :
      Starts now timeout token root (.create now details) (.token token)
  | refresh {details : Details} (hroot : details.root = root) :
      Starts now timeout token root (.refresh now token timeout) (.details details)

/-- The call, so answered, neither refreshed nor unlocked nor claimed the lock with this token and
root, and is no delete on the root. -/
def Leaves (token root : String) : Call → Answer → Prop
  | .refresh _ other _, .details _ => other ≠ token
  | .unlock _ other, .done => other ≠ token
  | .confirm .., .claim _ tokens => token ∉ tokens
  | .guard .., .claim _ tokens => token ∉ tokens
  | .delete _ name, _ => Path.clean name ≠ root
  | _, _ => True

end Call

/-- On this name, the lock with this token and expiry is found. -/
def LockTable.Finds (t : LockTable) (now : Instant) (name token : String)
    (expiry : Option Instant) : Prop :=
  ∃ info, (t.lockAt now name).1 = .ok info ∧ info.token = token ∧ info.expiry = expiry

namespace Ledger

variable {l : Ledger} {now : Instant} {token : String} {timeout : Timeout} {details : Details}

theorem mem_of_create_ok (h : (l.create now details).1 = .ok token) :
    Lock.fresh token now details ∈ (l.create now details).2.locks := by
  have hcreate : l.create now details = (.ok token, (l.create now details).2) := Prod.ext h rfl
  rw [(create_ok hcreate).2.2]
  exact List.mem_cons_self

theorem mem_of_refresh_ok (h : (l.refresh now token timeout).1 = .ok details) :
    ∃ lock ∈ (l.refresh now token timeout).2.locks, lock.token = token ∧
      lock.root = details.root ∧ lock.held = false ∧ lock.expiry = timeout.expiry now := by
  unfold refresh at h ⊢
  dsimp only at h ⊢
  split at h
  · exact absurd h (by simp)
  · rename_i lock hfind
    obtain ⟨hl, rfl⟩ := mem_of_find?_eq_some hfind
    split_ifs at h ⊢ with hheld
    rw [← Except.ok.inj h]
    refine ⟨_, List.mem_map.2 ⟨lock, hl, if_pos rfl⟩, rfl, rfl, ?_, rfl⟩
    exact Bool.eq_false_iff.2 hheld

namespace Session

variable {m : Ledger.Session} {call : Call} {root : String} {lock : Lock}

theorem exists_lock_of_starts (h : call.Starts now timeout token root (m.step call).1) :
    ∃ lock ∈ (m.step call).2.ledger.locks, lock.token = token ∧ lock.root = root ∧
      lock.held = false ∧ lock.expiry = timeout.expiry now := by
  generalize hanswer : (m.step call).1 = answer at h
  cases h with
  | create hduration hroot =>
    subst hduration hroot
    have hcreated := mem_of_create_ok (ok_of_ofResult (by simp) (by simp) hanswer)
    exact ⟨_, hcreated, rfl, rfl, rfl, rfl⟩
  | refresh hroot =>
    have hrefreshed := mem_of_refresh_ok (ok_of_ofResult (by simp) (by simp) hanswer)
    exact hroot ▸ hrefreshed

theorem claim_of_confirm_ok {name₀ name₁ : String} {conditions : List Condition}
    {tokens : List String} (h : (m.ledger.confirm now name₀ name₁ conditions).1 = .ok tokens) :
    (m.claim now name₀ name₁ conditions).1 = .claim m.claimsMade tokens := by
  unfold claim
  split
  · rename_i hconfirm
    rw [hconfirm] at h
    rw [Except.ok.inj h]
  · rename_i hconfirm
    rw [hconfirm] at h
    exact absurd h (by simp)

/-- A call that does not end the time of a lock that is not held does not change it. -/
theorem leavesAlone_of_leaves (hfree : lock.held = false)
    (h : call.Leaves lock.token lock.root (m.step call).1) : m.LeavesAlone lock call := by
  cases call with
  | refresh now token duration =>
    rintro rfl
    cases hresult : (m.ledger.refresh now lock.token duration).1 with
    | error e => exact ⟨e, rfl⟩
    | ok details =>
      have hanswer : (m.step (.refresh now lock.token duration)).1 = .details details :=
        congrArg (Answer.ofResult .details) hresult
      rw [hanswer] at h
      exact absurd rfl h
  | unlock now token =>
    rintro rfl
    cases hresult : (m.ledger.unlock now lock.token).1 with
    | error e => exact ⟨e, rfl⟩
    | ok _ =>
      have hanswer : (m.step (.unlock now lock.token)).1 = .done :=
        congrArg (Answer.ofResult fun _ => .done) hresult
      rw [hanswer] at h
      exact absurd rfl h
  | confirm now name₀ name₁ conditions =>
    intro tokens hok htoken
    have hanswer : (m.step (.confirm now name₀ name₁ conditions)).1 = .claim m.claimsMade tokens :=
      claim_of_confirm_ok hok
    rw [hanswer] at h
    exact absurd htoken h
  | guard now name₀ name₁ conditions =>
    intro tokens hok htoken
    have hanswer : (m.step (.guard now name₀ name₁ conditions)).1 = .claim m.claimsMade tokens :=
      claim_of_confirm_ok hok
    rw [hanswer] at h
    exact absurd htoken h
  | release number => exact fun _ _ _ => hfree
  | dropGuard number => exact fun _ _ _ => hfree
  | delete now name => exact Ne.symm h
  | _ => trivial

end Session

end Ledger

/-- What there is to see of a lock with this expiry, which is otherwise let be, when calls at these
instants were made since its time was started, and `n` creates have succeeded in all. -/
structure Session.LivesUntil (s : Session) (n : ℕ) (token root : String) (due : Instant)
    (nows : List Instant) : Prop where
  found : ∀ u, s.table.Finds u root token due ↔ u < due ∧ ∀ now ∈ nows, now < due
  missed : ∀ u, due ≤ u → s.table.Misses token u
  dropped : ∀ call u, call.now? = some u → due ≤ u → ∀ more,
    n + created (s.run (call :: more)).1 ≤ UInt64.size →
      (s.run (call :: more)).2.table.Lacks token

namespace Session

variable {s : Session} {m : Ledger.Session} {seed : UInt64} {n : ℕ} {calls : List Call}
  {lock : Lock} {token root : String}

/-! ## Runs that leave a lock alone -/

/-- A token that went out of use stays out of use. -/
theorem Tracks.lacks_run (h : Tracks seed n s m) (hissued : IsIssued seed n token)
    (hn : n + created (s.run calls).1 ≤ UInt64.size) (hlacks : m.ledger.Lacks token) :
    (m.run calls).2.ledger.Lacks token :=
  have hrun := h.run_induction (P := fun n m => IsIssued seed n token ∧ m.ledger.Lacks token)
    (Q := fun _ _ => True)
    (fun h hn _ hp => ⟨hp.1.mono (Nat.le_add_right _ _), h.sound.lacks_step hp.1 hn hp.2⟩) hn
    (fun _ _ _ => trivial) ⟨hissued, hlacks⟩
  hrun.2

/-- The first call by which a lock has expired ends it. -/
theorem Tracks.lacks_run_of_expired (h : Tracks seed n s m) (hl : lock ∈ m.ledger.locks)
    {call : Call} {now : Instant} (hnow : call.now? = some now) (hexpired : lock.expired now = true)
    (hn : n + created (s.run (call :: calls)).1 ≤ UInt64.size) :
    (m.run (call :: calls)).2.ledger.Lacks lock.token := by
  rw [created_run_cons, ← Nat.add_assoc] at hn
  have hcall := Nat.le_of_add_right_le hn
  obtain ⟨hanswer, hnext⟩ := h.step hcall
  refine hnext.lacks_run ((h.sound.lock_issued lock hl).mono (Nat.le_add_right _ _)) hn ?_
  rw [hanswer] at hcall
  exact h.sound.lacks_of_expired h.orderly hcall hl hnow hexpired

/-- Calls that leave a free lock alone keep it as it is, until one comes by which it has expired. -/
theorem Tracks.stays_or_lacks (h : Tracks seed n s m) (hl : lock ∈ m.ledger.locks)
    (hfree : lock.held = false) (hn : n + created (s.run calls).1 ≤ UInt64.size)
    (hleaves : ∀ call answer, (call, answer) ∈ calls.zip (s.run calls).1 →
      call.Leaves lock.token lock.root answer) :
    (∀ now ∈ calls.filterMap Call.now?, lock.expired now = false) ∧
        lock ∈ (m.run calls).2.ledger.locks ∨
      (∃ now ∈ calls.filterMap Call.now?, lock.expired now = true) ∧
        (m.run calls).2.ledger.Lacks lock.token := by
  -- Up to the first call by which the lock has expired it is there; that call decides for the rest.
  induction calls generalizing s m n with
  | nil => exact .inl ⟨fun _ hnow => absurd hnow List.not_mem_nil, hl⟩
  | cons call calls ih =>
    by_cases hexpires : ∃ now, call.now? = some now ∧ lock.expired now = true
    · obtain ⟨now, hnow, hexpired⟩ := hexpires
      have hmem : now ∈ (call :: calls).filterMap Call.now? :=
        List.mem_filterMap.2 ⟨call, List.mem_cons_self, hnow⟩
      exact .inr ⟨⟨now, hmem, hexpired⟩, h.lacks_run_of_expired hl hnow hexpired hn⟩
    · have hlive : ∀ now, call.now? = some now → lock.expired now = false := fun now hnow =>
        Bool.eq_false_iff.2 fun hexpired => hexpires ⟨now, hnow, hexpired⟩
      rw [run_cons, List.zip_cons_cons] at hleaves
      rw [created_run_cons, ← Nat.add_assoc] at hn
      obtain ⟨hanswer, hnext⟩ := h.step (Nat.le_of_add_right_le hn)
      have hcall := hleaves _ _ List.mem_cons_self
      rw [hanswer] at hcall
      have hstays := Ledger.Session.mem_step hl hlive
        (Ledger.Session.leavesAlone_of_leaves hfree hcall)
      have hrest := ih hnext hstays hn fun call answer hin =>
        hleaves call answer (List.mem_cons_of_mem _ hin)
      have hnows : ∀ now, now ∈ (call :: calls).filterMap Call.now? ↔
          call.now? = some now ∨ now ∈ calls.filterMap Call.now? := by
        intro now
        simp
      refine hrest.imp (And.imp_left fun hall now hnow => ?_) (And.imp_left ?_)
      · exact ((hnows now).1 hnow).elim (hlive now) (hall now)
      · rintro ⟨now, hnow, hexpired⟩
        exact ⟨now, (hnows now).2 (.inr hnow), hexpired⟩

/-! ## What is seen of the lock -/

theorem Tracks.finds (h : Tracks seed n s m) {u : Instant} (hl : lock ∈ m.ledger.locks)
    (hlive : lock.expired u = false) : s.table.Finds u lock.root lock.token lock.expiry := by
  refine ⟨LockTable.describe lock, ?_, rfl, rfl⟩
  rw [(h.refines.represents.lockAt h.orderly.exclusive u lock.root).1]
  exact h.orderly.lockAt_root (Ledger.mem_sweep.2 ⟨hl, hlive⟩)

theorem Tracks.livesUntil (h : Tracks seed n s m) (hissued : IsIssued seed n lock.token)
    (hfree : lock.held = false) {due : Instant} (hdue : lock.expiry = some due)
    {nows : List Instant}
    (hstate : (∀ now ∈ nows, lock.expired now = false) ∧ lock ∈ m.ledger.locks ∨
      (∃ now ∈ nows, lock.expired now = true) ∧ m.ledger.Lacks lock.token) :
    s.LivesUntil n lock.token lock.root due nows := by
  have hexpired : ∀ now, lock.expired now = true ↔ due ≤ now := by
    intro now
    rw [Lock.expired_iff_of_free hfree, hdue]
    simp
  have hlive : ∀ now, lock.expired now = false ↔ now < due := by
    intro now
    rw [Bool.eq_false_iff, Ne, hexpired, not_le]
  simp only [hexpired, hlive] at hstate
  have hmissed : ∀ u, due ≤ u → s.table.Misses lock.token u := by
    intro u hu
    refine h.refines.represents.misses h.orderly ?_
    rcases hstate with ⟨_, hl⟩ | ⟨_, hlacks⟩
    · exact h.orderly.lacks_sweep hl ((hexpired u).2 hu)
    · exact hlacks.sweep u
  refine ⟨fun u => ⟨?_, ?_⟩, hmissed, fun call u hnow hu more hn => ?_⟩
  · rintro ⟨info, hinfo, htoken, _⟩
    have hbefore : u < due := not_le.1 fun hu => (hmissed u hu).lockAt _ _ hinfo htoken
    rcases hstate with ⟨hall, _⟩ | ⟨_, hlacks⟩
    · exact ⟨hbefore, hall⟩
    · have hmisses := h.refines.represents.misses h.orderly (hlacks.sweep u)
      exact absurd htoken (hmisses.lockAt _ _ hinfo)
  · rintro ⟨hbefore, hall⟩
    rcases hstate with ⟨_, hl⟩ | ⟨⟨now, hnow, hle⟩, _⟩
    · exact hdue ▸ h.finds hl ((hlive u).2 hbefore)
    · exact absurd (hall now hnow) (not_lt.2 hle)
  · have hrun := h.run hn
    refine hrun.refines.represents.lacks hrun.orderly ?_
    rcases hstate with ⟨_, hl⟩ | ⟨_, hlacks⟩
    · exact h.lacks_run_of_expired hl hnow ((hexpired u).2 hu) hn
    · exact h.lacks_run hissued hn hlacks

/-- A lock lives until it expires, and not longer. -/
theorem ReachableAfter.lock_lives_until_expiry (hs : s.ReachableAfter n) {starting : Call}
    {now : Instant} {timeout : Timeout}
    (hstarts : starting.Starts now timeout token root (s.step starting).1) {later : List Call}
    (hn : n + created (s.run (starting :: later)).1 ≤ UInt64.size)
    (hleaves : ∀ call answer, (call, answer) ∈ later.zip ((s.step starting).2.run later).1 →
      call.Leaves token root answer) :
    (timeout = .infinite → ∀ u, (s.run (starting :: later)).2.table.Finds u root token none) ∧
      ∀ count, timeout = .seconds count → ∃ due : Instant,
        (due.parts = if count.toNat = 0 then now.parts
          else min (toLex (now.second + count.toNat, now.nano % nanosPerSecond))
            Instant.last.parts) ∧
        (s.run (starting :: later)).2.LivesUntil (n + created (s.run (starting :: later)).1) token
          root due (later.filterMap Call.now?) := by
  obtain ⟨seed, m, hm⟩ := hs.tracks (Nat.le_of_add_right_le hn)
  rw [created_run_cons, ← Nat.add_assoc] at hn ⊢
  obtain ⟨hanswer, hnext⟩ := hm.step (Nat.le_of_add_right_le hn)
  rw [hanswer] at hstarts
  obtain ⟨lock, hl, rfl, rfl, hfree, hexpiry⟩ := Ledger.Session.exists_lock_of_starts hstarts
  have hlater := hnext.run hn
  have hstate := hnext.stays_or_lacks hl hfree hn hleaves
  refine ⟨?_, ?_⟩
  · rintro rfl u
    have hforever : ∀ now, lock.expired now = false := by
      intro now
      rw [Bool.eq_false_iff, Ne, Lock.expired_iff_of_free hfree, hexpiry]
      simp [Timeout.expiry]
    rcases hstate with ⟨_, hl⟩ | ⟨⟨now, _, hexpired⟩, _⟩
    · have hfound := hlater.finds hl (hforever u)
      rw [hexpiry] at hfound
      exact hfound
    · exact absurd hexpired (Bool.eq_false_iff.1 (hforever now))
  · rintro count rfl
    refine ⟨now.after count.toNat, now.parts_after count.toNat, ?_⟩
    have hissued := hnext.sound.lock_issued lock hl
    exact hlater.livesUntil (hissued.mono (Nat.le_add_right _ _)) hfree hexpiry hstate

/-- A lock on a subtree that would not expire. -/
def lastingLock : List Call := [.create .epoch { root := "/a", duration := .infinite }]

/-- It is given half a minute. -/
def halfMinute : Call := .refresh .epoch "8" (.seconds 30)

/-- A lock beside it that expires at the same instant, calls on that one, and two that fail. -/
def meanwhile : List Call :=
  [.create (Instant.epoch.after 10) { root := "/b", duration := .seconds 20 },
    .guard (Instant.epoch.after 29) "/b/c" "" [.ofToken "8", .ofToken "9"],
    .unlock .epoch "9",
    .create (Instant.epoch.after 5) { root := "/", duration := .infinite },
    .dropGuard 0,
    .delete .epoch "/b"]

theorem lock_lives_until_expiry_refreshed :
    ((start 7).run lastingLock).2.ReachableAfter 1 ∧
      halfMinute.Starts .epoch (.seconds 30) "8" "/a"
        (((start 7).run lastingLock).2.step halfMinute).1 ∧
      ∃ due : Instant, due.parts = toLex (30, 0) ∧
        (((start 7).run lastingLock).2.run (halfMinute :: meanwhile)).2.LivesUntil 2 "8" "/a" due
          (meanwhile.filterMap Call.now?) := by
  have hs : ((start 7).run lastingLock).2.ReachableAfter 1 :=
    ⟨7, lastingLock, by decide +kernel, rfl⟩
  have hanswer : (((start 7).run lastingLock).2.step halfMinute).1 =
      .details { root := "/a", duration := .seconds 30 } := by
    decide +kernel
  have hstarts : halfMinute.Starts .epoch (.seconds 30) "8" "/a"
      (((start 7).run lastingLock).2.step halfMinute).1 := hanswer ▸ .refresh rfl
  have hanswers : ((((start 7).run lastingLock).2.step halfMinute).2.run meanwhile).1 =
      [.token "9", .claim 0 ["9"], .failed .locked, .failed .locked, .done, .done] := by
    decide +kernel
  have hcreated : created (((start 7).run lastingLock).2.run (halfMinute :: meanwhile)).1 = 1 := by
    decide +kernel
  have hleaves : ∀ call answer, (call, answer) ∈ meanwhile.zip
      ((((start 7).run lastingLock).2.step halfMinute).2.run meanwhile).1 →
      call.Leaves "8" "/a" answer := by
    have hclean : Path.clean "/b" ≠ "/a" := by decide +kernel
    rw [hanswers]
    intro call answer hin
    simp only [meanwhile, List.zip_cons_cons, List.zip_nil_left, List.mem_cons, Prod.mk.injEq,
      List.not_mem_nil, or_false] at hin
    rcases hin with ⟨rfl, rfl⟩ | ⟨rfl, rfl⟩ | ⟨rfl, rfl⟩ | ⟨rfl, rfl⟩ | ⟨rfl, rfl⟩ | ⟨rfl, rfl⟩ <;>
      simp [Call.Leaves, hclean]
  obtain ⟨due, hdue, hlives⟩ :=
    (hs.lock_lives_until_expiry hstarts (by rw [hcreated]; decide) hleaves).2 30 rfl
  rw [hcreated] at hlives
  exact ⟨hs, hstarts, due, hdue.trans (by decide +kernel), hlives⟩

end Session

end PathLock
