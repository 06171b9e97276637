import Std.Data.String.ToNat
import PathLock.Proofs.Lock.Exclusive

/-!
# Runs of a ledger

What holds after every call of a session on a ledger (`Ledger.Session.Sound`): tokens were issued in
turn, locks exclude one another, and a lock is held exactly when an outstanding claim has its token,
which no other one has then.

* `Ledger.Session.Sound.step`, `Ledger.Session.Sound.run`: a call and a run keep it.
-/

namespace PathLock

/-! ## Tokens in turn -/

/-- The token of the create that succeeds as the `i`th after the session was started. -/
def issued (seed : UInt64) (i : Nat) : String := Registry.tokenText (seed + UInt64.ofNat i)

theorem issued_eq_iff {seed : UInt64} {i j : Nat} :
    issued seed i = issued seed j ↔ i % UInt64.size = j % UInt64.size := by
  unfold issued Registry.tokenText
  rw [Nat.repr_inj, UInt64.toNat_inj, UInt64.add_right_inj, ← UInt64.toNat_inj, UInt64.toNat_ofNat',
    UInt64.toNat_ofNat']

/-- One of the first `n` tokens. -/
def IsIssued (seed : UInt64) (n : Nat) (token : String) : Prop :=
  ∃ i, 1 ≤ i ∧ i ≤ n ∧ token = issued seed i

/-- The counter returns to an earlier value after `UInt64.size` tokens only. -/
theorem IsIssued.ne_next {seed : UInt64} {n : Nat} {token : String} (h : IsIssued seed n token)
    (hn : n < UInt64.size) : token ≠ issued seed (n + 1) := by
  obtain ⟨i, hpos, hle, rfl⟩ := h
  rw [Ne, issued_eq_iff]
  dsimp only [UInt64.size] at hn ⊢
  omega

theorem IsIssued.mono {seed : UInt64} {m n : Nat} {token : String} (h : IsIssued seed m token)
    (hmn : m ≤ n) : IsIssued seed n token := by
  obtain ⟨i, hpos, hle, rfl⟩ := h
  exact ⟨i, hpos, hle.trans hmn, rfl⟩

/-- Whether a create succeeded. -/
def Answer.isToken : Answer → Bool
  | .token _ => true
  | _ => false

/-- The number of creates that succeeded. -/
def created (answers : List Answer) : Nat := answers.countP Answer.isToken

theorem created_cons (answer : Answer) (answers : List Answer) :
    created (answer :: answers) = created [answer] + created answers := by
  unfold created
  rw [List.countP_cons, List.countP_singleton, Nat.add_comm]

/-- An entry found by its key, and the entries with other keys, are all that there are. -/
theorem perm_of_lookup {β : Type} {entries : List (Nat × β)} {key : Nat} {b : β}
    (hnodup : (entries.map (·.1)).Nodup) (h : entries.lookup key = some b) :
    entries.Perm ((key, b) :: entries.filter fun entry => entry.1 ≠ key) := by
  obtain ⟨before, after, rfl, _⟩ := List.lookup_eq_some_iff.1 h
  rw [List.map_append, List.map_cons, List.nodup_middle, List.nodup_cons,
    ← List.map_append] at hnodup
  have hothers : ((before ++ after).filter fun entry => entry.1 ≠ key) = before ++ after := by
    rw [List.filter_eq_self]
    intro entry he
    refine decide_eq_true fun heq => hnodup.1 ?_
    exact List.mem_map.2 ⟨entry, he, heq⟩
  rw [List.filter_append, List.filter_cons_of_neg (by simp), ← List.filter_append, hothers]
  exact List.perm_middle

namespace Ledger

/-! ## Locks that remain -/

variable {l l' : Ledger} {lock : Lock}

/-- No token was issued, and the locks that are there in `l'` were there before, and held or not as
they are now. -/
structure Remains (l l' : Ledger) : Prop where
  counter : l'.counter = l.counter
  locks : ∀ lock ∈ l'.locks, ∃ k ∈ l.locks, k.token = lock.token ∧ k.held = lock.held

theorem Remains.trans {l'' : Ledger} (h : Remains l l') (h' : Remains l' l'') : Remains l l'' where
  counter := h'.counter.trans h.counter
  locks lock hl := by
    obtain ⟨k, hk, htoken, hheld⟩ := h'.locks lock hl
    obtain ⟨k', hk', htoken', hheld'⟩ := h.locks k hk
    exact ⟨k', hk', htoken'.trans htoken, hheld'.trans hheld⟩

theorem Remains.filter (l : Ledger) (p : Lock → Bool) :
    Remains l { l with locks := l.locks.filter p } where
  counter := rfl
  locks lock hl := ⟨lock, List.mem_of_mem_filter hl, rfl, rfl⟩

theorem remains_sweep (l : Ledger) (now : Instant) : Remains l (l.sweep now) := .filter l _

theorem remains_refresh (l : Ledger) (now : Instant) (token : String) (duration : Timeout) :
    Remains l (l.refresh now token duration).2 := by
  have hsweep := remains_sweep l now
  unfold refresh
  dsimp only
  split
  · exact hsweep
  · split_ifs
    · exact hsweep
    · refine hsweep.trans ⟨rfl, fun lock hl => ?_⟩
      obtain ⟨k, hk, rfl⟩ := List.mem_map.1 hl
      exact ⟨k, hk, by split_ifs <;> rfl, by split_ifs <;> rfl⟩

theorem remains_unlock (l : Ledger) (now : Instant) (token : String) :
    Remains l (l.unlock now token).2 := by
  have hsweep := remains_sweep l now
  unfold unlock
  dsimp only
  split
  · exact hsweep
  · split_ifs
    · exact hsweep
    · exact hsweep.trans (.filter _ _)

theorem remains_delete (l : Ledger) (now : Instant) (name : String) :
    Remains l (l.delete now name) := (remains_sweep l now).trans (.filter _ _)

theorem remains_lockAt (l : Ledger) (now : Instant) (name : String) :
    Remains l (l.lockAt now name).2 := by
  unfold lockAt
  dsimp only
  split <;> exact remains_sweep l now

namespace Session

variable {seed : UInt64} {n : Nat} {s : Session}

/-! ## The invariant -/

/-- The tokens of the outstanding claims. -/
def claimed (s : Session) : List String := s.outstanding.flatMap (·.2)

/-- What holds of a session in which `n` creates have succeeded. -/
structure Sound (seed : UInt64) (n : Nat) (s : Session) : Prop where
  counter : s.ledger.counter = seed + UInt64.ofNat n
  exclusive : s.ledger.Exclusive
  lock_issued : ∀ lock ∈ s.ledger.locks, IsIssued seed n lock.token
  claim_issued : ∀ token ∈ s.claimed, IsIssued seed n token
  numbered : ∀ entry ∈ s.outstanding, entry.1 < s.claimsMade
  numbers : (s.outstanding.map (·.1)).Nodup
  claimed_once : s.claimed.Nodup
  held : ∀ lock ∈ s.ledger.locks, lock.held = true ↔ lock.token ∈ s.claimed

theorem sound_start (seed : UInt64) : Sound seed 0 (start seed) where
  counter := by simp [start]
  exclusive := exclusive_empty seed
  lock_issued _ h := absurd h List.not_mem_nil
  claim_issued _ h := absurd h List.not_mem_nil
  numbered _ h := absurd h List.not_mem_nil
  numbers := List.nodup_nil
  claimed_once := List.nodup_nil
  held _ h := absurd h List.not_mem_nil

/-- Locks may go and change as long as nothing is said about who is held. -/
theorem Sound.remains {l : Ledger} (hs : Sound seed n s) (hl : Remains s.ledger l)
    (hexclusive : l.Exclusive) : Sound seed n { s with ledger := l } where
  counter := hl.counter.trans hs.counter
  exclusive := hexclusive
  lock_issued lock h := by
    obtain ⟨k, hk, htoken, _⟩ := hl.locks lock h
    exact htoken ▸ hs.lock_issued k hk
  claim_issued := hs.claim_issued
  numbered := hs.numbered
  numbers := hs.numbers
  claimed_once := hs.claimed_once
  held lock h := by
    obtain ⟨k, hk, htoken, hheld⟩ := hl.locks lock h
    rw [← hheld, ← htoken]
    exact hs.held k hk

/-! ## Calls -/

theorem Sound.lock_issued_setHeld (hs : Sound seed n s) {tokens : List String} {held : Bool}
    {lock : Lock} (hl : lock ∈ (s.ledger.setHeld tokens held).locks) :
    IsIssued seed n lock.token := by
  obtain ⟨k, hk, rfl⟩ := mem_setHeld.1 hl
  have hissued := hs.lock_issued k hk
  split_ifs <;> exact hissued

theorem Sound.held_setHeld (hs : Sound seed n s) {tokens : List String} {held : Bool}
    {lock : Lock} (hl : lock ∈ (s.ledger.setHeld tokens held).locks) :
    lock.held = true ↔ if lock.token ∈ tokens then held = true else lock.token ∈ s.claimed := by
  obtain ⟨k, hk, rfl⟩ := mem_setHeld.1 hl
  have hkheld := hs.held k hk
  by_cases htoken : k.token ∈ tokens
  · simp only [htoken, if_true]
  · simp only [htoken, if_false, hkheld]

theorem Sound.next_token (hs : Sound seed n s) :
    Registry.tokenText (s.ledger.counter + 1) = issued seed (n + 1) := by
  unfold issued
  rw [hs.counter, UInt64.ofNat_add, UInt64.add_assoc]
  rfl

theorem Sound.token_of_create (hs : Sound seed n s) {now : Instant} {details : Details}
    {token : String} (hn : n + created [(s.step (.create now details)).1] ≤ UInt64.size)
    (h : (s.ledger.create now details).1 = .ok token) :
    token = issued seed (n + 1) ∧ n < UInt64.size := by
  unfold Session.step at hn
  dsimp only at hn
  rw [h] at hn
  obtain ⟨_, htoken, _⟩ := create_ok (Prod.ext h rfl)
  exact ⟨htoken.trans hs.next_token, hn⟩

theorem Sound.create (hs : Sound seed n s) (now : Instant) (details : Details)
    (hn : n + created [(s.step (.create now details)).1] ≤ UInt64.size) :
    Sound seed (n + created [(s.step (.create now details)).1])
      (s.step (.create now details)).2 := by
  have hremains := remains_sweep s.ledger now
  have hexclusive := hs.exclusive.create now details
  unfold Session.step at hn ⊢
  dsimp only at hn ⊢
  by_cases hc : ∃ lock ∈ (s.ledger.sweep now).locks,
      lock.Conflicts (Path.clean details.root) details.zeroDepth
  · rw [create_of_conflict hc]
    exact hs.remains hremains (hs.exclusive.sweep now)
  · rw [create_of_no_conflict hc] at hn hexclusive ⊢
    rw [hs.next_token] at hexclusive ⊢
    replace hn : n + 1 ≤ UInt64.size := hn
    have hswept := hs.remains hremains (hs.exclusive.sweep now)
    refine ⟨?_, hexclusive, fun lock hl => ?_, fun token ht => ?_, hs.numbered, hs.numbers,
      hs.claimed_once, fun lock hl => ?_⟩
    · show s.ledger.counter + 1 = seed + UInt64.ofNat (n + 1)
      rw [hs.counter, UInt64.ofNat_add, UInt64.add_assoc]
      rfl
    · rcases List.mem_cons.1 hl with rfl | hl
      · exact ⟨n + 1, Nat.le_add_left 1 n, Nat.le_refl _, rfl⟩
      · exact (hswept.lock_issued lock hl).mono (Nat.le_succ n)
    · exact (hs.claim_issued token ht).mono (Nat.le_succ n)
    · rcases List.mem_cons.1 hl with rfl | hl
      · refine ⟨fun h => absurd h Bool.false_ne_true, fun h => ?_⟩
        exact absurd rfl ((hs.claim_issued _ h).ne_next hn)
      · exact hswept.held lock hl

theorem Sound.claim (hs : Sound seed n s) (now : Instant) (name₀ name₁ : String)
    (conditions : List Condition) : Sound seed n (s.claim now name₀ name₁ conditions).2 := by
  have hswept := hs.remains (remains_sweep s.ledger now) (hs.exclusive.sweep now)
  unfold Session.claim
  cases hconfirm : s.ledger.confirm now name₀ name₁ conditions with
  | mk result l =>
    cases result with
    | error e =>
      obtain ⟨_, rfl, _⟩ := confirm_error hconfirm
      exact hswept
    | ok tokens =>
      obtain ⟨hnodup, hfree⟩ := free_of_confirm hconfirm
      obtain ⟨_, _, _, _, _, rfl⟩ := confirm_ok hconfirm
      have hunclaimed : ∀ token ∈ tokens, token ∉ s.claimed := by
        intro token ht hin
        obtain ⟨lock, hl, rfl, hheld⟩ := hfree token ht
        rw [(hswept.held lock hl).2 hin] at hheld
        exact absurd hheld (by simp)
      refine ⟨hswept.counter, hswept.exclusive.setHeld tokens true,
        fun lock hl => hswept.lock_issued_setHeld hl, fun token ht => ?_, fun entry he => ?_, ?_, ?_,
        fun lock hl => ?_⟩
      · rcases List.mem_append.1 ht with ht | ht
        · obtain ⟨lock, hl, rfl, _⟩ := hfree token ht
          exact hswept.lock_issued lock hl
        · exact hs.claim_issued token ht
      · rcases List.mem_cons.1 he with rfl | he
        · exact Nat.lt_succ_self _
        · exact Nat.lt_succ_of_lt (hs.numbered entry he)
      · refine List.nodup_cons.2 ⟨fun hin => ?_, hs.numbers⟩
        obtain ⟨entry, he, heq⟩ := List.mem_map.1 hin
        exact absurd heq (Nat.ne_of_lt (hs.numbered entry he))
      · exact List.nodup_append'.2 ⟨hnodup, hs.claimed_once, hunclaimed⟩
      · show _ ↔ _ ∈ tokens ++ s.claimed
        rw [hswept.held_setHeld hl, List.mem_append]
        split_ifs with htoken
        · exact ⟨fun _ => .inl htoken, fun _ => rfl⟩
        · exact (or_iff_right htoken).symm

theorem Sound.release (hs : Sound seed n s) (number : Nat) :
    Sound seed n (s.release number).2 := by
  unfold Session.release
  cases hlookup : s.outstanding.lookup number with
  | none => exact hs
  | some tokens =>
    have hperm := perm_of_lookup hs.numbers hlookup
    have hsub : (s.outstanding.filter fun entry => entry.1 ≠ number).Sublist s.outstanding :=
      List.filter_sublist
    have hclaimed : s.claimed.Perm (tokens ++
        (s.outstanding.filter fun entry => entry.1 ≠ number).flatMap (·.2)) := hperm.flatMap_right _
    obtain ⟨_, hnodup, hdisjoint⟩ := List.nodup_append'.1 (hclaimed.nodup hs.claimed_once)
    refine ⟨hs.counter, hs.exclusive.setHeld tokens false,
      fun lock hl => hs.lock_issued_setHeld hl, fun token ht => ?_,
      fun entry he => hs.numbered entry (hsub.subset he), hs.numbers.sublist (hsub.map _), hnodup,
      fun lock hl => ?_⟩
    · exact hs.claim_issued token (hclaimed.mem_iff.2 (List.mem_append_right _ ht))
    · show _ ↔ _ ∈ (s.outstanding.filter fun entry => entry.1 ≠ number).flatMap (·.2)
      rw [hs.held_setHeld hl, hclaimed.mem_iff, List.mem_append]
      split_ifs with htoken
      · exact ⟨False.elim, fun h => absurd h (hdisjoint htoken)⟩
      · exact or_iff_right htoken

/-! ## Runs -/

theorem created_claim (s : Session) (now : Instant) (name₀ name₁ : String)
    (conditions : List Condition) : created [(s.claim now name₀ name₁ conditions).1] = 0 := by
  unfold Session.claim
  split <;> rfl

theorem created_release (s : Session) (number : Nat) : created [(s.release number).1] = 0 := by
  unfold Session.release
  split <;> rfl

theorem created_ofResult {α : Type} {f : α → Answer} (hf : ∀ a, (f a).isToken = false)
    (result : Except LockError α) : created [Answer.ofResult f result] = 0 := by
  cases result with
  | error e => rfl
  | ok a =>
    unfold created Answer.ofResult
    rw [List.countP_singleton, hf]
    rfl

theorem Sound.step (hs : Sound seed n s) (call : Call)
    (hn : n + created [(s.step call).1] ≤ UInt64.size) :
    Sound seed (n + created [(s.step call).1]) (s.step call).2 := by
  cases call with
  | create now details => exact hs.create now details hn
  | refresh now token duration =>
    have hcreated : created [(s.step (.refresh now token duration)).1] = 0 :=
      created_ofResult (fun _ => rfl) _
    rw [hcreated]
    exact hs.remains (remains_refresh _ _ _ _) (hs.exclusive.refresh now token duration)
  | unlock now token =>
    have hcreated : created [(s.step (.unlock now token)).1] = 0 :=
      created_ofResult (fun _ => rfl) _
    rw [hcreated]
    exact hs.remains (remains_unlock _ _ _) (hs.exclusive.unlock now token)
  | confirm now name₀ name₁ conditions =>
    have hcreated : created [(s.step (.confirm now name₀ name₁ conditions)).1] = 0 :=
      created_claim s now name₀ name₁ conditions
    rw [hcreated]
    exact hs.claim now name₀ name₁ conditions
  | guard now name₀ name₁ conditions =>
    have hcreated : created [(s.step (.guard now name₀ name₁ conditions)).1] = 0 :=
      created_claim s now name₀ name₁ conditions
    rw [hcreated]
    exact hs.claim now name₀ name₁ conditions
  | release number =>
    have hcreated : created [(s.step (.release number)).1] = 0 := created_release s number
    rw [hcreated]
    exact hs.release number
  | dropGuard number =>
    have hcreated : created [(s.step (.dropGuard number)).1] = 0 := created_release s number
    rw [hcreated]
    exact hs.release number
  | lockAt now name =>
    have hcreated : created [(s.step (.lockAt now name)).1] = 0 := created_ofResult (fun _ => rfl) _
    rw [hcreated]
    exact hs.remains (remains_lockAt _ _ _) (hs.exclusive.lockAt now name)
  | delete now name => exact hs.remains (remains_delete _ _ _) (hs.exclusive.delete now name)
  | countAt now => exact hs.remains (remains_sweep _ _) (hs.exclusive.sweep now)
  | size => exact hs
  | isEmpty => exact hs

theorem run_cons (s : Session) (call : Call) (calls : List Call) : s.run (call :: calls) =
    ((s.step call).1 :: ((s.step call).2.run calls).1, ((s.step call).2.run calls).2) := rfl

theorem created_run_cons (s : Session) (call : Call) (calls : List Call) :
    created (s.run (call :: calls)).1 =
      created [(s.step call).1] + created ((s.step call).2.run calls).1 := by
  rw [run_cons, created_cons]

theorem Sound.run (hs : Sound seed n s) (calls : List Call)
    (hn : n + created (s.run calls).1 ≤ UInt64.size) :
    Sound seed (n + created (s.run calls).1) (s.run calls).2 := by
  induction calls generalizing s n with
  | nil => exact hs
  | cons call calls ih =>
    rw [created_run_cons, ← Nat.add_assoc] at hn ⊢
    exact ih (hs.step call (Nat.le_of_add_right_le hn)) hn

end Session

end Ledger

end PathLock
