import PathLock.Lock.Session
import PathLock.Proofs.Path.Segments

/-!
# The ledger of locks

What the lock table means, without nodes, handles or a queue: a counter and a list of the locks that
are there. Every operation is said on the list alone, in the terms of callers.

* `Ledger.create`, `Ledger.refresh`, `Ledger.unlock`, `Ledger.delete`, `Ledger.confirm`,
  `Ledger.release`, `Ledger.lockAt`, `Ledger.countAt`: the operations.
* `Ledger.Session`: a run of a ledger, answered as a run of a lock table is.
-/

namespace PathLock

/-! ## Locks -/

/-- A lock that is there. -/
structure Lock where
  token : String
  details : Details
  expiry : Option Instant
  held : Bool
deriving DecidableEq, Repr

namespace Lock

/-- The name that is locked. -/
def root (lock : Lock) : String := lock.details.root

/-- The lock is on this name, or above it with infinite depth. -/
def Covers (lock : Lock) (name : String) : Prop :=
  lock.root = name ∨ lock.details.zeroDepth = false ∧ Path.StrictlyWithin lock.root name

instance (lock : Lock) (name : String) : Decidable (lock.Covers name) :=
  inferInstanceAs (Decidable (_ ∨ _))

/-- The lock rules out another one with this root and depth. -/
def Conflicts (lock : Lock) (root : String) (zeroDepth : Bool) : Prop :=
  lock.root = root ∨ lock.details.zeroDepth = false ∧ Path.StrictlyWithin lock.root root ∨
    zeroDepth = false ∧ Path.StrictlyWithin root lock.root

instance (lock : Lock) (root : String) (zeroDepth : Bool) :
    Decidable (lock.Conflicts root zeroDepth) :=
  inferInstanceAs (Decidable (_ ∨ _ ∨ _))

/-- The lock that a create enters. -/
def fresh (token : String) (now : Instant) (details : Details) : Lock :=
  { token, details := { details with root := Path.clean details.root }
    expiry := details.duration.expiry now, held := false }

/-- The lock is not held and its time is over. -/
def expired (lock : Lock) (now : Instant) : Bool :=
  !lock.held && lock.expiry.any fun due => due ≤ now

end Lock

/-! ## The ledger -/

/-- The counter behind the tokens and the locks that are there. -/
structure Ledger where
  counter : UInt64
  locks : List Lock := []
deriving Repr

namespace Ledger

/-- Drops the locks that have expired. -/
def sweep (l : Ledger) (now : Instant) : Ledger :=
  { l with locks := l.locks.filter fun lock => !lock.expired now }

/-- The lock with this token. -/
def find? (l : Ledger) (token : String) : Option Lock :=
  l.locks.find? fun lock => lock.token = token

/-- Creates a lock unless one that is there conflicts with it. -/
def create (l : Ledger) (now : Instant) (details : Details) : Except LockError String × Ledger :=
  let l := l.sweep now
  if ∃ lock ∈ l.locks, lock.Conflicts (Path.clean details.root) details.zeroDepth then
    (.error .locked, l)
  else
    let counter := l.counter + 1
    let token := Registry.tokenText counter
    (.ok token, { counter, locks := Lock.fresh token now details :: l.locks })

/-- Gives the lock with this token a new timeout that starts now. -/
def refresh (l : Ledger) (now : Instant) (token : String) (duration : Timeout) :
    Except LockError Details × Ledger :=
  let l := l.sweep now
  match l.find? token with
  | none => (.error .noSuchLock, l)
  | some lock =>
    if lock.held then (.error .locked, l)
    else
      (.ok { lock.details with duration }, { l with locks := l.locks.map fun lock =>
        if lock.token = token then
          { lock with details := { lock.details with duration }, expiry := duration.expiry now }
        else lock })

/-- Removes the lock with this token. -/
def unlock (l : Ledger) (now : Instant) (token : String) : Except LockError Unit × Ledger :=
  let l := l.sweep now
  match l.find? token with
  | none => (.error .noSuchLock, l)
  | some lock =>
    if lock.held then (.error .locked, l)
    else (.ok (), { l with locks := l.locks.filter fun lock => lock.token ≠ token })

/-- Removes the lock on this name, held or not. -/
def delete (l : Ledger) (now : Instant) (name : String) : Ledger :=
  let l := l.sweep now
  { l with locks := l.locks.filter fun lock => lock.root ≠ Path.clean name }

/-- The token of a condition, if its lock covers the name and is not held. -/
def matchCondition (l : Ledger) (name : String) (condition : Condition) : Option String :=
  (l.find? condition.token).bind fun lock =>
    if lock.held = false ∧ lock.Covers (Path.clean name) then some lock.token else none

/-- The token of the first condition with a lock that covers the name and is not held. -/
def pick (l : Ledger) (conditions : List Condition) (name : String) : Option String :=
  conditions.findSome? (l.matchCondition name)

/-- The tokens that give access to a name; none are needed if it is empty. -/
def access (l : Ledger) (conditions : List Condition) (name : String) : Option (List String) :=
  if name = "" then some [] else (l.pick conditions name).map ([·])

/-- Says of the locks with these tokens whether they are held. -/
def setHeld (l : Ledger) (tokens : List String) (held : Bool) : Ledger :=
  { l with locks := l.locks.map fun lock =>
      if lock.token ∈ tokens then { lock with held } else lock }

/-- Holds the locks that give access to two names, a lock for both once. -/
def confirm (l : Ledger) (now : Instant) (name₀ name₁ : String) (conditions : List Condition) :
    Except LockError (List String) × Ledger :=
  let l := l.sweep now
  match l.access conditions name₀, l.access conditions name₁ with
  | some tokens₀, some tokens₁ =>
    let tokens := tokens₀ ++ tokens₁.filter fun token => token ∉ tokens₀
    (.ok tokens, l.setHeld tokens true)
  | _, _ => (.error .confirmationFailed, l)

/-- Lets go of those locks of a claim that are still there. -/
def release (l : Ledger) (tokens : List String) : Ledger := l.setHeld tokens false

/-- The lock that covers a name. -/
def lockAt (l : Ledger) (now : Instant) (name : String) : Except LockError LockInfo × Ledger :=
  let l := l.sweep now
  match l.locks.find? fun lock => lock.Covers (Path.clean name) with
  | none => (.error .noSuchLock, l)
  | some lock => (.ok { token := lock.token, expiry := lock.expiry, details := lock.details }, l)

/-- The number of locks that are there at an instant. -/
def countAt (l : Ledger) (now : Instant) : Nat × Ledger :=
  let l := l.sweep now
  (l.locks.length, l)

/-! ## What the operations do to the list -/

variable {l l' : Ledger} {now : Instant} {token name name₀ name₁ : String} {tokens : List String}
  {conditions : List Condition} {lock : Lock} {held : Bool}

theorem create_of_conflict {details : Details}
    (h : ∃ lock ∈ (l.sweep now).locks, lock.Conflicts (Path.clean details.root) details.zeroDepth) :
    l.create now details = (.error .locked, l.sweep now) := if_pos h

theorem create_of_no_conflict {details : Details} (h : ¬ ∃ lock ∈ (l.sweep now).locks,
      lock.Conflicts (Path.clean details.root) details.zeroDepth) :
    l.create now details = (.ok (Registry.tokenText (l.counter + 1)), ⟨l.counter + 1,
      Lock.fresh (Registry.tokenText (l.counter + 1)) now details :: (l.sweep now).locks⟩) :=
  if_neg h

theorem create_ok {details : Details} (h : l.create now details = (.ok token, l')) :
    (¬ ∃ lock ∈ (l.sweep now).locks,
        lock.Conflicts (Path.clean details.root) details.zeroDepth) ∧
      token = Registry.tokenText (l.counter + 1) ∧
      l' = ⟨l.counter + 1, Lock.fresh token now details :: (l.sweep now).locks⟩ := by
  by_cases hc : ∃ lock ∈ (l.sweep now).locks,
      lock.Conflicts (Path.clean details.root) details.zeroDepth
  · rw [create_of_conflict hc] at h
    exact absurd (Prod.mk.inj h).1 (by simp)
  · rw [create_of_no_conflict hc] at h
    obtain ⟨hok, rfl⟩ := Prod.mk.inj h
    obtain rfl := Except.ok.inj hok
    exact ⟨hc, rfl, rfl⟩

theorem mem_of_find?_eq_some (h : l.find? token = some lock) :
    lock ∈ l.locks ∧ lock.token = token :=
  ⟨List.mem_of_find?_eq_some h, by simpa using List.find?_some h⟩

theorem find?_eq_none_iff : l.find? token = none ↔ ∀ lock ∈ l.locks, lock.token ≠ token := by
  unfold find?
  simp only [List.find?_eq_none, decide_eq_true_eq]

theorem mem_setHeld : lock ∈ (l.setHeld tokens held).locks ↔
    ∃ k ∈ l.locks, (if k.token ∈ tokens then { k with held } else k) = lock := List.mem_map

theorem setHeld_of_absent (h : ∀ lock ∈ l.locks, lock.token ∉ tokens) :
    l.setHeld tokens held = l := by
  have hmap : (l.locks.map fun k => if k.token ∈ tokens then { k with held } else k) = l.locks :=
    (List.map_congr_left fun k hk => if_neg (h k hk)).trans (List.map_id _)
  unfold setHeld
  rw [hmap]

theorem setHeld_nil (l : Ledger) (held : Bool) : l.setHeld [] held = l :=
  setHeld_of_absent fun _ _ => List.not_mem_nil

theorem setHeld_congr {tokens' : List String} (h : ∀ token, token ∈ tokens ↔ token ∈ tokens') :
    l.setHeld tokens held = l.setHeld tokens' held := by
  unfold setHeld
  simp only [h]

theorem setHeld_cons (l : Ledger) (token : String) (tokens : List String) (held : Bool) :
    l.setHeld (token :: tokens) held = (l.setHeld [token] held).setHeld tokens held := by
  unfold setHeld
  rw [Ledger.mk.injEq]
  refine ⟨rfl, ?_⟩
  rw [List.map_map]
  refine List.map_congr_left fun k _ => ?_
  dsimp only [Function.comp]
  simp only [List.mem_cons, List.not_mem_nil, or_false]
  by_cases ht : k.token = token
  · simp only [ht, true_or, if_true]
    split_ifs <;> rfl
  · simp only [ht, false_or, if_false]

/-- What is said of some tokens leaves the locks with other tokens alone. -/
theorem mem_of_mem_setHeld (hl : lock ∈ (l.setHeld tokens held).locks) (ht : lock.token ∉ tokens) :
    lock ∈ l.locks := by
  obtain ⟨k, hk, rfl⟩ := mem_setHeld.1 hl
  split_ifs at ht ⊢ with hk'
  · exact absurd hk' ht
  · exact hk

/-- A token that matches is that of a lock that is free. -/
theorem free_of_matchCondition {condition : Condition}
    (h : l.matchCondition name condition = some token) :
    ∃ lock ∈ l.locks, lock.token = token ∧ lock.held = false := by
  obtain ⟨lock, hfind, hif⟩ := Option.bind_eq_some_iff.1 h
  split_ifs at hif with hfree
  exact ⟨lock, (mem_of_find?_eq_some hfind).1, Option.some.inj hif, hfree.1⟩

theorem free_of_access (h : l.access conditions name = some tokens) :
    tokens.Nodup ∧ ∀ token ∈ tokens, ∃ lock ∈ l.locks, lock.token = token ∧ lock.held = false := by
  unfold access at h
  split_ifs at h with hname
  · rw [← Option.some.inj h]
    exact ⟨List.nodup_nil, fun token ht => absurd ht List.not_mem_nil⟩
  · obtain ⟨picked, hpick, rfl⟩ := Option.map_eq_some_iff.1 h
    refine ⟨List.nodup_singleton _, fun token ht => ?_⟩
    rw [List.mem_singleton.1 ht]
    obtain ⟨condition, _, hmatch⟩ := List.exists_of_findSome?_eq_some hpick
    exact free_of_matchCondition hmatch

theorem confirm_ok (h : l.confirm now name₀ name₁ conditions = (.ok tokens, l')) :
    ∃ tokens₀ tokens₁, (l.sweep now).access conditions name₀ = some tokens₀ ∧
      (l.sweep now).access conditions name₁ = some tokens₁ ∧
      tokens = tokens₀ ++ tokens₁.filter (· ∉ tokens₀) ∧
      l' = (l.sweep now).setHeld tokens true := by
  unfold confirm at h
  dsimp only at h
  split at h
  · rename_i tokens₀ tokens₁ h₀ h₁
    obtain ⟨hok, rfl⟩ := Prod.mk.inj h
    have htokens := Except.ok.inj hok
    exact ⟨tokens₀, tokens₁, h₀, h₁, htokens.symm, by rw [htokens]⟩
  · exact absurd (Prod.mk.inj h).1 (by simp)

theorem confirm_error {e : LockError}
    (h : l.confirm now name₀ name₁ conditions = (.error e, l')) :
    e = .confirmationFailed ∧ l' = l.sweep now ∧
      ((l.sweep now).access conditions name₀ = none ∨
        (l.sweep now).access conditions name₁ = none) := by
  unfold confirm at h
  dsimp only at h
  split at h
  · exact absurd (Prod.mk.inj h).1 (by simp)
  · rename_i hnone
    obtain ⟨herror, rfl⟩ := Prod.mk.inj h
    refine ⟨(Except.error.inj herror).symm, rfl, ?_⟩
    rw [Option.eq_none_iff_forall_ne_some, Option.eq_none_iff_forall_ne_some]
    by_contra hsome
    simp only [not_or, not_forall, not_not] at hsome
    obtain ⟨⟨tokens₀, h₀⟩, ⟨tokens₁, h₁⟩⟩ := hsome
    exact hnone tokens₀ tokens₁ h₀ h₁

/-- What a confirm claims is free, and claimed once. -/
theorem free_of_confirm (h : l.confirm now name₀ name₁ conditions = (.ok tokens, l')) :
    tokens.Nodup ∧
      ∀ token ∈ tokens, ∃ lock ∈ (l.sweep now).locks, lock.token = token ∧ lock.held = false := by
  obtain ⟨tokens₀, tokens₁, h₀, h₁, rfl, _⟩ := confirm_ok h
  obtain ⟨hnodup₀, hfree₀⟩ := free_of_access h₀
  obtain ⟨hnodup₁, hfree₁⟩ := free_of_access h₁
  constructor
  · refine List.nodup_append.2 ⟨hnodup₀, hnodup₁.filter _, fun a ha b hb => ?_⟩
    rintro rfl
    exact of_decide_eq_true (List.mem_filter.1 hb).2 ha
  · intro token ht
    rcases List.mem_append.1 ht with ht | ht
    · exact hfree₀ token ht
    · exact hfree₁ token (List.mem_of_mem_filter ht)

/-! ## Runs -/

/-- A ledger, the number of claims made so far and the tokens of those not yet released. -/
structure Session where
  ledger : Ledger
  claimsMade : Nat := 0
  outstanding : List (Nat × List String) := []

namespace Session

/-- The session whose first token follows `seed`. -/
def start (seed : UInt64) : Session := { ledger := { counter := seed } }

/-- Claims locks. The claim is outstanding under the next number. -/
def claim (s : Session) (now : Instant) (name₀ name₁ : String) (conditions : List Condition) :
    Answer × Session :=
  match s.ledger.confirm now name₀ name₁ conditions with
  | (.ok tokens, ledger) =>
    (.claim s.claimsMade tokens,
      { ledger, claimsMade := s.claimsMade + 1,
        outstanding := (s.claimsMade, tokens) :: s.outstanding })
  | (.error e, ledger) => (.failed e, { s with ledger })

/-- Releases the outstanding claim with this number. -/
def release (s : Session) (number : Nat) : Answer × Session :=
  match s.outstanding.lookup number with
  | none => (.noClaim, s)
  | some tokens =>
    (.done, { s with
      ledger := s.ledger.release tokens
      outstanding := s.outstanding.filter fun entry => entry.1 ≠ number })

/-- Makes one call. -/
def step (s : Session) : Call → Answer × Session
  | .create now details =>
    let (result, ledger) := s.ledger.create now details
    (.ofResult .token result, { s with ledger })
  | .refresh now token duration =>
    let (result, ledger) := s.ledger.refresh now token duration
    (.ofResult .details result, { s with ledger })
  | .unlock now token =>
    let (result, ledger) := s.ledger.unlock now token
    (.ofResult (fun _ => .done) result, { s with ledger })
  | .confirm now name₀ name₁ conditions => s.claim now name₀ name₁ conditions
  | .guard now name₀ name₁ conditions => s.claim now name₀ name₁ conditions
  | .release number => s.release number
  | .dropGuard number => s.release number
  | .lockAt now name =>
    let (result, ledger) := s.ledger.lockAt now name
    (.ofResult .lock result, { s with ledger })
  | .delete now name => (.done, { s with ledger := s.ledger.delete now name })
  | .countAt now =>
    let (n, ledger) := s.ledger.countAt now
    (.count n, { s with ledger })
  | .size => (.count s.ledger.locks.length, s)
  | .isEmpty => (.truth s.ledger.locks.isEmpty, s)

/-- Makes calls in order and collects the answers. -/
def run (s : Session) : List Call → List Answer × Session
  | [] => ([], s)
  | call :: rest =>
    let (answer, s) := s.step call
    let (answers, s) := s.run rest
    (answer :: answers, s)

end Session

end Ledger

end PathLock
