import PathLock.Proofs.Lock.Claims
import PathLock.Proofs.Lock.Discovery
import PathLock.Proofs.Lock.Runs

/-!
# A table is a ledger

A session on a lock table and one on a ledger that are given the same calls give the same answers
(`Session.Refines.run`). What links the two (`Session.Refines`) is that the table represents the
ledger and that the same claims are outstanding, with handles in the one and tokens in the other: as
long as a claimed token is in use, it leads to the handle in the claim.
-/

namespace PathLock

namespace Session

variable {s : Session} {m : Ledger.Session} {seed : UInt64} {n : Nat}

/-- The session on a table does what the session on a ledger does. -/
structure Refines (s : Session) (m : Ledger.Session) : Prop where
  represents : s.table.Represents m.ledger
  claimsMade : s.claimsMade = m.claimsMade
  outstanding : m.outstanding = s.outstanding.map fun entry => (entry.1, entry.2.tokens)
  handles : ∀ entry ∈ s.outstanding, ∀ c ∈ entry.2.locks, ∀ h,
    s.table.registry.find? c.token = some h → h = c.id

theorem refines_start (seed : UInt64) : Refines (start seed) (Ledger.Session.start seed) where
  represents := LockTable.represents_empty seed
  claimsMade := rfl
  outstanding := rfl
  handles _ h := absurd h List.not_mem_nil

theorem Refines.mem_claimed (h : Refines s m) {entry : Nat × Claim} (he : entry ∈ s.outstanding)
    {token : String} (ht : token ∈ entry.2.tokens) : token ∈ m.claimed := by
  unfold Ledger.Session.claimed
  rw [h.outstanding]
  exact List.mem_flatMap.2 ⟨_, List.mem_map.2 ⟨entry, he, rfl⟩, ht⟩

/-- A change of the table that brings no new token into use leaves the claims alone. -/
theorem Refines.of_represents {t : LockTable} {l : Ledger} (h : Refines s m) (hr : t.Represents l)
    (hnew : s.table.NoNewTokens t) : Refines { s with table := t } { m with ledger := l } where
  represents := hr
  claimsMade := h.claimsMade
  outstanding := h.outstanding
  handles entry he c hc k hreg := h.handles entry he c hc k (hnew c.token k hreg)

/-! ## Calls -/

theorem Refines.create (h : Refines s m) (hm : m.Sound seed n) (now : Instant) (details : Details)
    (hn : n + created [(s.step (.create now details)).1] ≤ UInt64.size) :
    (s.step (.create now details)).1 = (m.step (.create now details)).1 ∧
      Refines (s.step (.create now details)).2 (m.step (.create now details)).2 := by
  obtain ⟨hresult, hcreate⟩ := h.represents.create now details
  have hanswer : (s.step (.create now details)).1 = (m.step (.create now details)).1 :=
    congrArg (Answer.ofResult .token) hresult
  rw [hanswer] at hn
  obtain ⟨hr, hreg⟩ := hcreate fun token htoken lock hl => by
    obtain ⟨rfl, hlt⟩ := hm.token_of_create hn htoken
    exact (hm.lock_issued lock hl).ne_next hlt
  refine ⟨hanswer, hr, h.claimsMade, h.outstanding, ?_⟩
  intro entry he c hc k hfound
  rcases hreg c.token k hfound with htoken | hold
  · obtain ⟨hissued, hlt⟩ := hm.token_of_create hn htoken
    have hclaimed := h.mem_claimed he (List.mem_map_of_mem hc)
    exact absurd hissued ((hm.claim_issued _ hclaimed).ne_next hlt)
  · exact h.handles entry he c hc k hold

theorem Refines.claim (h : Refines s m) (now : Instant) (name₀ name₁ : String)
    (conditions : List Condition) :
    (s.claim now name₀ name₁ conditions).1 = (m.claim now name₀ name₁ conditions).1 ∧
      Refines (s.claim now name₀ name₁ conditions).2 (m.claim now name₀ name₁ conditions).2 := by
  unfold Session.claim Ledger.Session.claim
  cases hconfirm : m.ledger.confirm now name₀ name₁ conditions with
  | mk result l =>
    cases result with
    | error e =>
      obtain ⟨heq, hr⟩ := h.represents.confirm_error hconfirm
      rw [heq]
      exact ⟨rfl, h.of_represents hr (LockTable.noNewTokens_sweep _ _)⟩
    | ok tokens =>
      obtain ⟨claim, t, heq, rfl, hall, hreg, hr⟩ := h.represents.confirm_ok hconfirm
      have hnew : s.table.NoNewTokens t :=
        (LockTable.noNewTokens_sweep _ now).trans (.of_registry_eq hreg)
      rw [heq]
      refine ⟨?_, hr, ?_, ?_, ?_⟩
      · show Answer.claim _ _ = Answer.claim _ _
        rw [h.claimsMade]
      · exact congrArg (· + 1) h.claimsMade
      · show (m.claimsMade, claim.tokens) :: m.outstanding = _
        rw [List.map_cons, h.outstanding, h.claimsMade]
      · intro entry he c hc k hfound
        rcases List.mem_cons.1 he with rfl | he
        · exact Option.some.inj (hfound.symm.trans (hall c hc))
        · exact h.handles entry he c hc k (hnew c.token k hfound)

theorem Refines.lookup (h : Refines s m) (number : Nat) :
    m.outstanding.lookup number = (s.outstanding.lookup number).map Claim.tokens := by
  rw [h.outstanding]
  generalize s.outstanding = outstanding
  induction outstanding with
  | nil => rfl
  | cons entry outstanding ih =>
    rw [List.map_cons, List.lookup_cons, List.lookup_cons, ih]
    split <;> rfl

theorem Refines.release (h : Refines s m) (hm : m.Sound seed n) (number : Nat)
    {told : Except LockError Unit → Answer} (hdone : told (.ok ()) = .done) :
    (s.release number told).1 = (m.release number).1 ∧
      Refines (s.release number told).2 (m.release number).2 := by
  have hlookup := h.lookup number
  unfold Session.release Ledger.Session.release
  cases hfound : s.outstanding.lookup number with
  | none =>
    rw [hfound] at hlookup
    rw [hlookup]
    exact ⟨rfl, h⟩
  | some claim =>
    rw [hfound, Option.map_some] at hlookup
    have hmem : (number, claim) ∈ s.outstanding := by
      obtain ⟨before, after, heq, _⟩ := List.lookup_eq_some_iff.1 hfound
      rw [heq]
      exact List.mem_append_right _ List.mem_cons_self
    have hin : (number, claim.tokens) ∈ m.outstanding := by
      rw [h.outstanding]
      exact List.mem_map.2 ⟨_, hmem, rfl⟩
    have hnodup : claim.tokens.Nodup := (List.nodup_flatMap.1 hm.claimed_once).1 _ hin
    obtain ⟨t, hrelease, hreg, hr⟩ := h.represents.release hnodup
      (fun c hc k hk => h.handles _ hmem c hc k hk)
      (fun lock hl htoken => (hm.held lock hl).2 (h.mem_claimed hmem htoken))
    rw [hlookup]
    dsimp only
    rw [hrelease]
    refine ⟨hdone, hr, h.claimsMade, ?_, fun entry he => ?_⟩
    · show m.outstanding.filter _ = (s.outstanding.filter _).map _
      rw [h.outstanding, List.filter_map]
      rfl
    · intro c hc k hfound
      rw [hreg] at hfound
      exact h.handles entry (List.mem_of_mem_filter he) c hc k hfound

/-- One call. -/
theorem Refines.step (h : Refines s m) (hm : m.Sound seed n) (call : Call)
    (hn : n + created [(s.step call).1] ≤ UInt64.size) :
    (s.step call).1 = (m.step call).1 ∧ Refines (s.step call).2 (m.step call).2 := by
  cases call with
  | create now details => exact h.create hm now details hn
  | refresh now token duration =>
    obtain ⟨hanswer, hr⟩ := h.represents.refresh now token duration
    exact ⟨congrArg (Answer.ofResult .details) hanswer,
      h.of_represents hr (LockTable.noNewTokens_refresh _ _ _ _)⟩
  | unlock now token =>
    obtain ⟨hanswer, hr⟩ := h.represents.unlock now token
    exact ⟨congrArg (Answer.ofResult fun _ => .done) hanswer,
      h.of_represents hr (LockTable.noNewTokens_unlock _ _ _)⟩
  | confirm now name₀ name₁ conditions => exact h.claim now name₀ name₁ conditions
  | guard now name₀ name₁ conditions => exact h.claim now name₀ name₁ conditions
  | release number => exact h.release hm number rfl
  | dropGuard number => exact h.release hm number rfl
  | lockAt now name =>
    obtain ⟨hanswer, hr⟩ := h.represents.lockAt hm.exclusive now name
    exact ⟨congrArg (Answer.ofResult .lock) hanswer,
      h.of_represents hr (LockTable.noNewTokens_lockAt _ _ _)⟩
  | delete now name =>
    exact ⟨rfl, h.of_represents (h.represents.delete now name)
      (LockTable.noNewTokens_delete _ _ _)⟩
  | countAt now =>
    obtain ⟨hanswer, hr⟩ := h.represents.countAt now
    exact ⟨congrArg Answer.count hanswer, h.of_represents hr (LockTable.noNewTokens_sweep _ _)⟩
  | size => exact ⟨congrArg Answer.count h.represents.size, h⟩
  | isEmpty => exact ⟨congrArg Answer.truth h.represents.isEmpty, h⟩

/-! ## Runs -/

theorem run_cons (s : Session) (call : Call) (calls : List Call) : s.run (call :: calls) =
    ((s.step call).1 :: ((s.step call).2.run calls).1, ((s.step call).2.run calls).2) := rfl

theorem created_run_cons (s : Session) (call : Call) (calls : List Call) :
    created (s.run (call :: calls)).1 =
      created [(s.step call).1] + created ((s.step call).2.run calls).1 := by
  rw [run_cons, created_cons]

/-- A run in which no more creates succeed than there are tokens. -/
theorem Refines.run (h : Refines s m) (hm : m.Sound seed n) (calls : List Call)
    (hn : n + created (s.run calls).1 ≤ UInt64.size) :
    (s.run calls).1 = (m.run calls).1 ∧ Refines (s.run calls).2 (m.run calls).2 := by
  induction calls generalizing s m n with
  | nil => exact ⟨rfl, h⟩
  | cons call calls ih =>
    rw [created_run_cons, ← Nat.add_assoc] at hn
    have hcall := Nat.le_of_add_right_le hn
    obtain ⟨hanswer, hstep⟩ := h.step hm call hcall
    rw [hanswer] at hn hcall
    obtain ⟨hanswers, hrest⟩ := ih hstep (hm.step call hcall) hn
    rw [run_cons, Ledger.Session.run_cons, hanswer, hanswers]
    exact ⟨rfl, hrest⟩

/-! ## States that calls lead to -/

/-- Calls lead to this session, and no more creates succeed on the way than there are tokens. -/
def Reachable (s : Session) : Prop :=
  ∃ seed calls, created ((start seed).run calls).1 ≤ UInt64.size ∧ ((start seed).run calls).2 = s

theorem run_start (seed : UInt64) (calls : List Call)
    (hcreated : created ((start seed).run calls).1 ≤ UInt64.size) :
    ((start seed).run calls).1 = ((Ledger.Session.start seed).run calls).1 ∧
      Refines ((start seed).run calls).2 ((Ledger.Session.start seed).run calls).2 :=
  (refines_start seed).run (Ledger.Session.sound_start seed) calls (by rwa [Nat.zero_add])

theorem Reachable.refines (hs : s.Reachable) : ∃ seed n m, Refines s m ∧ m.Sound seed n := by
  obtain ⟨seed, calls, hcreated, rfl⟩ := hs
  obtain ⟨hanswers, hrefines⟩ := run_start seed calls hcreated
  refine ⟨seed, _, _, hrefines, (Ledger.Session.sound_start seed).run calls ?_⟩
  rwa [Nat.zero_add, ← hanswers]

/-- Whatever the calls, the answers are those of a ledger, as long as no more creates succeed than
there are tokens. -/
theorem run_eq_ledger_run (seed : UInt64) (calls : List Call)
    (hcreated : created ((start seed).run calls).1 ≤ UInt64.size) :
    ((start seed).run calls).1 = ((Ledger.Session.start seed).run calls).1 :=
  (run_start seed calls hcreated).1

/-- A claimed lock is deleted, its name is locked and claimed anew, and both claims are let go. -/
def replacedWhileClaimed : List Call :=
  [.create .epoch { root := "/a", duration := .seconds 60 },
    .confirm .epoch "/a/b" "" [.ofToken "8"],
    .delete .epoch "a/",
    .create .epoch { root := "/a", duration := .infinite },
    .guard .epoch "/a" "/a/c" [.ofToken "8", .ofToken "9"],
    .release 0,
    .unlock .epoch "9",
    .dropGuard 1,
    .unlock .epoch "9"]

/-- The release of the first claim leaves the second one alone, in the table as in the ledger. -/
theorem run_eq_ledger_run_replaced :
    created ((start 7).run replacedWhileClaimed).1 ≤ UInt64.size ∧
      ((start 7).run replacedWhileClaimed).1 = [.token "8", .claim 0 ["8"], .done, .token "9",
        .claim 1 ["9"], .done, .failed .locked, .done, .done] ∧
      ((Ledger.Session.start 7).run replacedWhileClaimed).1 = [.token "8", .claim 0 ["8"], .done,
        .token "9", .claim 1 ["9"], .done, .failed .locked, .done, .done] := by
  have hcreated : created ((start 7).run replacedWhileClaimed).1 ≤ UInt64.size := by decide +kernel
  have hanswers : ((start 7).run replacedWhileClaimed).1 = [.token "8", .claim 0 ["8"], .done,
      .token "9", .claim 1 ["9"], .done, .failed .locked, .done, .done] := by decide +kernel
  exact ⟨hcreated, hanswers, (run_eq_ledger_run 7 _ hcreated).symm.trans hanswers⟩

end Session

end PathLock
