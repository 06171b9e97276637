import PathLock.Proofs.Lock.Orderly
import PathLock.Proofs.Lock.Representation

/-!
# Claims and lookups agree

A claim asks for the conditions first and for the name then, a lookup for the name alone. They agree
all the same (`Session.Reachable.claims_match_lookups`): a claim succeeds exactly if a lookup on
each of its names finds a lock that is free and whose token is presented, and claims the locks
found.
-/

namespace PathLock

section Lists

variable {α : Type} {l l' : List α}

theorem eraseDups_of_nodup [BEq α] [LawfulBEq α] (h : l.Nodup) : l.eraseDups = l := by
  induction l with
  | nil => rfl
  | cons a l ih =>
    obtain ⟨ha, hl⟩ := List.nodup_cons.1 h
    have hfilter : (l.filter fun b => !b == a) = l := by
      rw [List.filter_eq_self]
      intro b hb
      simp only [Bool.not_eq_true', beq_eq_false_iff_ne]
      rintro rfl
      exact ha hb
    rw [List.eraseDups_cons, hfilter, ih hl]

variable [DecidableEq α]

/-- One list, and what is new in another one. -/
theorem eraseDups_append_of_nodup (h : l.Nodup) (h' : l'.Nodup) :
    (l ++ l').eraseDups = l ++ l'.filter (· ∉ l) := by
  have hremove : l'.removeAll l = l'.filter (· ∉ l) := by
    unfold List.removeAll
    refine List.filter_congr fun a _ => ?_
    simp
  rw [List.eraseDups_append, hremove, eraseDups_of_nodup h, eraseDups_of_nodup (h'.filter _)]

theorem nodup_append_filter (h : l.Nodup) (h' : l'.Nodup) : (l ++ l'.filter (· ∉ l)).Nodup := by
  refine List.nodup_append'.2 ⟨h, h'.filter _, fun a ha ha' => ?_⟩
  exact of_decide_eq_true (List.mem_filter.1 ha').2 ha

/-- Which of two lists comes first does not matter for what is in either. -/
theorem append_filter_perm (h : l.Nodup) (h' : l'.Nodup) :
    (l' ++ l.filter (· ∉ l')).Perm (l ++ l'.filter (· ∉ l)) := by
  rw [List.perm_ext_iff_of_nodup (nodup_append_filter h' h) (nodup_append_filter h h')]
  intro a
  by_cases ha : a ∈ l <;> by_cases ha' : a ∈ l' <;> simp [ha, ha']

end Lists

namespace Ledger

variable {l : Ledger} {now : Instant} {name₀ name₁ : String} {conditions : List Condition}
  {tokens₀ tokens₁ : List String}

theorem confirm_of_access (h₀ : (l.sweep now).access conditions name₀ = some tokens₀)
    (h₁ : (l.sweep now).access conditions name₁ = some tokens₁) :
    (l.confirm now name₀ name₁ conditions).1 =
      .ok (tokens₀ ++ tokens₁.filter (· ∉ tokens₀)) := by
  unfold confirm
  dsimp only
  rw [h₀, h₁]

theorem exists_confirm_iff : (∃ tokens, (l.confirm now name₀ name₁ conditions).1 = .ok tokens) ↔
    ∀ name ∈ [name₀, name₁], ∃ tokens, (l.sweep now).access conditions name = some tokens := by
  simp only [List.forall_mem_cons, List.not_mem_nil, false_implies, implies_true, and_true]
  constructor
  · rintro ⟨tokens, h⟩
    obtain ⟨tokens₀, tokens₁, h₀, h₁, _⟩ := confirm_ok (Prod.ext h rfl)
    exact ⟨⟨tokens₀, h₀⟩, tokens₁, h₁⟩
  · rintro ⟨⟨tokens₀, h₀⟩, tokens₁, h₁⟩
    exact ⟨_, confirm_of_access h₀ h₁⟩

end Ledger

namespace LockTable

variable {t : LockTable} {l : Ledger} {now : Instant} {name name₀ name₁ token : String}
  {conditions : List Condition} {tokens : List String} {claim : Claim}

/-- The token of the lock that a lookup finds on a name. -/
def tokenAt (t : LockTable) (now : Instant) (name : String) : Option String :=
  match (t.lockAt now name).1 with
  | .ok info => some info.token
  | .error _ => none

/-- A lookup on the name finds a lock that is not held and whose token is among those of the
conditions. -/
def Grants (t : LockTable) (now : Instant) (conditions : List Condition) (name : String) : Prop :=
  ∃ lock ∈ t.locks, (t.lockAt now name).1 = .ok (describe lock) ∧ lock.held = false ∧
    lock.token ∈ conditions.map (·.token)

/-- A claim does what lookups on the same table say. -/
structure ClaimsAgree (t : LockTable) (now : Instant) (name₀ name₁ : String)
    (conditions : List Condition) : Prop where
  succeeds : (∃ claim, (t.confirm now name₀ name₁ conditions).1 = .ok claim) ↔
    ∀ name ∈ [name₀, name₁], name ≠ "" → t.Grants now conditions name
  /-- The locks found are claimed in the order of the names, each once. -/
  claimed : ∀ claim, (t.confirm now name₀ name₁ conditions).1 = .ok claim →
    claim.tokens = (([name₀, name₁].filter (· ≠ "")).filterMap (t.tokenAt now)).eraseDups
  /-- Of the conditions only the tokens matter, in any order and any number of times. -/
  presented : ∀ others : List Condition,
    (∀ token, token ∈ others.map (·.token) ↔ token ∈ conditions.map (·.token)) →
      t.confirm now name₀ name₁ others = t.confirm now name₀ name₁ conditions
  swapped : ∀ claim, (t.confirm now name₀ name₁ conditions).1 = .ok claim →
    ∃ other, (t.confirm now name₁ name₀ conditions).1 = .ok other ∧ other.locks.Perm claim.locks

/-! ## What lookups find -/

theorem Represents.tokenAt_eq_some (hr : Represents t l) (hl : l.Orderly) {lock : Lock}
    (hlock : lock ∈ (l.sweep now).locks) (hcov : lock.Covers (Path.clean name)) :
    t.tokenAt now name = some lock.token := by
  unfold tokenAt
  rw [(hr.lockAt hl.exclusive now name).1, hl.lockAt_eq_ok_iff.2 ⟨lock, hlock, hcov, rfl⟩]
  rfl

theorem Represents.grants_iff (hr : Represents t l) (hl : l.Orderly) :
    t.Grants now conditions name ↔ ∃ token, (l.sweep now).pick conditions name = some token := by
  unfold Grants
  simp only [(hr.lockAt hl.exclusive now name).1, hl.lockAt_eq_ok_iff,
    (hl.sweep now).pick_eq_some_iff]
  constructor
  · rintro ⟨lock, hlock, ⟨found, hfound, hcov, hdescribe⟩, hfree, htoken⟩
    have heq : found = lock := hl.token_inj found (Ledger.mem_sweep.1 hfound).1 lock
      (hr.holds.locks_perm.mem_iff.1 hlock) (congrArg LockInfo.token hdescribe)
    exact ⟨lock.token, lock, heq ▸ hfound, heq ▸ hcov, hfree, rfl, htoken⟩
  · rintro ⟨token, lock, hlock, hcov, hfree, rfl, htoken⟩
    exact ⟨lock, hr.holds.locks_perm.mem_iff.2 (Ledger.mem_sweep.1 hlock).1,
      ⟨lock, hlock, hcov, rfl⟩, hfree, htoken⟩

theorem Represents.exists_access_iff (hr : Represents t l) (hl : l.Orderly) :
    (∃ tokens, (l.sweep now).access conditions name = some tokens) ↔
      (name ≠ "" → t.Grants now conditions name) := by
  rw [hr.grants_iff hl]
  simp only [Ledger.access_eq_some_iff]
  by_cases hname : name = ""
  · simp [hname]
  · simp [hname]

/-- The tokens that give access to a name are those that a lookup finds. -/
theorem Represents.filterMap_tokenAt (hr : Represents t l) (hl : l.Orderly)
    (h : (l.sweep now).access conditions name = some tokens) :
    ([name].filter (· ≠ "")).filterMap (t.tokenAt now) = tokens := by
  rcases Ledger.access_eq_some_iff.1 h with ⟨rfl, rfl⟩ | ⟨hname, token, hpick, rfl⟩
  · rfl
  · obtain ⟨lock, hlock, hcov, _, rfl, _⟩ := (hl.sweep now).pick_eq_some_iff.1 hpick
    simp [hname, hr.tokenAt_eq_some hl hlock hcov]

/-! ## What claims do -/

/-- The handles in a claim are those that its tokens lead to. -/
theorem Represents.locks_of_confirm (hr : Represents t l)
    (h : (t.confirm now name₀ name₁ conditions).1 = .ok claim) :
    claim.locks = claim.tokens.filterMap fun token =>
      ((t.sweep now).registry.find? token).map (⟨·, token⟩) := by
  have htokens := hr.confirm_eq_ok_iff.2 ⟨claim, h, rfl⟩
  obtain ⟨claim', t', heq, _, hleads, hreg, _⟩ := hr.confirm_ok (Prod.ext htokens rfl)
  rw [heq] at h
  obtain rfl : claim' = claim := Except.ok.inj h
  rw [hreg] at hleads
  unfold Claim.tokens
  rw [List.filterMap_map]
  refine ((List.filterMap_congr fun c hc => ?_).trans List.filterMap_some).symm
  simp [hleads c hc]

theorem resolve_congr {others : List Condition}
    (h : ∀ name, t.lookup (Path.clean name) others = t.lookup (Path.clean name) conditions)
    (names : List String) (found : List Handle) :
    t.resolve others names found = t.resolve conditions names found := by
  induction names generalizing found with
  | nil => rfl
  | cons name names ih => simp only [resolve_cons, h, ih]

/-- Conditions with the same tokens make the same claim. -/
theorem Represents.confirm_congr (hr : Represents t l) (hl : l.Orderly) {others : List Condition}
    (htokens : ∀ token, token ∈ others.map (·.token) ↔ token ∈ conditions.map (·.token)) :
    t.confirm now name₀ name₁ others = t.confirm now name₀ name₁ conditions := by
  have hlookup : ∀ name, (t.sweep now).lookup (Path.clean name) others =
      (t.sweep now).lookup (Path.clean name) conditions := by
    intro name
    rw [(hr.sweep now).lookup, (hr.sweep now).lookup, (hl.sweep now).pick_congr htokens]
  unfold LockTable.confirm
  simp only [resolve_congr hlookup]

theorem Represents.claims_agree (hr : Represents t l) (hl : l.Orderly) (now : Instant)
    (name₀ name₁ : String) (conditions : List Condition) :
    t.ClaimsAgree now name₀ name₁ conditions where
  succeeds := by
    have hsome : (∃ claim, (t.confirm now name₀ name₁ conditions).1 = .ok claim) ↔
        ∃ tokens, (l.confirm now name₀ name₁ conditions).1 = .ok tokens := by
      simp only [hr.confirm_eq_ok_iff]
      exact ⟨fun ⟨claim, h⟩ => ⟨_, claim, h, rfl⟩, fun ⟨_, claim, h, _⟩ => ⟨claim, h⟩⟩
    rw [hsome, Ledger.exists_confirm_iff]
    simp only [hr.exists_access_iff hl]
  claimed claim h := by
    have htokens := hr.confirm_eq_ok_iff.2 ⟨claim, h, rfl⟩
    obtain ⟨tokens₀, tokens₁, h₀, h₁, heq, _⟩ := Ledger.confirm_ok (Prod.ext htokens rfl)
    rw [heq, ← eraseDups_append_of_nodup (Ledger.free_of_access h₀).1 (Ledger.free_of_access h₁).1,
      ← hr.filterMap_tokenAt hl h₀, ← hr.filterMap_tokenAt hl h₁, ← List.filterMap_append,
      ← List.filter_append]
    rfl
  presented _ htokens := hr.confirm_congr hl htokens
  swapped claim h := by
    have htokens := hr.confirm_eq_ok_iff.2 ⟨claim, h, rfl⟩
    obtain ⟨tokens₀, tokens₁, h₀, h₁, heq, _⟩ := Ledger.confirm_ok (Prod.ext htokens rfl)
    obtain ⟨other, hother, hswapped⟩ := hr.confirm_eq_ok_iff.1 (Ledger.confirm_of_access h₁ h₀)
    refine ⟨other, hother, ?_⟩
    rw [hr.locks_of_confirm h, hr.locks_of_confirm hother, heq, hswapped]
    exact (append_filter_perm (Ledger.free_of_access h₀).1 (Ledger.free_of_access h₁).1).filterMap _

end LockTable

namespace Session

variable {s : Session}

/-- What a claim does can be told from lookups. -/
theorem Reachable.claims_match_lookups (hs : s.Reachable) (now : Instant) (name₀ name₁ : String)
    (conditions : List Condition) : s.table.ClaimsAgree now name₀ name₁ conditions := by
  obtain ⟨_, _, m, h, hm⟩ := hs.refines
  exact h.represents.claims_agree (h.orderly hm) now name₀ name₁ conditions

/-- A lock on a whole subtree and one on a single name. -/
def twoLocks : List Call :=
  [.create .epoch { root := "/a", duration := .infinite },
    .create .epoch { root := "b/", duration := .seconds 60, zeroDepth := true }]

/-- Conditions for both, one of them negated and one repeated. -/
def bothTokens : List Condition := [{ negated := true, token := "9" }, .ofToken "8", .ofToken "9"]

/-- The claim on both locks. -/
def claimOnBoth : Claim := ⟨[⟨⟨0, 0⟩, "8"⟩, ⟨⟨2, 0⟩, "9"⟩]⟩

theorem claims_match_lookups_two :
    let t := ((start 7).run twoLocks).2.table
    ((start 7).run twoLocks).2.Reachable ∧ t.ClaimsAgree .epoch "/a/x" "/b" bothTokens ∧
      t.tokenAt .epoch "/a/x" = some "8" ∧ t.tokenAt .epoch "/b" = some "9" ∧
      (t.confirm .epoch "/a/x" "/b" bothTokens).1 = .ok claimOnBoth ∧
      (t.confirm .epoch "/a/x" "/b" [.ofToken "8", .ofToken "9"]).1 = .ok claimOnBoth ∧
      ∃ other, (t.confirm .epoch "/b" "/a/x" bothTokens).1 = .ok other ∧
        other.locks.Perm claimOnBoth.locks := by
  intro t
  have hs : ((start 7).run twoLocks).2.Reachable := ⟨7, twoLocks, by decide +kernel, rfl⟩
  have hconfirm : (t.confirm .epoch "/a/x" "/b" bothTokens).1 = .ok claimOnBoth := by
    decide +kernel
  have hagree := hs.claims_match_lookups .epoch "/a/x" "/b" bothTokens
  have htokens : ∀ token, token ∈ [Condition.ofToken "8", .ofToken "9"].map (·.token) ↔
      token ∈ bothTokens.map (·.token) := by
    intro token
    simp only [bothTokens, Condition.ofToken, List.map_cons, List.map_nil, List.mem_cons,
      List.not_mem_nil, or_false]
    tauto
  have hsame := hagree.presented _ htokens
  exact ⟨hs, hagree, by decide +kernel, by decide +kernel, hconfirm,
    (congrArg Prod.fst hsame).trans hconfirm, hagree.swapped claimOnBoth hconfirm⟩

end Session

end PathLock
