import PathLock.Proofs.Lock.Refinement

/-!
# Ledgers in order

In the ledger of a session, locks exclude one another, are on clean names and have tokens of their
own (`Ledger.Orderly`). What such a ledger answers depends on the one lock that is meant, whatever
the order of the locks or of the conditions presented:

* `Orderly.find?_eq_some_iff`, `Orderly.lockAt_eq_ok_iff`, `Orderly.pick_eq_some_iff`: which lock is
  found by its token, which on a name, and which by conditions.
* `Session.Refines.orderly`: the ledger of a session on a table is in order.
-/

namespace PathLock

section Unique

variable {α β : Type} {l : List α}

/-- If there is one hit at most, the first is any. -/
theorem find?_eq_some_iff_of_unique {p : α → Bool} {a : α}
    (hunique : ∀ a ∈ l, ∀ b ∈ l, p a = true → p b = true → a = b) :
    l.find? p = some a ↔ a ∈ l ∧ p a = true := by
  constructor
  · intro h
    exact ⟨List.mem_of_find?_eq_some h, List.find?_some h⟩
  · rintro ⟨ha, hpa⟩
    cases hfind : l.find? p with
    | none => exact absurd hpa (List.find?_eq_none.1 hfind a ha)
    | some b =>
      rw [hunique b (List.mem_of_find?_eq_some hfind) a ha (List.find?_some hfind) hpa]

theorem findSome?_eq_some_iff_of_unique {f : α → Option β} {b : β}
    (hunique : ∀ a ∈ l, ∀ a' ∈ l, ∀ b b', f a = some b → f a' = some b' → b = b') :
    l.findSome? f = some b ↔ ∃ a ∈ l, f a = some b := by
  constructor
  · exact List.exists_of_findSome?_eq_some
  · rintro ⟨a, ha, hb⟩
    cases hfind : l.findSome? f with
    | none => simp [List.findSome?_eq_none_iff.1 hfind a ha] at hb
    | some b' =>
      obtain ⟨a', ha', hb'⟩ := List.exists_of_findSome?_eq_some hfind
      rw [hunique a' ha' a ha b' b hb' hb]

end Unique

namespace Ledger

variable {l : Ledger} {now : Instant} {token name root : String} {lock : Lock}
  {conditions : List Condition} {tokens : List String}

/-- Locks exclude one another, are on clean names and have tokens of their own. -/
structure Orderly (l : Ledger) : Prop where
  exclusive : l.Exclusive
  clean : ∀ lock ∈ l.locks, Path.IsClean lock.root
  token_inj : ∀ a ∈ l.locks, ∀ b ∈ l.locks, a.token = b.token → a = b

theorem mem_sweep : lock ∈ (l.sweep now).locks ↔ lock ∈ l.locks ∧ lock.expired now = false := by
  unfold sweep
  simp [List.mem_filter]

theorem mem_sweep_of_held (hl : lock ∈ l.locks) (hheld : lock.held = true) :
    lock ∈ (l.sweep now).locks := mem_sweep.2 ⟨hl, by simp [Lock.expired, hheld]⟩

theorem Orderly.sweep (h : l.Orderly) (now : Instant) : (l.sweep now).Orderly where
  exclusive := h.exclusive.sweep now
  clean lock hl := h.clean lock (mem_sweep.1 hl).1
  token_inj a ha b hb := h.token_inj a (mem_sweep.1 ha).1 b (mem_sweep.1 hb).1

/-! ## By token -/

theorem Orderly.find?_eq_some_iff (h : l.Orderly) :
    l.find? token = some lock ↔ lock ∈ l.locks ∧ lock.token = token := by
  unfold find?
  rw [find?_eq_some_iff_of_unique, decide_eq_true_eq]
  intro a ha b hb hat hbt
  exact h.token_inj a ha b hb ((of_decide_eq_true hat).trans (of_decide_eq_true hbt).symm)

theorem Orderly.find?_token (h : l.Orderly) (hl : lock ∈ l.locks) :
    l.find? lock.token = some lock := h.find?_eq_some_iff.2 ⟨hl, rfl⟩

theorem Orderly.refresh_of_held (h : l.Orderly) (hl : lock ∈ l.locks) (hheld : lock.held = true)
    (now : Instant) (duration : Timeout) :
    l.refresh now lock.token duration = (.error .locked, l.sweep now) := by
  unfold refresh
  dsimp only
  rw [(h.sweep now).find?_token (mem_sweep_of_held hl hheld)]
  dsimp only
  rw [if_pos hheld]

theorem Orderly.unlock_of_held (h : l.Orderly) (hl : lock ∈ l.locks) (hheld : lock.held = true)
    (now : Instant) : l.unlock now lock.token = (.error .locked, l.sweep now) := by
  unfold unlock
  dsimp only
  rw [(h.sweep now).find?_token (mem_sweep_of_held hl hheld)]
  dsimp only
  rw [if_pos hheld]

theorem refresh_of_absent (habsent : ∀ lock ∈ (l.sweep now).locks, lock.token ≠ token)
    (duration : Timeout) : l.refresh now token duration = (.error .noSuchLock, l.sweep now) := by
  unfold refresh
  dsimp only
  rw [find?_eq_none_iff.2 habsent]

theorem unlock_of_absent (habsent : ∀ lock ∈ (l.sweep now).locks, lock.token ≠ token) :
    l.unlock now token = (.error .noSuchLock, l.sweep now) := by
  unfold unlock
  dsimp only
  rw [find?_eq_none_iff.2 habsent]

/-! ## By name -/

/-- The one lock that covers a name is found on it. -/
theorem Orderly.lockAt_eq_ok_iff (h : l.Orderly) {info : LockInfo} :
    (l.lockAt now name).1 = .ok info ↔
      ∃ lock ∈ (l.sweep now).locks, lock.Covers (Path.clean name) ∧
        LockTable.describe lock = info := by
  have hsweep := h.sweep now
  have hfind : ∀ lock, (l.sweep now).locks.find? (fun lock => lock.Covers (Path.clean name)) =
      some lock ↔ lock ∈ (l.sweep now).locks ∧ lock.Covers (Path.clean name) := by
    intro lock
    rw [find?_eq_some_iff_of_unique, decide_eq_true_eq]
    intro a ha b hb hca hcb
    exact hsweep.exclusive.eq_of_covers hsweep.clean (Path.isClean_clean name) ha hb
      (of_decide_eq_true hca) (of_decide_eq_true hcb)
  unfold lockAt
  cases hcase : (l.sweep now).locks.find? fun lock => lock.Covers (Path.clean name) with
  | none =>
    simp only [hcase, reduceCtorEq, false_iff]
    rintro ⟨lock, hl, hcov, _⟩
    simp [(hfind lock).2 ⟨hl, hcov⟩] at hcase
  | some found =>
    simp only [hcase, Except.ok.injEq]
    constructor
    · intro hinfo
      exact ⟨found, ((hfind found).1 hcase).1, ((hfind found).1 hcase).2, hinfo⟩
    · rintro ⟨lock, hl, hcov, rfl⟩
      rw [(hfind lock).2 ⟨hl, hcov⟩, Option.some.injEq] at hcase
      rw [hcase]
      rfl

/-- A lock is found on its own root. -/
theorem Orderly.lockAt_root (h : l.Orderly) (hl : lock ∈ (l.sweep now).locks) :
    (l.lockAt now lock.root).1 = .ok (LockTable.describe lock) := by
  refine h.lockAt_eq_ok_iff.2 ⟨lock, hl, .inl ?_, rfl⟩
  exact ((h.sweep now).clean lock hl).clean_eq_self.symm

/-! ## By conditions -/

theorem Orderly.matchCondition_eq_some_iff (h : l.Orderly) {condition : Condition} :
    l.matchCondition name condition = some token ↔
      ∃ lock ∈ l.locks, lock.Covers (Path.clean name) ∧ lock.held = false ∧ lock.token = token ∧
        condition.token = token := by
  unfold matchCondition
  simp only [Option.bind_eq_some_iff, h.find?_eq_some_iff, Option.ite_none_right_eq_some,
    Option.some.injEq]
  constructor
  · rintro ⟨lock, ⟨hl, hcondition⟩, ⟨hfree, hcov⟩, rfl⟩
    exact ⟨lock, hl, hcov, hfree, rfl, hcondition.symm⟩
  · rintro ⟨lock, hl, hcov, hfree, rfl, hcondition⟩
    exact ⟨lock, ⟨hl, hcondition.symm⟩, ⟨hfree, hcov⟩, rfl⟩

/-- Which condition comes first does not matter, since one lock at most covers the name. -/
theorem Orderly.pick_eq_some_iff (h : l.Orderly) : l.pick conditions name = some token ↔
    ∃ lock ∈ l.locks, lock.Covers (Path.clean name) ∧ lock.held = false ∧ lock.token = token ∧
      token ∈ conditions.map (·.token) := by
  unfold pick
  rw [findSome?_eq_some_iff_of_unique]
  · simp only [h.matchCondition_eq_some_iff, List.mem_map]
    constructor
    · rintro ⟨condition, hc, lock, hl, hcov, hfree, htoken, hcondition⟩
      exact ⟨lock, hl, hcov, hfree, htoken, condition, hc, hcondition⟩
    · rintro ⟨lock, hl, hcov, hfree, htoken, condition, hc, hcondition⟩
      exact ⟨condition, hc, lock, hl, hcov, hfree, htoken, hcondition⟩
  · intro c _ c' _ token token' hm hm'
    obtain ⟨lock, hl, hcov, _, rfl, _⟩ := h.matchCondition_eq_some_iff.1 hm
    obtain ⟨lock', hl', hcov', _, rfl, _⟩ := h.matchCondition_eq_some_iff.1 hm'
    rw [h.exclusive.eq_of_covers h.clean (Path.isClean_clean name) hl hl' hcov hcov']

theorem access_eq_some_iff : l.access conditions name = some tokens ↔
    name = "" ∧ tokens = [] ∨ name ≠ "" ∧ ∃ token, l.pick conditions name = some token ∧
      tokens = [token] := by
  unfold access
  split_ifs with hname
  · simp [hname, eq_comm]
  · simp [hname, eq_comm]

/-- Only the tokens of the conditions matter. -/
theorem Orderly.pick_congr (h : l.Orderly) {others : List Condition}
    (htokens : ∀ token, token ∈ others.map (·.token) ↔ token ∈ conditions.map (·.token)) :
    l.pick others name = l.pick conditions name := by
  apply Option.ext
  intro token
  rw [h.pick_eq_some_iff, h.pick_eq_some_iff, htokens]

/-- What is held already is not claimed. -/
theorem Orderly.not_mem_of_confirm_ok (h : l.Orderly) (hl : lock ∈ l.locks)
    (hheld : lock.held = true) {name₀ name₁ : String}
    (hconfirm : (l.confirm now name₀ name₁ conditions).1 = .ok tokens) : lock.token ∉ tokens := by
  intro htoken
  have hpair : l.confirm now name₀ name₁ conditions =
      (.ok tokens, (l.confirm now name₀ name₁ conditions).2) := Prod.ext hconfirm rfl
  obtain ⟨_, hfree⟩ := free_of_confirm hpair
  obtain ⟨other, ho, hother, hofree⟩ := hfree _ htoken
  rw [h.token_inj other (mem_sweep.1 ho).1 lock hl hother, hheld] at hofree
  exact Bool.noConfusion hofree

end Ledger

namespace Session

variable {s : Session} {m : Ledger.Session} {seed : UInt64} {n : Nat}

theorem Refines.orderly (h : Refines s m) (hm : m.Sound seed n) : m.ledger.Orderly where
  exclusive := hm.exclusive
  clean := h.represents.holds.clean
  token_inj _ ha _ hb htoken := h.represents.holds.eq_of_token_eq ha hb htoken

end Session

end PathLock
