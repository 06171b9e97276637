import PathLock.Proofs.Lock.Alike
import PathLock.Proofs.Lock.Outstanding

/-!
# Calls that undo one another

To unlock what was just created, or to release what was just claimed, leaves the table as it would
be had nothing but its expired locks gone, up to the nodes that are used and the order of the locks.

* `Ledger.unlock_create`, `Ledger.release_confirm`: on a ledger, nothing else is left at all.
* `Session.ReachableAfter.create_and_confirm_undone`: on the table of any session.
-/

namespace PathLock

namespace Ledger

variable {l l' : Ledger} {now later : Instant} {details : Details} {token name₀ name₁ : String}
  {tokens : List String} {conditions : List Condition} {lock : Lock}

theorem unlock_of_head {rest : List Lock} (hlocks : (l.sweep now).locks = lock :: rest)
    (htoken : lock.token = token) (hfree : lock.held = false)
    (hrest : ∀ k ∈ rest, k.token ≠ token) :
    l.unlock now token = (.ok (), ⟨l.counter, rest⟩) := by
  have hfind : (l.sweep now).find? token = some lock := by
    unfold find?
    rw [hlocks]
    exact List.find?_cons_of_pos (decide_eq_true htoken)
  have hothers : rest.filter (fun k => k.token ≠ token) = rest :=
    List.filter_eq_self.2 fun k hk => decide_eq_true (hrest k hk)
  unfold unlock
  dsimp only
  rw [hfind]
  dsimp only
  rw [hfree, hlocks, List.filter_cons_of_neg (by simp [htoken]), hothers]
  rfl

/-- Whether or not the new lock has expired by then, it is gone, and nothing else is. -/
theorem unlock_create (hcreate : l.create now details = (.ok token, l')) (hfresh : l.Lacks token)
    (later : Instant) :
    ((l'.unlock later token).1 = .ok () ∨ (l'.unlock later token).1 = .error .noSuchLock ∧
        ∃ due, details.duration.expiry now = some due ∧ due ≤ later) ∧
      (l'.unlock later token).2 = ⟨l.counter + 1, ((l.sweep now).sweep later).locks⟩ := by
  obtain ⟨_, _, rfl⟩ := create_ok hcreate
  have hlacks : ((l.sweep now).sweep later).Lacks token := (hfresh.sweep now).sweep later
  have hswept := locks_sweep_cons (l.counter + 1) (Lock.fresh token now details) (l.sweep now) later
  cases hexpired : (Lock.fresh token now details).expired later with
  | true =>
    rw [hexpired, if_pos rfl] at hswept
    rw [unlock_of_absent (by rw [hswept]; exact hlacks)]
    exact ⟨.inr ⟨rfl, (Lock.expired_iff_of_free rfl).1 hexpired⟩, by rw [← hswept]; rfl⟩
  | false =>
    rw [hexpired, if_neg Bool.false_ne_true] at hswept
    have htoken : (Lock.fresh token now details).token = token := rfl
    rw [unlock_of_head hswept htoken rfl hlacks]
    exact ⟨.inl rfl, rfl⟩

/-- Locks that were free are free again. -/
theorem setHeld_setHeld_of_free (h : ∀ lock ∈ l.locks, lock.token ∈ tokens → lock.held = false) :
    (l.setHeld tokens true).setHeld tokens false = l := by
  unfold setHeld
  dsimp only
  rw [List.map_map]
  refine Ledger.mk.injEq .. ▸ ⟨rfl, ?_⟩
  refine (List.map_congr_left fun lock hl => ?_).trans (List.map_id _)
  rw [Function.comp_apply]
  by_cases ht : lock.token ∈ tokens
  · rw [if_pos ht, if_pos (by exact ht), ← h lock hl ht]
    rfl
  · rw [if_neg ht, if_neg ht]
    rfl

theorem Orderly.free_of_confirm (ho : l.Orderly)
    (hconfirm : l.confirm now name₀ name₁ conditions = (.ok tokens, l')) :
    ∀ lock ∈ (l.sweep now).locks, lock.token ∈ tokens → lock.held = false := by
  intro lock hl ht
  obtain ⟨other, hother, htoken, hfree⟩ := (Ledger.free_of_confirm hconfirm).2 _ ht
  rwa [(ho.sweep now).token_inj other hother lock hl htoken] at hfree

theorem release_confirm (ho : l.Orderly)
    (hconfirm : l.confirm now name₀ name₁ conditions = (.ok tokens, l')) :
    l'.release tokens = l.sweep now := by
  have hfree := ho.free_of_confirm hconfirm
  obtain ⟨_, _, _, _, _, rfl⟩ := confirm_ok hconfirm
  exact setHeld_setHeld_of_free hfree

end Ledger

namespace LockTable

variable {t t' : LockTable} {l : Ledger} {now : Instant} {name₀ name₁ : String}
  {conditions : List Condition} {claim : Claim}

theorem Represents.release_confirm (hr : Represents t l) (ho : l.Orderly)
    (hconfirm : t.confirm now name₀ name₁ conditions = (.ok claim, t')) :
    ∃ t'', t'.release claim = (.ok (), t'') ∧ Represents t'' (l.sweep now) := by
  cases hl : l.confirm now name₀ name₁ conditions with
  | mk result l' =>
    cases result with
    | error e =>
      rw [(hr.confirm_error hl).1] at hconfirm
      exact absurd (Prod.mk.inj hconfirm).1 (by simp)
    | ok tokens =>
      obtain ⟨claim', t₁, heq, rfl, hleads, _, hr'⟩ := hr.confirm_ok hl
      obtain ⟨hclaim, rfl⟩ := Prod.mk.inj (heq.symm.trans hconfirm)
      obtain rfl := Except.ok.inj hclaim
      have hnodup := (Ledger.free_of_confirm hl).1
      obtain ⟨t'', hrelease, _, hr''⟩ := hr'.release hnodup
        (fun c hc h hreg => Option.some.inj (hreg.symm.trans (hleads c hc)))
        (fun lock hlock ht => by
          obtain ⟨_, _, _, _, _, rfl⟩ := Ledger.confirm_ok hl
          obtain ⟨k, _, rfl⟩ := Ledger.mem_setHeld.1 hlock
          split_ifs at ht ⊢ with hk
          · rfl
          · exact absurd ht hk)
      rw [Ledger.release_confirm ho hl] at hr''
      exact ⟨t'', hrelease, hr''⟩

end LockTable

namespace Session

variable {s : Session} {n : ℕ}

/-- Unlocking after a create and releasing after a claim undo it. What is left of a create is that
its token has been issued. -/
theorem ReachableAfter.create_and_confirm_undone (hs : s.ReachableAfter n) (hn : n ≤ UInt64.size) :
    (∀ now details token t, n < UInt64.size → s.table.create now details = (.ok token, t) →
      ∀ later,
        ((t.unlock later token).1 = .ok () ∨ (t.unlock later token).1 = .error .noSuchLock ∧
          ∃ due, details.duration.expiry now = some due ∧ due ≤ later) ∧
        ((s.table.sweep now).sweep later).AlikeUnder id (t.unlock later token).2 ∧
        (t.unlock later token).2.registry.counter = s.table.registry.counter + 1) ∧
    ∀ now name₀ name₁ conditions claim t,
      s.table.confirm now name₀ name₁ conditions = (.ok claim, t) →
        (t.release claim).1 = .ok () ∧
        (s.table.sweep now).AlikeUnder id (t.release claim).2 ∧
        (t.release claim).2.registry.counter = s.table.registry.counter := by
  obtain ⟨seed, m, h⟩ := hs.tracks hn
  have hr := h.refines.represents
  refine ⟨fun now details token t hlt hcreate later => ?_,
    fun now name₀ name₁ conditions claim t hconfirm => ?_⟩
  · obtain ⟨l, hl, rfl, hnext⟩ := h.create_ok hlt hcreate
    have hfresh : m.ledger.Lacks (issued seed (n + 1)) :=
      fun lock hlock => (h.sound.lock_issued lock hlock).ne_next hlt
    obtain ⟨hanswer, hledger⟩ := Ledger.unlock_create hl hfresh later
    obtain ⟨hsame, hafter⟩ := hnext.refines.represents.unlock later (issued seed (n + 1))
    rw [hledger] at hafter
    rw [hsame]
    refine ⟨hanswer, ((hr.sweep now).sweep later).alike hafter rfl, ?_⟩
    rw [hafter.counter, hr.counter]
  · obtain ⟨t', hrelease, hr'⟩ := hr.release_confirm h.orderly hconfirm
    rw [hrelease]
    refine ⟨rfl, (hr.sweep now).alike hr' rfl, ?_⟩
    rw [hr'.counter, hr.counter]
    rfl

/-- Two locks beside one another, the first for a minute. -/
def sideBySide : List Call :=
  [.create .epoch { root := "/a/b", duration := .seconds 60 },
    .create .epoch { root := "/a/c", duration := .infinite }]

/-- A lock in the same directory for ten seconds. -/
def shortLock : Details := { root := "/a//d/e", duration := .seconds 10 }

/-- The claim of both locks. -/
def bothClaimed : Claim := ⟨[⟨⟨0, 0⟩, "8"⟩, ⟨⟨3, 0⟩, "9"⟩]⟩

theorem create_and_confirm_undone_beside :
    let s := ((start 7).run sideBySide).2
    let now := Instant.epoch.after 60
    let t := (s.table.create now shortLock).2
    let t' := (s.table.confirm .epoch "/a/b" "/a/c" [.ofToken "8", .ofToken "9"]).2
    s.ReachableAfter 2 ∧ (s.table.create now shortLock).1 = .ok "10" ∧
      (∀ later,
        ((t.unlock later "10").1 = .ok () ∨ (t.unlock later "10").1 = .error .noSuchLock ∧
          ∃ due, shortLock.duration.expiry now = some due ∧ due ≤ later) ∧
        ((s.table.sweep now).sweep later).AlikeUnder id (t.unlock later "10").2 ∧
        (t.unlock later "10").2.registry.counter = s.table.registry.counter + 1) ∧
      (s.table.confirm .epoch "/a/b" "/a/c" [.ofToken "8", .ofToken "9"]).1 = .ok bothClaimed ∧
      (t'.release bothClaimed).1 = .ok () ∧
      (s.table.sweep .epoch).AlikeUnder id (t'.release bothClaimed).2 ∧
      (t'.release bothClaimed).2.registry.counter = s.table.registry.counter := by
  intro s now t t'
  have hs : s.ReachableAfter 2 := ⟨7, sideBySide, by decide +kernel, rfl⟩
  have hcreate : (s.table.create now shortLock).1 = .ok "10" := by decide +kernel
  have hconfirm : (s.table.confirm .epoch "/a/b" "/a/c" [.ofToken "8", .ofToken "9"]).1 =
      .ok bothClaimed := by decide +kernel
  obtain ⟨hunlock, hrelease⟩ := hs.create_and_confirm_undone (by decide)
  refine ⟨hs, hcreate, ?_, hconfirm, ?_⟩
  · exact hunlock now shortLock "10" t (by decide) (Prod.ext hcreate rfl)
  · exact hrelease _ _ _ _ bothClaimed t' (Prod.ext hconfirm rfl)

-- Ten seconds later the new lock can be unlocked just before it expires, but not when it does.
example :
    let t := (((start 7).run sideBySide).2.table.create (Instant.epoch.after 60) shortLock).2
    (t.unlock (Instant.epoch.after 69) "10").1 = .ok () ∧
      (t.unlock (Instant.epoch.after 70) "10").1 = .error .noSuchLock := by
  decide +kernel

end Session

end PathLock
