import Mathlib.Logic.Equiv.Basic
import PathLock.Proofs.Lock.Alike
import PathLock.Proofs.Lock.Outstanding
import PathLock.Proofs.Lock.Vacancy

/-!
# Two creates in either order

A create looks up along the levels of its name for locks and down at one node only. All the same, of
two locks neither can be created beside the other or each can, whichever comes first.

* `Ledger.exists_both_iff`: what it takes for two creates to succeed, in terms that do not tell the
  first from the second.
* `Session.ReachableAfter.creates_commute`: on the table of any session, the order of two creates
  decides about their tokens only.
-/

namespace PathLock

/-! ## Requests -/

namespace Details

variable {d d₁ d₂ : Details}

/-- A lock with these details that is created now has not expired yet. -/
def Outlasts (d : Details) (now : Instant) : Prop := ∀ due ∈ d.duration.expiry now, now < due

instance (d : Details) (now : Instant) : Decidable (d.Outlasts now) :=
  inferInstanceAs (Decidable (∀ due ∈ d.duration.expiry now, now < due))

/-- The two are on one name, or one is above the other and reaches down to it. -/
def Clashes (d₁ d₂ : Details) : Prop :=
  Path.clean d₁.root = Path.clean d₂.root ∨
    d₁.zeroDepth = false ∧ Path.StrictlyWithin (Path.clean d₁.root) (Path.clean d₂.root) ∨
    d₂.zeroDepth = false ∧ Path.StrictlyWithin (Path.clean d₂.root) (Path.clean d₁.root)

theorem Clashes.symm (h : d₁.Clashes d₂) : d₂.Clashes d₁ := by
  rcases h with hroot | habove | hbelow
  · exact .inl hroot.symm
  · exact .inr (.inr habove)
  · exact .inr (.inl hbelow)

theorem clashes_comm : d₁.Clashes d₂ ↔ d₂.Clashes d₁ := ⟨Clashes.symm, Clashes.symm⟩

end Details

/-- The lock with the one token in place of the other. -/
def Lock.exchange (a b : String) (lock : Lock) : Lock :=
  { lock with token := Equiv.swap a b lock.token }

theorem Lock.exchange_of_ne {a b : String} {lock : Lock} (ha : lock.token ≠ a)
    (hb : lock.token ≠ b) : lock.exchange a b = lock := by
  unfold exchange
  rw [Equiv.swap_apply_of_ne_of_ne ha hb]

namespace Ledger

variable {l l' : Ledger} {now : Instant} {d d₁ d₂ : Details} {token a b : String}

/-! ## On a ledger -/

/-- No lock that is there rules the request out. -/
def Admits (l : Ledger) (now : Instant) (d : Details) : Prop :=
  ∀ lock ∈ (l.sweep now).locks, ¬ lock.Conflicts (Path.clean d.root) d.zeroDepth

/-- A new lock that outlasts the instant is there when the ledger is swept once more. -/
theorem locks_sweep_create (hout : d.Outlasts now) (hcreate : l.create now d = (.ok token, l')) :
    (l'.sweep now).locks = Lock.fresh token now d :: (l.sweep now).locks := by
  obtain ⟨_, _, rfl⟩ := create_ok hcreate
  have hlive : (Lock.fresh token now d).expired now = false := by
    rw [← Bool.not_eq_true, Lock.expired_iff_of_free rfl]
    rintro ⟨due, hdue, hle⟩
    exact absurd (hout due hdue) (not_lt.2 hle)
  rw [locks_sweep_cons, hlive, if_neg Bool.false_ne_true, sweep_sweep_self]

theorem admits_create_iff (hout : d₁.Outlasts now) (hcreate : l.create now d₁ = (.ok token, l')) :
    l'.Admits now d₂ ↔ ¬ d₁.Clashes d₂ ∧ l.Admits now d₂ := by
  unfold Admits
  rw [locks_sweep_create hout hcreate]
  exact List.forall_mem_cons

/-- The two requests play the same part. -/
theorem exists_both_iff (hout : d₁.Outlasts now) :
    (∃ a b, (l.create now d₁).1 = .ok a ∧ ((l.create now d₁).2.create now d₂).1 = .ok b) ↔
      l.Admits now d₁ ∧ l.Admits now d₂ ∧ ¬ d₁.Clashes d₂ := by
  constructor
  · rintro ⟨a, b, ha, hb⟩
    have hadmits := exists_create_iff.1 ⟨b, hb⟩
    obtain ⟨happart, hsecond⟩ := (admits_create_iff hout (Prod.ext ha rfl)).1 hadmits
    exact ⟨exists_create_iff.1 ⟨a, ha⟩, hsecond, happart⟩
  · rintro ⟨hfirst, hsecond, hapart⟩
    obtain ⟨a, ha⟩ := exists_create_iff.2 hfirst
    have hadmits := (admits_create_iff hout (Prod.ext ha rfl)).2 ⟨hapart, hsecond⟩
    obtain ⟨b, hb⟩ := exists_create_iff.2 hadmits
    exact ⟨a, b, ha, hb⟩

/-- Of two requests that could each be granted, the second is refused if they clash. -/
theorem exists_error_iff (hout : d₁.Outlasts now) (hfirst : l.Admits now d₁)
    (hsecond : l.Admits now d₂) :
    (∃ e, ((l.create now d₁).2.create now d₂).1 = .error e) ↔ d₁.Clashes d₂ := by
  obtain ⟨a, ha⟩ := exists_create_iff.2 hfirst
  have hadmits : (l.create now d₁).2.Admits now d₂ ↔ ¬ d₁.Clashes d₂ :=
    (admits_create_iff hout (Prod.ext ha rfl)).trans (and_iff_left hsecond)
  rw [← not_iff_not, ← hadmits]
  refine Iff.trans ?_ exists_create_iff
  cases ((l.create now d₁).2.create now d₂).1 <;> simp

/-- In the other order, the same two tokens go to the other locks. -/
theorem exchange_both {l₁ l₂ k₁ k₂ : Ledger} (hout₁ : d₁.Outlasts now) (hout₂ : d₂.Outlasts now)
    (h₁ : l.create now d₁ = (.ok a, l₁)) (h₂ : l₁.create now d₂ = (.ok b, l₂))
    (h₁' : l.create now d₂ = (.ok a, k₁)) (h₂' : k₁.create now d₁ = (.ok b, k₂))
    (ha : l.Lacks a) (hb : l.Lacks b) : (l₂.locks.map (Lock.exchange a b)).Perm k₂.locks := by
  have hothers : (l.sweep now).locks.map (Lock.exchange a b) = (l.sweep now).locks := by
    refine (List.map_congr_left fun lock hl => ?_).trans (List.map_id _)
    exact Lock.exchange_of_ne (ha.sweep now lock hl) (hb.sweep now lock hl)
  have hfirst : (Lock.fresh a now d₁).exchange a b = Lock.fresh b now d₁ := by
    unfold Lock.exchange Lock.fresh
    rw [Equiv.swap_apply_left]
  have hsecond : (Lock.fresh b now d₂).exchange a b = Lock.fresh a now d₂ := by
    unfold Lock.exchange Lock.fresh
    rw [Equiv.swap_apply_right]
  have hlocks : l₂.locks = Lock.fresh b now d₂ :: Lock.fresh a now d₁ :: (l.sweep now).locks := by
    rw [(create_ok h₂).2.2, ← locks_sweep_create hout₁ h₁]
  have hlocks' : k₂.locks = Lock.fresh b now d₁ :: Lock.fresh a now d₂ :: (l.sweep now).locks := by
    rw [(create_ok h₂').2.2, ← locks_sweep_create hout₂ h₁']
  rw [hlocks, hlocks', List.map_cons, List.map_cons, hothers, hfirst, hsecond]
  exact List.Perm.swap _ _ _

end Ledger

/-! ## On a table -/

/-- Creates two locks one after the other at one instant. -/
def LockTable.createBoth (t : LockTable) (now : Instant) (first second : Details) :
    (Except LockError String × Except LockError String) × LockTable :=
  let (a, t) := t.create now first
  let (b, t) := t.create now second
  ((a, b), t)

namespace Session

variable {s : Session} {m : Ledger.Session} {seed : UInt64} {n : ℕ} {now : Instant}
  {d₁ d₂ : Details} {a b : String}

/-- Table and ledger answer two creates alike. -/
theorem Tracks.createBoth (h : Tracks seed n s m) (hn : n < UInt64.size) (now : Instant)
    (d₁ d₂ : Details) : (s.table.createBoth now d₁ d₂).1 =
      ((m.ledger.create now d₁).1, ((m.ledger.create now d₁).2.create now d₂).1) := by
  obtain ⟨hfirst, hnext⟩ := h.refines.represents.create now d₁
  obtain ⟨hr, _⟩ := hnext fun token htoken lock hl => by
    have hcreate : m.ledger.create now d₁ = (.ok token, (m.ledger.create now d₁).2) :=
      Prod.ext htoken rfl
    rw [(Ledger.create_ok hcreate).2.1, h.sound.next_token]
    exact (h.sound.lock_issued lock hl).ne_next hn
  exact Prod.ext hfirst (hr.create now d₂).1

/-- Two creates that both succeed take the next two tokens. -/
theorem Tracks.createBoth_ok (h : Tracks seed n s m) (hn : n + 2 ≤ UInt64.size)
    (hboth : (s.table.createBoth now d₁ d₂).1 = (.ok a, .ok b)) :
    ∃ l₁ l₂, m.ledger.create now d₁ = (.ok a, l₁) ∧ l₁.create now d₂ = (.ok b, l₂) ∧
      a = issued seed (n + 1) ∧ b = issued seed (n + 2) ∧
      (s.table.createBoth now d₁ d₂).2.Represents l₂ := by
  obtain ⟨ha, hb⟩ := Prod.mk.inj hboth
  obtain ⟨l₁, h₁, htoken₁, hnext⟩ := h.create_ok (by omega) (Prod.ext ha rfl)
  obtain ⟨l₂, h₂, htoken₂, hnext'⟩ := hnext.create_ok (by omega) (Prod.ext hb rfl)
  exact ⟨l₁, l₂, h₁, h₂, htoken₁, htoken₂, hnext'.refines.represents⟩

/-- Two creates at one instant, each with a lock that outlasts it, succeed in either order or in
none, and leave the same but for the two tokens. If each succeeds alone, it is the clash of the two
that makes the second fail after the first. -/
theorem ReachableAfter.creates_commute (hs : s.ReachableAfter n) (hn : n < UInt64.size)
    (hout₁ : d₁.Outlasts now) (hout₂ : d₂.Outlasts now) :
    ((∃ a b, (s.table.createBoth now d₁ d₂).1 = (.ok a, .ok b)) ↔
      ∃ a b, (s.table.createBoth now d₂ d₁).1 = (.ok a, .ok b)) ∧
    (n + 2 ≤ UInt64.size → ∀ a b, (s.table.createBoth now d₁ d₂).1 = (.ok a, .ok b) →
      (s.table.createBoth now d₂ d₁).1 = (.ok a, .ok b) ∧
      LockTable.AlikeUnder (Lock.exchange a b) (s.table.createBoth now d₁ d₂).2
        (s.table.createBoth now d₂ d₁).2 ∧
      (s.table.createBoth now d₁ d₂).2.registry.counter =
        (s.table.createBoth now d₂ d₁).2.registry.counter) ∧
    ((∃ a, (s.table.create now d₁).1 = .ok a) → (∃ b, (s.table.create now d₂).1 = .ok b) →
      ((∃ e, (s.table.createBoth now d₁ d₂).1.2 = .error e) ↔ d₁.Clashes d₂)) := by
  obtain ⟨seed, m, h⟩ := hs.tracks hn.le
  have hr := h.refines.represents
  have hiff : (∃ a b, (s.table.createBoth now d₁ d₂).1 = (.ok a, .ok b)) ↔
      ∃ a b, (s.table.createBoth now d₂ d₁).1 = (.ok a, .ok b) := by
    rw [h.createBoth hn, h.createBoth hn]
    simp only [Prod.mk.injEq]
    rw [Ledger.exists_both_iff hout₁, Ledger.exists_both_iff hout₂, Details.clashes_comm,
      and_left_comm]
  refine ⟨hiff, fun hn' a b hboth => ?_, fun hfirst hsecond => ?_⟩
  · obtain ⟨a', b', hboth'⟩ := hiff.1 ⟨a, b, hboth⟩
    obtain ⟨l₁, l₂, h₁, h₂, rfl, rfl, hr₂⟩ := h.createBoth_ok hn' hboth
    obtain ⟨k₁, k₂, h₁', h₂', rfl, rfl, hr₂'⟩ := h.createBoth_ok hn' hboth'
    have ha : m.ledger.Lacks (issued seed (n + 1)) :=
      fun lock hl => (h.sound.lock_issued lock hl).ne_next hn
    have hb : m.ledger.Lacks (issued seed (n + 2)) := fun lock hl =>
      ((h.sound.lock_issued lock hl).mono (Nat.le_succ n)).ne_next (by omega)
    refine ⟨hboth', hr₂.alikeUnder hr₂' ?_ (fun _ => rfl) fun _ => rfl, ?_⟩
    · exact Ledger.exchange_both hout₁ hout₂ h₁ h₂ h₁' h₂' ha hb
    · rw [hr₂.counter, hr₂'.counter, (Ledger.create_ok h₂).2.2, (Ledger.create_ok h₂').2.2,
        (Ledger.create_ok h₁).2.2, (Ledger.create_ok h₁').2.2]
  · rw [(hr.create now d₁).1, Ledger.exists_create_iff] at hfirst
    rw [(hr.create now d₂).1, Ledger.exists_create_iff] at hsecond
    rw [h.createBoth hn]
    exact Ledger.exists_error_iff hout₁ hfirst hsecond

/-- A lock for a minute, and one for good elsewhere. -/
def minuteAndLasting : List Call :=
  [.create .epoch { root := "/a/b/c", duration := .seconds 60 },
    .create .epoch { root := "/d", duration := .infinite }]

/-- A lock on a name alone. -/
def upperAlone : Details := { root := "/a/", duration := .infinite, zeroDepth := true }

/-- A lock on what is below another name. -/
def lowerSubtree : Details := { root := "/a/./b", duration := .seconds 10 }

theorem creates_commute_nested :
    let s := ((start 7).run minuteAndLasting).2
    let now := Instant.epoch.after 60
    s.ReachableAfter 2 ∧ upperAlone.Outlasts now ∧ lowerSubtree.Outlasts now ∧
      (s.table.createBoth now upperAlone lowerSubtree).1 = (.ok "10", .ok "11") ∧
      (s.table.createBoth now lowerSubtree upperAlone).1 = (.ok "10", .ok "11") ∧
      LockTable.AlikeUnder (Lock.exchange "10" "11")
        (s.table.createBoth now upperAlone lowerSubtree).2
        (s.table.createBoth now lowerSubtree upperAlone).2 ∧
      ¬ upperAlone.Clashes lowerSubtree := by
  intro s now
  have hs : s.ReachableAfter 2 := ⟨7, minuteAndLasting, by decide +kernel, rfl⟩
  have hupper : upperAlone.Outlasts now := by decide +kernel
  have hlower : lowerSubtree.Outlasts now := by decide +kernel
  have hboth : (s.table.createBoth now upperAlone lowerSubtree).1 = (.ok "10", .ok "11") := by
    decide +kernel
  have hfirst : (s.table.create now upperAlone).1 = .ok "10" := by decide +kernel
  have hsecond : (s.table.create now lowerSubtree).1 = .ok "10" := by decide +kernel
  obtain ⟨_, hexchange, hclash⟩ := hs.creates_commute (by decide) hupper hlower
  obtain ⟨hboth', halike, _⟩ := hexchange (by decide) "10" "11" hboth
  refine ⟨hs, hupper, hlower, hboth, hboth', halike, fun hclashes => ?_⟩
  obtain ⟨e, he⟩ := (hclash ⟨_, hfirst⟩ ⟨_, hsecond⟩).2 hclashes
  rw [hboth] at he
  cases he

-- If the upper lock reaches down, whichever comes second is refused.
example :
    let t := ((start 7).run minuteAndLasting).2.table
    let now := Instant.epoch.after 60
    (t.createBoth now { upperAlone with zeroDepth := false } lowerSubtree).1 =
        (.ok "10", .error .locked) ∧
      (t.createBoth now lowerSubtree { upperAlone with zeroDepth := false }).1 =
        (.ok "10", .error .locked) := by
  decide +kernel

end Session

end PathLock
