import PathLock.Proofs.Lock.Admission
import PathLock.Proofs.Lock.Holds

/-!
# The life of a lock

A table that represents a ledger drops, creates, refreshes, unlocks and deletes locks as the ledger
does, with the same answers, and represents the ledger that comes of it.

* `Represents.sweep`, `Represents.create`, `Represents.refresh`, `Represents.unlock`,
  `Represents.delete`.
-/

namespace PathLock

theorem Timeout.expiry_eq_none_iff {timeout : Timeout} {now : Instant} :
    timeout.expiry now = none ↔ timeout = .infinite := by
  cases timeout <;> simp [expiry]

namespace LockTable

variable {t : LockTable} {l : Ledger} {locks : List Lock} {lock other : Lock} {h : Handle}
  {node : Node} {now : Instant} {token : String}

/-- The table holds the locks of the ledger, and issues the same tokens. -/
structure Represents (t : LockTable) (l : Ledger) : Prop where
  holds : Holds t l.locks
  counter : t.registry.counter = l.counter

theorem represents_empty (seed : UInt64) : Represents (empty seed) { counter := seed } where
  holds := holds_empty seed
  counter := rfl

/-! ## Where a lock is -/

/-- The node carries the lock and is found by its token and by its root. -/
structure Carries (t : LockTable) (h : Handle) (node : Node) (lock : Lock) : Prop where
  registered : t.registry.find? lock.token = some h
  found : t.index.find? lock.root = some h
  resolved : t.index.node? h = some node
  carried : node.lock? = some lock

theorem Carries.token_eq (hc : Carries t h node lock) : node.token = some lock.token :=
  (Node.lock?_eq_some.1 hc.carried).1

theorem Carries.details_eq (hc : Carries t h node lock) : node.details = lock.details :=
  (Node.lock?_eq_some.1 hc.carried).2.1

theorem Carries.expiry_eq (hc : Carries t h node lock) : node.expiry = lock.expiry :=
  (Node.lock?_eq_some.1 hc.carried).2.2.1

theorem Carries.held_eq (hc : Carries t h node lock) : node.held = lock.held :=
  (Node.lock?_eq_some.1 hc.carried).2.2.2

theorem Holds.exists_carries (ht : Holds t locks) (hl : lock ∈ locks) :
    ∃ h node, Carries t h node lock := by
  obtain ⟨h, node, hf, hn, hlock⟩ := ht.counts.exists_node hl
  exact ⟨h, node, (ht.find?_token hl).trans hf, hf, hn, hlock⟩

theorem Holds.exists_of_registered (ht : Holds t locks) (hreg : t.registry.find? token = some h) :
    ∃ lock ∈ locks, lock.token = token ∧ ∃ node, Carries t h node lock := by
  obtain ⟨lock, hl, htoken, hf⟩ := (ht.tokens token h).1 hreg
  obtain ⟨k, node, hc⟩ := ht.exists_carries hl
  have hk : k = h := Option.some.inj (hc.found.symm.trans hf)
  exact ⟨lock, hl, htoken, node, hk ▸ hc⟩

/-- A node with a token carries one of the locks. -/
theorem Holds.exists_of_token (ht : Holds t locks) (hn : t.index.node? h = some node)
    (htoken : node.token = some token) :
    ∃ lock ∈ locks, lock.token = token ∧ Carries t h node lock := by
  cases hlock : node.lock? with
  | none =>
    rw [Node.lock?_eq_none.1 hlock] at htoken
    exact absurd htoken (by simp)
  | some lock =>
    obtain ⟨hl, hf⟩ := ht.counts.mem_of_lock? hn hlock
    have heq := (Node.lock?_eq_some.1 hlock).1
    rw [htoken, Option.some.injEq] at heq
    exact ⟨lock, hl, heq.symm, (ht.find?_token hl).trans hf, hf, hn, hlock⟩

/-- A token leads to the node of its lock, or there is neither a lock nor a node. -/
theorem Represents.find?_cases (hr : Represents t l) (token : String) :
    (l.find? token = none ∧ t.registry.find? token = none) ∨
      ∃ lock ∈ l.locks, lock.token = token ∧ l.find? token = some lock ∧
        ∃ h node, Carries t h node lock := by
  cases hfind : l.find? token with
  | none => exact .inl ⟨rfl, hr.holds.not_registered (Ledger.find?_eq_none_iff.1 hfind)⟩
  | some lock =>
    obtain ⟨hl, htoken⟩ := Ledger.mem_of_find?_eq_some hfind
    exact .inr ⟨lock, hl, htoken, rfl, hr.holds.exists_carries hl⟩

/-- What refresh and unlock look up. -/
theorem lookup_of_not_registered (hreg : t.registry.find? token = none) :
    (do let id ← t.byToken token; return (id, ← t.node id) : Except LockError (Handle × Node)) =
      .error .noSuchLock := by
  unfold byToken
  rw [hreg]
  rfl

theorem lookup_of_carries (hc : Carries t h node lock) :
    (do let id ← t.byToken lock.token; return (id, ← t.node id) : Except LockError (Handle × Node)) =
      .ok (h, node) := by
  unfold byToken
  rw [hc.registered]
  show (do return (h, ← t.node h) : Except LockError (Handle × Node)) = _
  unfold LockTable.node
  rw [hc.resolved]
  rfl

/-! ## One lock of many -/

theorem Holds.erase_eq_filter {p : Lock → Bool} (ht : Holds t locks)
    (hp : ∀ k ∈ locks, p k = true ↔ k ≠ lock) : locks.erase lock = locks.filter p := by
  rw [ht.counts.nodup.erase_eq_filter]
  refine List.filter_congr fun k hk => ?_
  rw [Bool.eq_iff_iff, bne_iff_ne, hp k hk]

theorem Holds.token_eq_iff (ht : Holds t locks) (hl : lock ∈ locks) (ho : other ∈ locks) :
    other.token = lock.token ↔ other = lock := ⟨ht.eq_of_token_eq ho hl, fun he => he ▸ rfl⟩

theorem Holds.remove_mem (ht : Holds t locks) (hl : lock ∈ locks)
    (hf : t.index.find? lock.root = some h) : Holds (t.remove h) (locks.erase lock) :=
  (ht.perm (List.perm_cons_erase hl)).remove hf

/-- A change to those locks that are this one changes one lock of the list. -/
theorem perm_map_ite {p : Lock → Prop} [DecidablePred p] (hnodup : locks.Nodup) (hl : lock ∈ locks)
    (hp : ∀ k ∈ locks, p k ↔ k = lock) (f : Lock → Lock) :
    (f lock :: locks.erase lock).Perm (locks.map fun k => if p k then f k else k) := by
  have hperm := (List.perm_cons_erase hl).map fun k => if p k then f k else k
  have hrest : (locks.erase lock).map (fun k => if p k then f k else k) = locks.erase lock := by
    refine (List.map_congr_left fun k hk => ?_).trans (List.map_id _)
    obtain ⟨hne, hk⟩ := hnodup.mem_erase_iff.1 hk
    exact if_neg fun hpk => hne ((hp k hk).1 hpk)
  rw [List.map_cons, if_pos ((hp lock hl).2 rfl), hrest] at hperm
  exact hperm.symm

theorem Holds.update_mem {p : Lock → Prop} [DecidablePred p] {f : Lock → Lock} {g : Node → Node}
    {q : ExpiryQueue} (ht : Holds t locks) (hl : lock ∈ locks) (hp : ∀ k ∈ locks, p k ↔ k = lock)
    (hf : t.index.find? lock.root = some h) (hroot : (f lock).root = lock.root)
    (htoken : (f lock).token = lock.token)
    (hlock : ∀ node, node.lock? = some lock → (g node).lock? = some (f lock))
    (hrefs : ∀ node, (g node).refs = node.refs)
    (htimed : (f lock).expiry = none ↔ (f lock).details.duration = .infinite) (hq : q.WellFormed)
    (hdue : ∀ k, q.due? k = if k = h then (f lock).due? else t.queue.due? k) :
    Holds ⟨t.index.modify h g, t.registry, q⟩ (locks.map fun k => if p k then f k else k) :=
  ((ht.perm (List.perm_cons_erase hl)).update hf hroot htoken hlock hrefs htimed hq hdue).perm
    (perm_map_ite ht.counts.nodup hl hp f)

@[simp] theorem counter_remove (t : LockTable) (h : Handle) :
    (t.remove h).registry.counter = t.registry.counter := by
  unfold remove
  dsimp only
  split
  · rfl
  · split <;> rfl

@[simp] theorem queue_remove (t : LockTable) (h : Handle) :
    (t.remove h).queue = t.queue.erase h := by
  unfold remove
  dsimp only
  split <;> rfl

/-! ## Dropping what has expired -/

/-- The node at the front of the queue has expired by `now`. -/
def Due (t : LockTable) (now : Instant) (h : Handle) : Prop :=
  ∃ due, t.queue.peek? = some ⟨due, h⟩ ∧ due ≤ now

theorem sweepAtMost_of_not_due (hnone : ∀ h, ¬ t.Due now h) (n : Nat) :
    sweepAtMost n now t = t := by
  cases n with
  | zero => rfl
  | succ n =>
    unfold sweepAtMost
    cases hpeek : t.queue.peek? with
    | none => rfl
    | some entry => exact if_pos (not_le.1 fun hle => hnone entry.id ⟨entry.due, hpeek, hle⟩)

theorem Due.sweepAtMost_succ (hd : t.Due now h) (n : Nat) :
    sweepAtMost (n + 1) now t = sweepAtMost n now (t.remove h) := by
  obtain ⟨due, hpeek, hle⟩ := hd
  conv_lhs => unfold sweepAtMost
  rw [hpeek]
  exact if_neg (not_lt.2 hle)

/-- The node at the front of the queue carries an expired lock. -/
theorem Holds.exists_of_due (ht : Holds t locks) (hd : t.Due now h) :
    ∃ lock ∈ locks, t.index.find? lock.root = some h ∧ lock.expired now = true ∧
      (t.queue.erase h).size + 1 = t.queue.size := by
  obtain ⟨due, hpeek, hle⟩ := hd
  obtain ⟨hfront, _⟩ := ExpiryQueue.peek?_eq_some ht.queue hpeek
  obtain ⟨lock, hl, hf, hdue⟩ := (ht.queued _ _).1 hfront
  exact ⟨lock, hl, hf, Lock.expired_iff.2 ⟨due, hdue, hle⟩, ExpiryQueue.size_erase ht.queue hfront⟩

/-- If the lock at the front of the queue has not expired, none has. -/
theorem Holds.expired_of_not_due (ht : Holds t locks) (hnone : ∀ h, ¬ t.Due now h)
    (hl : lock ∈ locks) : lock.expired now = false := by
  rw [Bool.eq_false_iff]
  intro he
  obtain ⟨due, hdue, hle⟩ := Lock.expired_iff.1 he
  obtain ⟨h, _, hf, _⟩ := ht.counts.exists_node hl
  have hqueued := (ht.queued h due).2 ⟨lock, hl, hf, hdue⟩
  cases hpeek : t.queue.peek? with
  | none =>
    rw [ExpiryQueue.peek?_eq_none hpeek] at hqueued
    exact absurd hqueued (by simp)
  | some entry =>
    have hleast := (ExpiryQueue.peek?_eq_some ht.queue hpeek).2 h due hqueued
    exact hnone entry.id ⟨entry.due, hpeek, le_trans hleast hle⟩

theorem not_due_of_size_eq_zero (hsize : t.queue.size = 0) : ¬ t.Due now h := by
  rintro ⟨due, hpeek, _⟩
  rw [ExpiryQueue.peek?, Array.getElem?_eq_none (Nat.le_of_eq hsize)] at hpeek
  exact absurd hpeek (by simp)

/-- The front of the queue goes first. When it has not expired, nothing has. -/
theorem Holds.sweepAtMost {n : Nat} (ht : Holds t locks) (hn : t.queue.size ≤ n) :
    Holds (sweepAtMost n now t) (locks.filter fun lock => !lock.expired now) := by
  induction n generalizing t locks with
  | zero =>
    rw [List.filter_eq_self.2 fun lock hl => ?_]
    · exact ht
    · rw [ht.expired_of_not_due (fun h => not_due_of_size_eq_zero (Nat.le_zero.1 hn)) hl]
      rfl
  | succ n ih =>
    by_cases hdue : ∃ h, t.Due now h
    · obtain ⟨h, hdue⟩ := hdue
      obtain ⟨lock, hl, hf, hexpired, hsize⟩ := ht.exists_of_due hdue
      have hperm := (List.perm_cons_erase hl).filter fun lock => !lock.expired now
      rw [List.filter_cons_of_neg (by rw [hexpired]; simp)] at hperm
      rw [hdue.sweepAtMost_succ]
      refine (ih (ht.remove_mem hl hf) ?_).perm hperm.symm
      rw [queue_remove]
      omega
    · have hnone := not_exists.1 hdue
      rw [sweepAtMost_of_not_due hnone, List.filter_eq_self.2 fun lock hl => ?_]
      · exact ht
      · rw [ht.expired_of_not_due hnone hl]
        rfl

theorem counter_sweepAtMost (n : Nat) (now : Instant) (t : LockTable) :
    (LockTable.sweepAtMost n now t).registry.counter = t.registry.counter := by
  induction n generalizing t with
  | zero => rfl
  | succ n ih =>
    unfold LockTable.sweepAtMost
    split
    · rfl
    · split_ifs
      · rfl
      · rw [ih, counter_remove]

theorem Represents.sweep (hr : Represents t l) (now : Instant) :
    Represents (t.sweep now) (l.sweep now) where
  holds := hr.holds.sweepAtMost (Nat.le_refl _)
  counter := (counter_sweepAtMost _ _ _).trans hr.counter

/-! ## Where tokens lead -/

/-- Tokens in use afterwards were in use before, and lead where they led. -/
def NoNewTokens (t t' : LockTable) : Prop :=
  ∀ token h, t'.registry.find? token = some h → t.registry.find? token = some h

theorem NoNewTokens.of_registry_eq {t' : LockTable} (h : t'.registry = t.registry) :
    NoNewTokens t t' := fun _ _ hreg => h ▸ hreg

theorem NoNewTokens.trans {t' t'' : LockTable} (h : NoNewTokens t t') (h' : NoNewTokens t' t'') :
    NoNewTokens t t'' := fun token k hreg => h token k (h' token k hreg)

theorem noNewTokens_remove (t : LockTable) (h : Handle) : NoNewTokens t (t.remove h) := by
  intro token k hreg
  unfold remove at hreg
  dsimp only at hreg
  split at hreg
  · exact hreg
  · dsimp only at hreg
    split at hreg
    · rw [Registry.find?_erase] at hreg
      split_ifs at hreg
      exact hreg
    · exact hreg

theorem noNewTokens_sweep (t : LockTable) (now : Instant) : NoNewTokens t (t.sweep now) := by
  unfold sweep
  generalize t.queue.size = n
  induction n generalizing t with
  | zero => exact fun _ _ hreg => hreg
  | succ n ih =>
    unfold sweepAtMost
    split
    · exact fun _ _ hreg => hreg
    · split_ifs
      · exact fun _ _ hreg => hreg
      · exact (noNewTokens_remove t _).trans (ih _)

/-! ## Creating a lock -/

/-- A name without a lock at its node has nothing queued, and neither has a fresh node. -/
theorem Holds.due?_retained (ht : Holds t locks) {root : String} (hroot : Path.IsClean root)
    (hfree : ∀ lock ∈ locks, lock.root ≠ root) :
    t.queue.due? (t.index.retainAll root).1 = none := by
  obtain ⟨hretained, hf⟩ := NodeIndex.retainAll_spec ht.counts.consistent hroot
  rw [Option.eq_none_iff_forall_ne_some]
  intro due hdue
  obtain ⟨lock, hl, hk, _⟩ := (ht.queued _ _).1 hdue
  exact hfree lock hl (hretained.consistent.find?_inj (hretained.keeps _ _ hk) hf)

/-- A new lock is entered at the root of its name and queued if it expires. -/
theorem Holds.create (ht : Holds t locks) (lock : Lock) (counter : UInt64)
    (hclean : Path.IsClean lock.root)
    (htimed : lock.expiry = none ↔ lock.details.duration = .infinite) (hheld : lock.held = false)
    (hfree : ∀ other ∈ locks, other.root ≠ lock.root)
    (hfresh : ∀ other ∈ locks, other.token ≠ lock.token) :
    Holds (schedule ⟨t.index.insertLock lock, Registry.register ⟨counter, t.registry.byToken⟩
      lock.token (t.index.retainAll lock.root).1, t.queue⟩
        (t.index.retainAll lock.root).1 lock.expiry) (lock :: locks) := by
  have hdue : lock.due? = lock.expiry := by
    unfold Lock.due?
    rw [hheld]
    rfl
  rw [schedule_eq]
  obtain ⟨hq, hq'⟩ := due?_schedule (t := ⟨t.index.insertLock lock, Registry.register
    ⟨counter, t.registry.byToken⟩ lock.token (t.index.retainAll lock.root).1, t.queue⟩) lock.expiry
    ht.queue (ht.due?_retained hclean hfree)
  exact ht.insert counter hclean htimed hfree hfresh hq fun k => by rw [hq', hdue]

theorem create_of_not_admits {details : Details}
    (h : ¬ (t.sweep now).index.admits (Path.clean details.root) details.zeroDepth = true) :
    t.create now details = (.error .locked, t.sweep now) := if_neg h

theorem create_of_admits {s : LockTable} {details : Details} (hs : t.sweep now = s)
    (h : s.index.admits (Path.clean details.root) details.zeroDepth = true)
    (hn : (s.index.retainAll (Path.clean details.root)).2.node?
      (s.index.retainAll (Path.clean details.root)).1 = some node)
    (hlock : lock = Lock.fresh (Registry.tokenText (s.registry.counter + 1)) now details) :
    t.create now details = (.ok lock.token, schedule ⟨s.index.insertLock lock,
      Registry.register ⟨s.registry.counter + 1, s.registry.byToken⟩ lock.token
        (s.index.retainAll lock.root).1, s.queue⟩ (s.index.retainAll lock.root).1 lock.expiry) := by
  subst hs hlock
  unfold create
  refine (if_pos h).trans ?_
  unfold LockTable.node
  dsimp only
  rw [hn]
  rfl

/-- The answers are the same in any case, and the locks too if the new token is not in use. -/
theorem Represents.create (hr : Represents t l) (now : Instant) (details : Details) :
    (t.create now details).1 = (l.create now details).1 ∧
      ((∀ token, (l.create now details).1 = .ok token → ∀ lock ∈ l.locks, lock.token ≠ token) →
        Represents (t.create now details).2 (l.create now details).2 ∧
        ∀ token h, (t.create now details).2.registry.find? token = some h →
          (l.create now details).1 = .ok token ∨ t.registry.find? token = some h) := by
  have hsweep := hr.sweep now
  have htokens := noNewTokens_sweep t now
  have hroot := Path.isClean_clean details.root
  have hadmits :
      (t.sweep now).index.admits (Path.clean details.root) details.zeroDepth = true ↔ _ :=
    hsweep.holds.counts.admits_iff hsweep.holds.clean hroot
  by_cases h : (t.sweep now).index.admits (Path.clean details.root) details.zeroDepth = true
  · have hnone := hadmits.1 h
    have hfree : ∀ lock ∈ (l.sweep now).locks, lock.root ≠ Path.clean details.root :=
      fun lock hl he => hnone lock hl (.inl he)
    obtain ⟨hretained, hf⟩ := NodeIndex.retainAll_spec hsweep.holds.counts.consistent hroot
    obtain ⟨node, hn, _⟩ := hretained.consistent.named _ _ hf
    have hcounter : (t.sweep now).registry.counter = l.counter := hsweep.counter
    have hl := Ledger.create_of_no_conflict fun ⟨lock, hl, hc⟩ => hnone lock hl hc
    rw [create_of_admits rfl h hn rfl, hcounter, schedule_eq]
    rw [hl]
    refine ⟨rfl, fun hfresh => ?_⟩
    have hcreate := hsweep.holds.create (Lock.fresh _ now details) (l.counter + 1) hroot
      Timeout.expiry_eq_none_iff rfl hfree
      fun lock hl => hfresh _ rfl lock (List.mem_of_mem_filter hl)
    rw [schedule_eq] at hcreate
    refine ⟨⟨hcreate, rfl⟩, fun token k hreg => ?_⟩
    dsimp only at hreg
    rw [Registry.find?_register] at hreg
    split_ifs at hreg with htoken
    · exact .inl (congrArg Except.ok htoken.symm)
    · exact .inr (htokens token k hreg)
  · have hconflict : ∃ lock ∈ (l.sweep now).locks,
        lock.Conflicts (Path.clean details.root) details.zeroDepth := by
      by_contra hnone
      exact h (hadmits.2 fun lock hl hc => hnone ⟨lock, hl, hc⟩)
    rw [create_of_not_admits h, Ledger.create_of_conflict hconflict]
    exact ⟨rfl, fun _ => ⟨hsweep, fun token k hreg => .inr (htokens token k hreg)⟩⟩

/-! ## Refreshing, unlocking and deleting -/

theorem Represents.unlock (hr : Represents t l) (now : Instant) (token : String) :
    (t.unlock now token).1 = (l.unlock now token).1 ∧
      Represents (t.unlock now token).2 (l.unlock now token).2 := by
  have hsweep := hr.sweep now
  unfold LockTable.unlock Ledger.unlock
  generalize t.sweep now = s at hsweep ⊢
  generalize l.sweep now = m at hsweep ⊢
  dsimp only
  rcases hsweep.find?_cases token with ⟨hfind, hreg⟩ | ⟨lock, hl, rfl, hfind, h, node, hc⟩
  · rw [hfind, lookup_of_not_registered hreg]
    exact ⟨rfl, hsweep⟩
  · rw [hfind, lookup_of_carries hc]
    dsimp only
    rw [hc.held_eq]
    split_ifs
    · exact ⟨rfl, hsweep⟩
    · refine ⟨rfl, ?_, (counter_remove _ _).trans hsweep.counter⟩
      have herase := hsweep.holds.erase_eq_filter (p := fun k => k.token ≠ lock.token)
        fun k hk => by rw [decide_eq_true_eq, Ne, hsweep.holds.token_eq_iff hl hk]
      exact herase ▸ hsweep.holds.remove_mem hl hc.found

/-- The node that is changed keeps its place, and is queued anew. -/
theorem Represents.refresh (hr : Represents t l) (now : Instant) (token : String)
    (duration : Timeout) :
    (t.refresh now token duration).1 = (l.refresh now token duration).1 ∧
      Represents (t.refresh now token duration).2 (l.refresh now token duration).2 := by
  have hsweep := hr.sweep now
  unfold LockTable.refresh Ledger.refresh
  generalize t.sweep now = s at hsweep ⊢
  generalize l.sweep now = m at hsweep ⊢
  dsimp only
  rcases hsweep.find?_cases token with ⟨hfind, hreg⟩ | ⟨lock, hl, rfl, hfind, h, node, hc⟩
  · rw [hfind, lookup_of_not_registered hreg]
    exact ⟨rfl, hsweep⟩
  · rw [hfind, lookup_of_carries hc]
    dsimp only
    rw [hc.held_eq, hc.details_eq]
    cases hheld : lock.held with
    | true => exact ⟨rfl, hsweep⟩
    | false =>
      obtain ⟨hq, hdue⟩ := due?_reschedule (t := s.modify h fun node =>
        { node with details := { lock.details with duration }, expiry := duration.expiry now })
        (h := h) (duration.expiry now) hsweep.holds.queue
      rw [schedule_eq]
      refine ⟨rfl, hsweep.holds.update_mem hl (fun k hk => hsweep.holds.token_eq_iff hl hk) hc.found
        rfl rfl (fun n hn => ?_) (fun n => rfl) Timeout.expiry_eq_none_iff hq ?_, hsweep.counter⟩
      · obtain ⟨htoken, _, _, hheld⟩ := Node.lock?_eq_some.1 hn
        exact Node.lock?_eq_some.2 ⟨htoken, rfl, rfl, hheld⟩
      · unfold Lock.due?
        dsimp only
        rw [hheld]
        exact hdue

theorem Represents.delete (hr : Represents t l) (now : Instant) (name : String) :
    Represents (t.delete now name) (l.delete now name) := by
  have hsweep := hr.sweep now
  unfold LockTable.delete Ledger.delete
  generalize t.sweep now = s at hsweep ⊢
  generalize l.sweep now = m at hsweep ⊢
  dsimp only
  have hother : (∀ lock ∈ m.locks, lock.root ≠ Path.clean name) →
      (m.locks.filter fun lock => lock.root ≠ Path.clean name) = m.locks := by
    intro hnone
    rw [List.filter_eq_self]
    exact fun lock hl => decide_eq_true (hnone lock hl)
  cases hf : s.index.find? (Path.clean name) with
  | none =>
    rw [hother]
    · exact hsweep
    · intro lock hl hroot
      obtain ⟨h, _, hf', _⟩ := hsweep.holds.counts.exists_node hl
      rw [hroot, hf] at hf'
      exact absurd hf' (by simp)
  | some h =>
    obtain ⟨node, hn, hroot⟩ := hsweep.holds.counts.consistent.named _ _ hf
    dsimp only
    rw [hn]
    dsimp only
    cases htoken : node.token with
    | none =>
      rw [hother]
      · exact hsweep
      · intro lock hl hroot'
        have hlock := hsweep.holds.counts.lock?_eq hl (hroot' ▸ hf) hn
        rw [Node.lock?_eq_none.2 htoken] at hlock
        exact absurd hlock (by simp)
    | some token =>
      obtain ⟨lock, hl, _, hc⟩ := hsweep.holds.exists_of_token hn htoken
      have hlroot : lock.root = Path.clean name := by rw [← hroot, hc.details_eq]; rfl
      refine ⟨?_, (counter_remove _ _).trans hsweep.counter⟩
      have herase := hsweep.holds.erase_eq_filter (p := fun k => k.root ≠ Path.clean name)
        fun k hk => by
          rw [decide_eq_true_eq, ← hlroot]
          exact not_congr ⟨hsweep.holds.counts.eq_of_root_eq hk hl, fun he => he ▸ rfl⟩
      exact herase ▸ hsweep.holds.remove_mem hl hc.found

/-! ## Where tokens lead afterwards -/

theorem noNewTokens_unlock (t : LockTable) (now : Instant) (token : String) :
    NoNewTokens t (t.unlock now token).2 := by
  have hsweep := noNewTokens_sweep t now
  unfold unlock
  dsimp only
  split
  · exact hsweep
  · split_ifs
    · exact hsweep
    · exact hsweep.trans (noNewTokens_remove _ _)

theorem noNewTokens_refresh (t : LockTable) (now : Instant) (token : String) (duration : Timeout) :
    NoNewTokens t (t.refresh now token duration).2 := by
  have hsweep := noNewTokens_sweep t now
  unfold refresh
  dsimp only
  split
  · exact hsweep
  · split_ifs
    · exact hsweep
    · refine hsweep.trans (.of_registry_eq ?_)
      rw [schedule_eq]
      rfl

theorem noNewTokens_delete (t : LockTable) (now : Instant) (name : String) :
    NoNewTokens t (t.delete now name) := by
  have hsweep := noNewTokens_sweep t now
  unfold delete
  dsimp only
  split
  · exact hsweep
  · split
    · split_ifs
      · exact hsweep.trans (noNewTokens_remove _ _)
      · exact hsweep
    · exact hsweep

theorem noNewTokens_lockAt (t : LockTable) (now : Instant) (name : String) :
    NoNewTokens t (t.lockAt now name).2 := by
  have hsweep := noNewTokens_sweep t now
  unfold lockAt
  dsimp only
  split <;> exact hsweep

end LockTable

end PathLock
