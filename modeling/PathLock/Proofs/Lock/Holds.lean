import PathLock.Proofs.Lock.Counts
import PathLock.Proofs.Queue.Contents

/-!
# The locks that a table holds

`Holds` says that a table is what it must be when exactly these locks are there: the index counts
them, their tokens lead to their nodes, and the queue has those that may expire. It is kept by the
three changes that every operation is made of: a lock is taken out (`Holds.remove`), put in
(`Holds.insert`) or changed where it is (`Holds.update`).
-/

namespace PathLock

namespace Lock

/-- When the lock is to be dropped, if nothing is done about it. -/
def due? (lock : Lock) : Option Instant := if lock.held then none else lock.expiry

theorem expired_iff {lock : Lock} {now : Instant} :
    lock.expired now = true ↔ ∃ due, lock.due? = some due ∧ due ≤ now := by
  unfold expired due?
  cases lock.held with
  | true => simp
  | false => cases lock.expiry <;> simp

end Lock

namespace Registry

variable {r : Registry} {token other : String} {id : Handle}

theorem find?_register :
    (r.register token id).find? other = if other = token then some id else r.find? other := by
  show (r.byToken.insert token id)[other]? = _
  rw [Std.TreeMap.getElem?_insert]
  simp only [Std.compare_eq_iff_eq, eq_comm (a := token)]
  rfl

theorem find?_erase :
    (r.erase token).find? other = if other = token then none else r.find? other := by
  show (r.byToken.erase token)[other]? = _
  rw [Std.TreeMap.getElem?_erase]
  simp only [Std.compare_eq_iff_eq, eq_comm (a := token)]
  rfl

theorem size_register (h : r.find? token = none) : (r.register token id).size = r.size + 1 := by
  have hnot : r.byToken.contains token = false := by
    rw [Std.TreeMap.contains_eq_isSome_getElem?]
    exact Option.isSome_eq_false_iff.2 (Option.isNone_iff_eq_none.2 h)
  show (r.byToken.insert token id).size = _
  rw [Std.TreeMap.size_insert, hnot]
  rfl

theorem size_erase (h : r.find? token = some id) : (r.erase token).size + 1 = r.size := by
  have hin : r.byToken.contains token = true := by
    rw [Std.TreeMap.contains_eq_isSome_getElem?]
    exact Option.isSome_iff_exists.2 ⟨id, h⟩
  have hpos : r.byToken.size ≠ 0 := by
    intro h0
    have hempty : r.byToken.isEmpty = true := by
      rw [Std.TreeMap.isEmpty_eq_size_eq_zero, h0]
      rfl
    rw [Std.TreeMap.contains_of_isEmpty hempty] at hin
    exact Bool.false_ne_true hin
  show (r.byToken.erase token).size + 1 = r.byToken.size
  rw [Std.TreeMap.size_erase, if_pos hin]
  omega

end Registry

namespace LockTable

variable {t : LockTable} {locks : List Lock} {lock other : Lock} {h k : Handle} {node : Node}

/-- The table as it must be when exactly these locks are there. -/
structure Holds (t : LockTable) (locks : List Lock) : Prop where
  counts : t.index.Counts locks
  queue : t.queue.WellFormed
  clean : ∀ lock ∈ locks, Path.IsClean lock.root
  timed : ∀ lock ∈ locks, lock.expiry = none ↔ lock.details.duration = .infinite
  tokens : ∀ token h, t.registry.find? token = some h ↔
    ∃ lock ∈ locks, lock.token = token ∧ t.index.find? lock.root = some h
  queued : ∀ h due, t.queue.due? h = some due ↔
    ∃ lock ∈ locks, t.index.find? lock.root = some h ∧ lock.due? = some due
  size : t.registry.size = locks.length

theorem holds_empty (seed : UInt64) : Holds (empty seed) [] where
  counts := NodeIndex.counts_empty
  queue := ExpiryQueue.wellFormed_empty
  clean _ h := absurd h List.not_mem_nil
  timed _ h := absurd h List.not_mem_nil
  tokens _ _ := by simp [empty, Registry.find?]
  queued _ _ := by simp [empty, ExpiryQueue.due?]
  size := by simp [empty, Registry.size]

theorem Holds.perm {locks' : List Lock} (ht : Holds t locks) (hp : locks.Perm locks') :
    Holds t locks' where
  counts := ht.counts.perm hp
  queue := ht.queue
  clean lock hl := ht.clean lock (hp.mem_iff.2 hl)
  timed lock hl := ht.timed lock (hp.mem_iff.2 hl)
  tokens token h := by simp only [ht.tokens, hp.mem_iff]
  queued h due := by simp only [ht.queued, hp.mem_iff]
  size := ht.size.trans hp.length_eq

/-- The token of a lock leads to the node that its root leads to. -/
theorem Holds.find?_token (ht : Holds t locks) (hl : lock ∈ locks) :
    t.registry.find? lock.token = t.index.find? lock.root := by
  obtain ⟨h, _, hf, _⟩ := ht.counts.exists_node hl
  rw [hf, ht.tokens]
  exact ⟨lock, hl, rfl, hf⟩

theorem Holds.eq_of_find?_eq (ht : Holds t locks) (hl : lock ∈ locks) (ho : other ∈ locks)
    (h : t.index.find? lock.root = t.index.find? other.root) : lock = other := by
  obtain ⟨k, _, hf, _⟩ := ht.counts.exists_node ho
  exact ht.counts.eq_of_root_eq hl ho (ht.counts.consistent.find?_inj (h.trans hf) hf)

/-- Two locks with one token are one. -/
theorem Holds.eq_of_token_eq (ht : Holds t locks) (hl : lock ∈ locks) (ho : other ∈ locks)
    (htoken : lock.token = other.token) : lock = other := by
  refine ht.eq_of_find?_eq hl ho ?_
  rw [← ht.find?_token hl, ← ht.find?_token ho, htoken]

theorem Holds.token_ne_of_mem (ht : Holds t (lock :: locks)) (ho : other ∈ locks) :
    other.token ≠ lock.token := by
  intro he
  have := ht.eq_of_token_eq (List.mem_cons_of_mem _ ho) List.mem_cons_self he
  exact (List.nodup_cons.1 ht.counts.nodup).1 (this ▸ ho)

theorem Holds.find?_ne_of_mem (ht : Holds t (lock :: locks)) (ho : other ∈ locks) :
    t.index.find? other.root ≠ t.index.find? lock.root := by
  intro he
  have := ht.eq_of_find?_eq (List.mem_cons_of_mem _ ho) List.mem_cons_self he
  exact (List.nodup_cons.1 ht.counts.nodup).1 (this ▸ ho)

theorem Holds.not_registered (ht : Holds t locks) {token : String}
    (hnone : ∀ lock ∈ locks, lock.token ≠ token) :
    t.registry.find? token = none := by
  rw [Option.eq_none_iff_forall_ne_some]
  intro h hreg
  obtain ⟨lock, hl, htoken, _⟩ := (ht.tokens token h).1 hreg
  exact hnone lock hl htoken

/-- Nothing changes about locks that are found where they were. -/
theorem exists_found_congr {x y : NodeIndex} {p : Lock → Option Handle → Prop}
    (hfind : ∀ other ∈ locks, y.find? other.root = x.find? other.root) :
    (∃ other ∈ locks, p other (x.find? other.root)) ↔
      ∃ other ∈ locks, p other (y.find? other.root) := by
  constructor
  · rintro ⟨other, ho, hp⟩
    exact ⟨other, ho, (hfind other ho).symm ▸ hp⟩
  · rintro ⟨other, ho, hp⟩
    exact ⟨other, ho, hfind other ho ▸ hp⟩

/-- A queue that has changed for one lock has the locks that may expire if it had the others. -/
theorem queued_cons {q q' : ExpiryQueue} {x : NodeIndex}
    (hdue : ∀ k, q'.due? k = if k = h then lock.due? else q.due? k)
    (hf : x.find? lock.root = some h) (hne : ∀ other ∈ locks, x.find? other.root ≠ some h)
    (hothers : ∀ k due, k ≠ h → (q.due? k = some due ↔
      ∃ other ∈ locks, x.find? other.root = some k ∧ other.due? = some due))
    (k : Handle) (due : Instant) : q'.due? k = some due ↔
      ∃ other ∈ lock :: locks, x.find? other.root = some k ∧ other.due? = some due := by
  rw [hdue]
  simp only [List.exists_mem_cons_iff, hf, Option.some.injEq]
  split_ifs with hkh
  · subst hkh
    constructor
    · exact fun hd => .inl ⟨rfl, hd⟩
    · rintro (⟨_, hd⟩ | ⟨other, ho, hk, _⟩)
      · exact hd
      · exact absurd hk (hne other ho)
  · rw [hothers k due hkh, or_iff_right fun he => hkh he.1.symm]

/-! ## Taking a lock out -/

theorem remove_eq (hn : t.index.node? h = some node) (hlock : node.lock? = some lock) :
    t.remove h =
      ⟨t.index.removeLock h lock.root, t.registry.erase lock.token, t.queue.erase h⟩ := by
  obtain ⟨htoken, hdetails, _, _⟩ := Node.lock?_eq_some.1 hlock
  unfold remove NodeIndex.removeLock Lock.root
  simp only [hn, htoken, hdetails]

theorem Holds.remove (ht : Holds t (lock :: locks)) (hf : t.index.find? lock.root = some h) :
    Holds (t.remove h) locks := by
  obtain ⟨_, node, hf', hn, hlock⟩ := ht.counts.exists_node List.mem_cons_self
  rw [hf, Option.some.injEq] at hf'
  subst hf'
  have hclean := ht.clean lock List.mem_cons_self
  have hfind : ∀ other ∈ locks,
      (t.index.removeLock h lock.root).find? other.root = t.index.find? other.root :=
    fun other ho => ht.counts.find?_remove hclean hf ho
  have htoken : t.registry.find? lock.token = some h := (ht.find?_token List.mem_cons_self).trans hf
  have hsize := Registry.size_erase htoken
  rw [remove_eq hn hlock]
  refine ⟨ht.counts.remove hclean hf, ht.queue.erase h,
    fun other ho => ht.clean other (List.mem_cons_of_mem _ ho),
    fun other ho => ht.timed other (List.mem_cons_of_mem _ ho),
    fun token k => ?_, fun k due => ?_, ?_⟩
  · rw [Registry.find?_erase]
    split_ifs with htok
    · refine ⟨fun he => absurd he (by simp), ?_⟩
      rintro ⟨other, ho, hother, _⟩
      exact absurd (hother.trans htok) (ht.token_ne_of_mem ho)
    · rw [ht.tokens, List.exists_mem_cons_iff, or_iff_right fun he => htok he.1.symm]
      exact exists_found_congr (p := fun other found => other.token = token ∧ found = some k) hfind
  · rw [ExpiryQueue.due?_erase ht.queue]
    split_ifs with hkh
    · refine ⟨fun he => absurd he (by simp), ?_⟩
      rintro ⟨other, ho, hk, _⟩
      rw [hfind other ho, hkh, ← hf] at hk
      exact absurd hk (ht.find?_ne_of_mem ho)
    · rw [ht.queued, List.exists_mem_cons_iff, hf, Option.some.injEq,
        or_iff_right fun he => hkh he.1.symm]
      exact exists_found_congr (p := fun other found => found = some k ∧ other.due? = some due) hfind
  · rw [ht.size, List.length_cons] at hsize
    exact Nat.succ.inj hsize

/-! ## Changing a lock where it is -/

theorem Holds.update {lock' : Lock} {f : Node → Node} {q : ExpiryQueue}
    (ht : Holds t (lock :: locks)) (hf : t.index.find? lock.root = some h)
    (hroot : lock'.root = lock.root) (htoken : lock'.token = lock.token)
    (hlock : ∀ node, node.lock? = some lock → (f node).lock? = some lock')
    (hrefs : ∀ node, (f node).refs = node.refs)
    (htimed : lock'.expiry = none ↔ lock'.details.duration = .infinite) (hq : q.WellFormed)
    (hdue : ∀ k, q.due? k = if k = h then lock'.due? else t.queue.due? k) :
    Holds ⟨t.index.modify h f, t.registry, q⟩ (lock' :: locks) := by
  refine ⟨ht.counts.update hf hroot hlock hrefs, hq, fun other ho => ?_, fun other ho => ?_,
    fun token k => ?_, queued_cons hdue (hroot ▸ hf) (fun other ho => ?_) (fun k due hkh => ?_),
    ht.size⟩
  · rcases List.mem_cons.1 ho with rfl | ho
    · rw [hroot]
      exact ht.clean lock List.mem_cons_self
    · exact ht.clean other (List.mem_cons_of_mem _ ho)
  · rcases List.mem_cons.1 ho with rfl | ho
    · exact htimed
    · exact ht.timed other (List.mem_cons_of_mem _ ho)
  · rw [ht.tokens]
    simp only [List.exists_mem_cons_iff, NodeIndex.find?_modify, hroot, htoken]
  · exact hf ▸ ht.find?_ne_of_mem ho
  · rw [ht.queued]
    simp only [List.exists_mem_cons_iff, NodeIndex.find?_modify, hf, Option.some.injEq,
      Ne.symm hkh, false_and, false_or]

/-! ## Putting a lock in -/

theorem schedule_eq (t : LockTable) (h : Handle) (due : Option Instant) :
    t.schedule h due = ⟨t.index, t.registry, (t.schedule h due).queue⟩ := by
  cases due <;> rfl

theorem due?_schedule (due : Option Instant) (hq : t.queue.WellFormed)
    (hnone : t.queue.due? h = none) :
    (t.schedule h due).queue.WellFormed ∧
      ∀ k, (t.schedule h due).queue.due? k = if k = h then due else t.queue.due? k := by
  cases due with
  | none =>
    refine ⟨hq, fun k => ?_⟩
    split_ifs with hk
    · rw [hk]
      exact hnone
    · rfl
  | some due => exact ⟨hq.push h due, fun k => ExpiryQueue.due?_push hq⟩

theorem due?_reschedule (due : Option Instant) (hq : t.queue.WellFormed) :
    (schedule { t with queue := t.queue.erase h } h due).queue.WellFormed ∧ ∀ k,
      (schedule { t with queue := t.queue.erase h } h due).queue.due? k =
        if k = h then due else t.queue.due? k := by
  have herase : ∀ k, (t.queue.erase h).due? k = if k = h then none else t.queue.due? k :=
    fun k => ExpiryQueue.due?_erase hq
  obtain ⟨hq', hdue⟩ := due?_schedule (t := { t with queue := t.queue.erase h }) due (hq.erase h)
    ((herase h).trans (if_pos rfl))
  refine ⟨hq', fun k => ?_⟩
  rw [hdue]
  split_ifs with hk
  · rfl
  · exact (herase k).trans (if_neg hk)

theorem Holds.insert {q : ExpiryQueue} (ht : Holds t locks) (counter : UInt64)
    (hclean : Path.IsClean lock.root)
    (htimed : lock.expiry = none ↔ lock.details.duration = .infinite)
    (hfree : ∀ other ∈ locks, other.root ≠ lock.root)
    (hfresh : ∀ other ∈ locks, other.token ≠ lock.token)
    (hq : q.WellFormed)
    (hdue : ∀ k, q.due? k =
      if k = (t.index.retainAll lock.root).1 then lock.due? else t.queue.due? k) :
    Holds ⟨t.index.insertLock lock, Registry.register ⟨counter, t.registry.byToken⟩ lock.token
      (t.index.retainAll lock.root).1, q⟩ (lock :: locks) := by
  obtain ⟨hcounts, hf, hkeeps⟩ := ht.counts.insert hclean hfree
  have hfind : ∀ other ∈ locks,
      (t.index.insertLock lock).find? other.root = t.index.find? other.root := by
    intro other ho
    obtain ⟨k, _, hk, _⟩ := ht.counts.exists_node ho
    rw [hk]
    exact hkeeps _ k hk
  have hregistry : ∀ token,
      Registry.find? ⟨counter, t.registry.byToken⟩ token = t.registry.find? token :=
    fun _ => rfl
  generalize (t.index.retainAll lock.root).1 = h at hf hdue
  have hne : ∀ other ∈ locks, t.index.find? other.root ≠ some h := by
    intro other ho he
    exact hfree other ho (hcounts.consistent.find?_inj ((hfind other ho).trans he) hf)
  refine ⟨hcounts, hq, fun other ho => ?_, fun other ho => ?_, fun token k => ?_,
    queued_cons hdue hf (fun other ho => ?_) (fun k due _ => ?_), ?_⟩
  · rcases List.mem_cons.1 ho with rfl | ho
    · exact hclean
    · exact ht.clean other ho
  · rcases List.mem_cons.1 ho with rfl | ho
    · exact htimed
    · exact ht.timed other ho
  · rw [Registry.find?_register, hregistry]
    simp only [List.exists_mem_cons_iff, hf, Option.some.injEq]
    split_ifs with htok
    · rw [Option.some.injEq]
      constructor
      · exact fun hk => .inl ⟨htok.symm, hk⟩
      · rintro (⟨_, hk⟩ | ⟨other, ho, hother, _⟩)
        · exact hk
        · exact absurd (hother.trans htok) (hfresh other ho)
    · rw [ht.tokens, or_iff_right fun he => htok he.1.symm]
      exact exists_found_congr (p := fun other found => other.token = token ∧ found = some k) hfind
  · rw [hfind other ho]
    exact hne other ho
  · rw [ht.queued]
    exact exists_found_congr (p := fun other found => found = some k ∧ other.due? = some due) hfind
  · rw [Registry.size_register ((hregistry _).trans (ht.not_registered hfresh)), List.length_cons,
      ← ht.size]
    rfl

end LockTable

end PathLock
