import PathLock.Proofs.Lock.Refinement

/-!
# The representation of the locks

`LockTable.WellFormed` says what the parts of a table have to do with one another, in terms of the
parts alone: names and nodes, slots and the free list, tokens, expiries and the queue. It holds
exactly when the table holds the locks that its nodes carry (`wellFormed_iff`).
-/

namespace PathLock

namespace LockTable

/-- The locks that the nodes carry. -/
def locks (t : LockTable) : List Lock := t.index.nodes.values.filterMap Node.lock?

variable {t : LockTable} {ls : List Lock} {lock : Lock} {h k : Handle} {node : Node}

theorem mem_locks : lock ∈ t.locks ↔
    ∃ h node, t.index.node? h = some node ∧ node.lock? = some lock := by
  unfold LockTable.locks
  rw [List.mem_filterMap]
  simp only [Slots.mem_values]
  constructor
  · rintro ⟨node, ⟨h, hn⟩, hlock⟩
    exact ⟨h, node, hn, hlock⟩
  · rintro ⟨h, node, hn, hlock⟩
    exact ⟨node, ⟨h, hn⟩, hlock⟩

theorem nodup_locks (hx : t.index.Consistent) : t.locks.Nodup := by
  refine Slots.nodup_filterMap_values fun h k node node' lock hn hn' hlock hlock' => ?_
  have hroot : node.details.root = node'.details.root := by
    rw [(Node.lock?_eq_some.1 hlock).2.1, (Node.lock?_eq_some.1 hlock').2.1]
  have hf := hx.indexed h node hn
  rw [hroot, hx.indexed k node' hn', Option.some.injEq] at hf
  exact hf.symm

theorem Holds.locks_perm (ht : Holds t ls) : t.locks.Perm ls := by
  rw [List.perm_ext_iff_of_nodup (nodup_locks ht.counts.consistent) ht.counts.nodup]
  intro lock
  rw [mem_locks]
  constructor
  · rintro ⟨h, node, hn, hlock⟩
    exact (ht.counts.mem_of_lock? hn hlock).1
  · intro hl
    obtain ⟨h, node, _, hn, hlock⟩ := ht.counts.exists_node hl
    exact ⟨h, node, hn, hlock⟩

/-- The parts of a table agree with one another. -/
structure WellFormed (t : LockTable) : Prop where
  /-- The names in the index are those with a lock on them or below them. -/
  indexed : ∀ name, (∃ h, t.index.find? name = some h) ↔
    Path.IsClean name ∧ ∃ lock ∈ t.locks, Path.Within name lock.root
  counted : ∀ name node, t.index.nodeAt? name = some node →
    node.refs = t.locks.countP fun lock => Path.Within name lock.root
  resolved : ∀ name h, t.index.find? name = some h →
    ∃ node, t.index.node? h = some node ∧ node.details.root = name
  apart : ∀ name other h k, t.index.find? name = some h → t.index.find? other = some k →
    h.slot = k.slot → name = other
  /-- The free list has the slots that no name leads to, each once, and these are empty. -/
  free : ∀ i, i ∈ t.index.nodes.free ↔
    i < t.index.nodes.slots.size ∧ ∀ name h, t.index.find? name = some h → h.slot ≠ i
  free_nodup : t.index.nodes.free.Nodup
  vacant : ∀ i ∈ t.index.nodes.free, ∀ slot,
    t.index.nodes.slots[i]? = some slot → slot.content = none
  registered : ∀ token h, t.registry.find? token = some h ↔
    ∃ node, t.index.node? h = some node ∧ node.token = some token
  tokens_apart : ∀ token other h, t.registry.find? token = some h →
    t.registry.find? other = some h → token = other
  expires : ∀ h node, t.index.node? h = some node →
    (node.expiry.isSome ↔ node.token.isSome ∧ node.details.duration ≠ .infinite)
  queue : t.queue.WellFormed
  queued : ∀ h due, ⟨due, h⟩ ∈ t.queue.heap.toList ↔
    ∃ node, t.index.node? h = some node ∧ node.expiry = some due ∧ node.held = false
  anchors : ∀ h node, t.index.node? h = some node → node.token = none →
    node.held = false ∧ ∀ due, ⟨due, h⟩ ∉ t.queue.heap.toList

/-! ## From the locks to the parts -/

theorem Holds.exists_find?_iff (ht : Holds t ls) {name : String} :
    (∃ h, t.index.find? name = some h) ↔ ∃ lock ∈ ls, name ∈ Path.ancestors lock.root := by
  rw [← ht.counts.exists_nodeAt?_iff]
  constructor
  · rintro ⟨h, hf⟩
    obtain ⟨node, hn, _⟩ := ht.counts.consistent.named name h hf
    exact ⟨node, NodeIndex.nodeAt?_eq_some.2 ⟨h, hf, hn⟩⟩
  · rintro ⟨node, hn⟩
    obtain ⟨h, hf, _⟩ := NodeIndex.nodeAt?_eq_some.1 hn
    exact ⟨h, hf⟩

theorem Holds.mem_ancestors (ht : Holds t ls) {name : String} (hl : lock ∈ ls) :
    name ∈ Path.ancestors lock.root ↔ Path.IsClean name ∧ Path.Within name lock.root :=
  Path.mem_ancestors (ht.clean lock hl)

theorem Holds.isClean_of_find? (ht : Holds t ls) {name : String}
    (hf : t.index.find? name = some h) : Path.IsClean name := by
  obtain ⟨lock, hl, hmem⟩ := ht.exists_find?_iff.1 ⟨h, hf⟩
  exact ((ht.mem_ancestors hl).1 hmem).1

/-- A slot is empty exactly when no name leads to it. -/
theorem Holds.mem_free_iff (ht : Holds t ls) {i : Nat} : i ∈ t.index.nodes.free ↔
    i < t.index.nodes.slots.size ∧ ∀ name h, t.index.find? name = some h → h.slot ≠ i := by
  rw [ht.counts.consistent.slots.mem_free]
  constructor
  · rintro ⟨slot, hslot, hcontent⟩
    refine ⟨(Array.getElem?_eq_some_iff.1 hslot).1, ?_⟩
    rintro name h hf rfl
    obtain ⟨node, hn, _⟩ := ht.counts.consistent.named name h hf
    rw [Slots.get?_eq_some_iff.1 hn, Option.some.injEq] at hslot
    rw [← hslot] at hcontent
    exact absurd hcontent (by simp)
  · rintro ⟨hi, hnone⟩
    refine ⟨_, Array.getElem?_eq_getElem hi, ?_⟩
    cases hcontent : t.index.nodes.slots[i].content with
    | none => rfl
    | some node =>
      have hn : t.index.node? ⟨i, t.index.nodes.slots[i].generation⟩ = some node := by
        refine Slots.get?_eq_some_iff.2 ?_
        rw [Array.getElem?_eq_getElem hi, ← hcontent]
      exact absurd rfl (hnone _ _ (ht.counts.consistent.indexed _ _ hn))

theorem Holds.anchor (ht : Holds t ls) (hn : t.index.node? h = some node)
    (htoken : node.token = none) : node.expiry = none ∧ node.held = false :=
  ht.counts.anchors _ node (ht.counts.consistent.nodeAt?_root hn) htoken

/-- A node that may expire carries a lock that may. -/
theorem Holds.mem_queue_iff (ht : Holds t ls) {due : Instant} : ⟨due, h⟩ ∈ t.queue.heap.toList ↔
    ∃ node, t.index.node? h = some node ∧ node.expiry = some due ∧ node.held = false := by
  rw [← ht.queue.placed.due?_eq_some, ht.queued]
  unfold Lock.due?
  constructor
  · rintro ⟨lock, hl, hf, hdue⟩
    obtain ⟨node, hn, _⟩ := ht.counts.consistent.named _ _ hf
    obtain ⟨_, _, hexpiry, hheld⟩ := Node.lock?_eq_some.1 (ht.counts.lock?_eq hl hf hn)
    cases hlheld : lock.held with
    | true =>
      rw [hlheld] at hdue
      exact absurd hdue (by simp)
    | false =>
      rw [hlheld] at hdue
      exact ⟨node, hn, hexpiry.trans hdue, hheld.trans hlheld⟩
  · rintro ⟨node, hn, hexpiry, hheld⟩
    cases htoken : node.token with
    | none =>
      rw [(ht.anchor hn htoken).1] at hexpiry
      exact absurd hexpiry (by simp)
    | some token =>
      obtain ⟨lock, hl, _, hc⟩ := ht.exists_of_token hn htoken
      refine ⟨lock, hl, hc.found, ?_⟩
      rw [← hc.held_eq, ← hc.expiry_eq, hheld]
      exact hexpiry

theorem Holds.expires_iff (ht : Holds t ls) (hn : t.index.node? h = some node) :
    node.expiry.isSome ↔ node.token.isSome ∧ node.details.duration ≠ .infinite := by
  cases htoken : node.token with
  | none =>
    rw [(ht.anchor hn htoken).1]
    simp
  | some token =>
    obtain ⟨lock, hl, _, hc⟩ := ht.exists_of_token hn htoken
    have htimed := ht.timed lock hl
    rw [hc.expiry_eq, hc.details_eq, Option.isSome_iff_ne_none, Ne, htimed]
    simp

theorem Holds.registered_iff (ht : Holds t ls) {token : String} :
    t.registry.find? token = some h ↔
      ∃ node, t.index.node? h = some node ∧ node.token = some token := by
  constructor
  · intro hreg
    obtain ⟨lock, _, rfl, node, hc⟩ := ht.exists_of_registered hreg
    exact ⟨node, hc.resolved, hc.token_eq⟩
  · rintro ⟨node, hn, htoken⟩
    obtain ⟨lock, _, rfl, hc⟩ := ht.exists_of_token hn htoken
    exact hc.registered

theorem Holds.refs_eq (ht : Holds t ls) {name : String} (hn : t.index.nodeAt? name = some node) :
    node.refs = ls.countP fun lock => Path.Within name lock.root := by
  have hrefs := ht.counts.refs name
  obtain ⟨h, hf, _⟩ := NodeIndex.nodeAt?_eq_some.1 hn
  have hclean := ht.isClean_of_find? hf
  unfold NodeIndex.refsAt lockedWithin at hrefs
  rw [hn, Option.elim_some] at hrefs
  rw [hrefs]
  refine List.countP_congr fun lock hl => ?_
  rw [decide_eq_true_eq, decide_eq_true_eq, ht.mem_ancestors hl, and_iff_right hclean]

/-- A table that holds locks is well formed. -/
theorem Holds.wellFormed (ht : Holds t ls) : t.WellFormed := by
  replace ht := ht.perm ht.locks_perm.symm
  have hslots := ht.counts.consistent.slots
  refine ⟨fun name => ?_, fun name node hn => ht.refs_eq hn, ht.counts.consistent.named,
    fun name other h k => ht.counts.consistent.eq_of_slot_eq, fun i => ht.mem_free_iff,
    hslots.free_nodup,
    fun i hi slot hslot => ?_, fun token h => ht.registered_iff, fun token other h hreg hreg' => ?_,
    fun h node hn => ht.expires_iff hn, ht.queue, fun h due => ht.mem_queue_iff,
    fun h node hn htoken => ⟨(ht.anchor hn htoken).2, fun due hmem => ?_⟩⟩
  · rw [ht.exists_find?_iff]
    constructor
    · rintro ⟨lock, hl, hmem⟩
      obtain ⟨hclean, hwithin⟩ := (ht.mem_ancestors hl).1 hmem
      exact ⟨hclean, lock, hl, hwithin⟩
    · rintro ⟨hclean, lock, hl, hwithin⟩
      exact ⟨lock, hl, (ht.mem_ancestors hl).2 ⟨hclean, hwithin⟩⟩
  · obtain ⟨slot', hslot', hcontent⟩ := (hslots.mem_free i).1 hi
    rw [hslot, Option.some.injEq] at hslot'
    rwa [hslot']
  · obtain ⟨node, hn, htoken⟩ := ht.registered_iff.1 hreg
    obtain ⟨node', hn', htoken'⟩ := ht.registered_iff.1 hreg'
    rw [hn, Option.some.injEq] at hn'
    rw [← hn', htoken, Option.some.injEq] at htoken'
    exact htoken'
  · obtain ⟨node', hn', hexpiry, _⟩ := ht.mem_queue_iff.1 hmem
    rw [hn, Option.some.injEq] at hn'
    rw [← hn', (ht.anchor hn htoken).1] at hexpiry
    exact absurd hexpiry (by simp)

/-! ## From the parts to the locks -/

theorem WellFormed.find?_root (hw : t.WellFormed) (hn : t.index.node? h = some node) :
    t.index.find? node.details.root = some h := by
  have hslot := Slots.get?_eq_some_iff.1 hn
  have hused : h.slot ∉ t.index.nodes.free := fun hfree => by
    have hvacant := hw.vacant _ hfree _ hslot
    exact absurd hvacant (by simp)
  rw [hw.free, not_and] at hused
  have hnamed := hused (Slots.lt_size_of_get? hn)
  simp only [not_forall, not_not] at hnamed
  obtain ⟨name, k, hf, hk⟩ := hnamed
  obtain ⟨node', hn', rfl⟩ := hw.resolved name k hf
  have heq := Slots.eq_of_slot_eq hn' hn hk
  rw [heq] at hn' hf
  rw [hn', Option.some.injEq] at hn
  rw [← hn, hf]

theorem WellFormed.consistent (hw : t.WellFormed) : t.index.Consistent where
  slots := by
    refine ⟨hw.free_nodup, fun i => ⟨fun hi => ?_, ?_⟩⟩
    · have hlt := ((hw.free i).1 hi).1
      exact ⟨_, Array.getElem?_eq_getElem hlt, hw.vacant i hi _ (Array.getElem?_eq_getElem hlt)⟩
    · rintro ⟨slot, hslot, hcontent⟩
      refine (hw.free i).2 ⟨(Array.getElem?_eq_some_iff.1 hslot).1, ?_⟩
      rintro name h hf rfl
      obtain ⟨node, hn, _⟩ := hw.resolved name h hf
      rw [Slots.get?_eq_some_iff.1 hn, Option.some.injEq] at hslot
      rw [← hslot] at hcontent
      exact absurd hcontent (by simp)
  named := hw.resolved
  indexed _ _ hn := hw.find?_root hn

theorem WellFormed.isClean (hw : t.WellFormed) (hl : lock ∈ t.locks) : Path.IsClean lock.root := by
  obtain ⟨h, node, hn, hlock⟩ := mem_locks.1 hl
  have hroot : node.details.root = lock.root :=
    congrArg Details.root (Node.lock?_eq_some.1 hlock).2.1
  exact ((hw.indexed lock.root).1 ⟨h, hroot ▸ hw.find?_root hn⟩).1

theorem WellFormed.refs (hw : t.WellFormed) (name : String) :
    t.index.refsAt name = lockedWithin t.locks name := by
  have hmem : ∀ lock ∈ t.locks, name ∈ Path.ancestors lock.root ↔
      Path.IsClean name ∧ Path.Within name lock.root :=
    fun lock hl => Path.mem_ancestors (hw.isClean hl)
  unfold NodeIndex.refsAt lockedWithin
  cases hn : t.index.nodeAt? name with
  | none =>
    have hf := hw.consistent.nodeAt?_eq_none_iff.1 hn
    refine (List.countP_eq_zero.2 fun lock hl => ?_).symm
    rw [decide_eq_true_eq, hmem lock hl]
    rintro ⟨hclean, hwithin⟩
    obtain ⟨h, hf'⟩ := (hw.indexed name).2 ⟨hclean, lock, hl, hwithin⟩
    rw [hf] at hf'
    exact absurd hf' (by simp)
  | some node =>
    obtain ⟨h, hf, _⟩ := NodeIndex.nodeAt?_eq_some.1 hn
    have hclean := ((hw.indexed name).1 ⟨h, hf⟩).1
    rw [Option.elim_some, hw.counted name node hn]
    refine List.countP_congr fun lock hl => ?_
    rw [decide_eq_true_eq, decide_eq_true_eq, hmem lock hl, and_iff_right hclean]

theorem WellFormed.counts (hw : t.WellFormed) : t.index.Counts t.locks where
  consistent := hw.consistent
  nodup := nodup_locks hw.consistent
  refs := hw.refs
  refs_pos name node hn := by
    obtain ⟨h, hf, _⟩ := NodeIndex.nodeAt?_eq_some.1 hn
    obtain ⟨_, lock, hl, hwithin⟩ := (hw.indexed name).1 ⟨h, hf⟩
    rw [hw.counted name node hn]
    exact List.countP_pos_iff.2 ⟨lock, hl, decide_eq_true hwithin⟩
  locked name lock := by
    unfold NodeIndex.lockAt?
    rw [Option.bind_eq_some_iff, mem_locks]
    constructor
    · rintro ⟨node, hn, hlock⟩
      obtain ⟨h, _, hnode⟩ := NodeIndex.nodeAt?_eq_some.1 hn
      refine ⟨⟨h, node, hnode, hlock⟩, ?_⟩
      rw [← hw.consistent.root_eq hn, (Node.lock?_eq_some.1 hlock).2.1]
      rfl
    · rintro ⟨⟨h, node, hn, hlock⟩, rfl⟩
      have hroot : node.details.root = lock.root :=
        congrArg Details.root (Node.lock?_eq_some.1 hlock).2.1
      exact ⟨node, hroot ▸ hw.consistent.nodeAt?_root hn, hlock⟩
  anchors name node hn htoken := by
    obtain ⟨h, _, hnode⟩ := NodeIndex.nodeAt?_eq_some.1 hn
    have hexpires := hw.expires h node hnode
    rw [htoken] at hexpires
    refine ⟨?_, (hw.anchors h node hnode htoken).1⟩
    simpa using hexpires

theorem WellFormed.mem_tokens (hw : t.WellFormed) {token : String} :
    (∃ h, t.registry.find? token = some h) ↔ ∃ lock ∈ t.locks, lock.token = token := by
  simp only [hw.registered, mem_locks]
  constructor
  · rintro ⟨h, node, hn, htoken⟩
    exact ⟨⟨token, node.details, node.expiry, node.held⟩,
      ⟨h, node, hn, Node.lock?_eq_some.2 ⟨htoken, rfl, rfl, rfl⟩⟩, rfl⟩
  · rintro ⟨lock, ⟨h, node, hn, hlock⟩, rfl⟩
    exact ⟨h, node, hn, (Node.lock?_eq_some.1 hlock).1⟩

/-- The tokens in use are those of the locks, each once. -/
theorem WellFormed.keys_perm (hw : t.WellFormed) :
    t.registry.byToken.keys.Perm (t.locks.map Lock.token) := by
  refine (List.perm_ext_iff_of_nodup Std.TreeMap.nodup_keys ?_).2 fun token => ?_
  · refine (nodup_locks hw.consistent).map_on fun lock hl other ho htoken => ?_
    obtain ⟨h, node, hn, hlock⟩ := mem_locks.1 hl
    obtain ⟨k, node', hn', hlock'⟩ := mem_locks.1 ho
    have hreg := (hw.registered _ h).2 ⟨node, hn, (Node.lock?_eq_some.1 hlock).1⟩
    have hreg' := (hw.registered _ k).2 ⟨node', hn', (Node.lock?_eq_some.1 hlock').1⟩
    rw [htoken, hreg', Option.some.injEq] at hreg
    rw [← hreg, hn', Option.some.injEq] at hn
    rw [← hn, hlock', Option.some.injEq] at hlock
    exact hlock.symm
  · rw [Std.TreeMap.mem_keys, Std.TreeMap.mem_iff_isSome_getElem?, Option.isSome_iff_exists,
      List.mem_map, ← hw.mem_tokens]
    rfl

/-- A well-formed table holds the locks that its nodes carry. -/
theorem WellFormed.holds (hw : t.WellFormed) : Holds t t.locks where
  counts := hw.counts
  queue := hw.queue
  clean _ hl := hw.isClean hl
  timed lock hl := by
    obtain ⟨h, node, hn, hlock⟩ := mem_locks.1 hl
    obtain ⟨htoken, hdetails, hexpiry, _⟩ := Node.lock?_eq_some.1 hlock
    have hexpires := hw.expires h node hn
    rw [hexpiry, htoken, hdetails, Option.isSome_iff_ne_none] at hexpires
    simpa [not_iff_not] using hexpires
  tokens token h := by
    rw [hw.registered]
    constructor
    · rintro ⟨node, hn, htoken⟩
      have hlock : node.lock? = some ⟨token, node.details, node.expiry, node.held⟩ :=
        Node.lock?_eq_some.2 ⟨htoken, rfl, rfl, rfl⟩
      exact ⟨_, mem_locks.2 ⟨h, node, hn, hlock⟩, rfl, hw.find?_root hn⟩
    · rintro ⟨lock, hl, rfl, hf⟩
      obtain ⟨node, hn, _⟩ := hw.resolved _ h hf
      exact ⟨node, hn, (Node.lock?_eq_some.1 (hw.counts.lock?_eq hl hf hn)).1⟩
  queued h due := by
    rw [hw.queue.placed.due?_eq_some, hw.queued]
    unfold Lock.due?
    constructor
    · rintro ⟨node, hn, hexpiry, hheld⟩
      have htoken := ((hw.expires h node hn).1 (by rw [hexpiry]; rfl)).1
      obtain ⟨token, htoken⟩ := Option.isSome_iff_exists.1 htoken
      have hlock : node.lock? = some ⟨token, node.details, node.expiry, node.held⟩ :=
        Node.lock?_eq_some.2 ⟨htoken, rfl, rfl, rfl⟩
      refine ⟨_, mem_locks.2 ⟨h, node, hn, hlock⟩, hw.find?_root hn, ?_⟩
      rw [hheld]
      exact hexpiry
    · rintro ⟨lock, hl, hf, hdue⟩
      obtain ⟨node, hn, _⟩ := hw.resolved _ h hf
      obtain ⟨_, _, hexpiry, hheld⟩ := Node.lock?_eq_some.1 (hw.counts.lock?_eq hl hf hn)
      rw [← hheld, ← hexpiry] at hdue
      cases hnheld : node.held with
      | true =>
        rw [hnheld] at hdue
        exact absurd hdue (by simp)
      | false =>
        rw [hnheld] at hdue
        exact ⟨node, hn, hdue, hnheld⟩
  size := by
    rw [← hw.keys_perm.length_eq.trans (List.length_map _)]
    exact Std.TreeMap.length_keys.symm

/-- The two views of a table agree. -/
theorem wellFormed_iff : t.WellFormed ↔ Holds t t.locks :=
  ⟨fun hw => hw.holds, fun ht => ht.wellFormed⟩

/-- A table has nothing left when the last lock is gone. -/
theorem WellFormed.empty_of_locks (hw : t.WellFormed) (hnone : t.locks = []) :
    t.index.byName.isEmpty ∧ t.registry.byToken.isEmpty ∧ t.queue.heap = #[] ∧
      t.queue.positions.isEmpty := by
  have hheap : t.queue.heap.toList = [] := by
    rw [List.eq_nil_iff_forall_not_mem]
    rintro ⟨due, h⟩ hmem
    rw [← hw.queue.placed.due?_eq_some, hw.holds.queued, hnone] at hmem
    obtain ⟨lock, hl, _⟩ := hmem
    exact absurd hl List.not_mem_nil
  refine ⟨Std.TreeMap.isEmpty_iff_forall_not_mem.2 fun name hname => ?_,
    Std.TreeMap.isEmpty_iff_forall_not_mem.2 fun token htoken => ?_,
    Array.toList_eq_nil_iff.1 hheap,
    Std.TreeMap.isEmpty_iff_forall_not_mem.2 fun h hh => ?_⟩
  · rw [Std.TreeMap.mem_iff_isSome_getElem?, Option.isSome_iff_exists] at hname
    obtain ⟨_, lock, hl, _⟩ := (hw.indexed name).1 hname
    rw [hnone] at hl
    exact absurd hl List.not_mem_nil
  · rw [Std.TreeMap.mem_iff_isSome_getElem?, Option.isSome_iff_exists] at htoken
    obtain ⟨lock, hl, _⟩ := hw.mem_tokens.1 htoken
    rw [hnone] at hl
    exact absurd hl List.not_mem_nil
  · rw [Std.TreeMap.mem_iff_isSome_getElem?, Option.isSome_iff_exists] at hh
    obtain ⟨i, hi⟩ := hh
    obtain ⟨due, hentry⟩ := ExpiryQueue.idAt_eq_some.1 ((hw.queue.placed h i).1 hi)
    rw [← Array.getElem?_toList, hheap] at hentry
    exact absurd hentry (by simp)

end LockTable

theorem Session.Reachable.wellFormed {s : Session} (hs : s.Reachable) : s.table.WellFormed := by
  obtain ⟨_, _, m, h, _⟩ := hs.refines
  exact h.represents.holds.wellFormed

end PathLock
