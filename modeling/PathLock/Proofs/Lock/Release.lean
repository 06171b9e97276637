import PathLock.Proofs.Lock.Outstanding

/-!
# What a release changes

The node of a claimed lock may since have lost the lock, or carry another one, or be another node in
the same slot. A release lets go of a node only where both handle and token are those of the claim,
so it finds all its locks that are left, and nothing else.

* `LockTable.Frees`: one table is the other with exactly the locks of a claim let go.
* `Session.Reachable.release_frees_its_own`: what the release of an outstanding claim does.
-/

namespace PathLock

/-- The node after locks with these tokens were let go. -/
def Node.freed (tokens : List String) (node : Node) : Node :=
  if ∃ token ∈ tokens, node.token = some token then { node with held := false } else node

/-- The lock after locks with these tokens were let go. -/
def Lock.freed (tokens : List String) (lock : Lock) : Lock :=
  if lock.token ∈ tokens then { lock with held := false } else lock

namespace LockTable

variable {t t' : LockTable} {l : Ledger} {claim : Claim} {claimed : List ClaimedLock} {h : Handle}
  {node : Node} {due : Instant}

/-- The table `t'` is `t` with the locks of the claim let go. -/
structure Frees (t : LockTable) (claim : Claim) (t' : LockTable) : Prop where
  wellFormed : t'.WellFormed
  /-- The same names lead to the same nodes, and the same slots are empty. -/
  names : t'.index.byName = t.index.byName
  free : t'.index.nodes.free = t.index.nodes.free
  registry : t'.registry = t.registry
  locks : t'.locks.Perm (t.locks.map (Lock.freed claim.tokens))
  /-- Of a node, nothing but that its lock is held can change. -/
  nodes : ∀ h, t'.index.node? h = (t.index.node? h).map (Node.freed claim.tokens)
  held : ∀ lock ∈ t.locks, lock.token ∈ claim.tokens → lock.held = true
  /-- The locks that are let go are queued with the expiry they have, the others as they were. -/
  queued : ∀ h due, ⟨due, h⟩ ∈ t'.queue.heap.toList ↔ ⟨due, h⟩ ∈ t.queue.heap.toList ∨
    ∃ node, t.index.node? h = some node ∧ (∃ token ∈ claim.tokens, node.token = some token) ∧
      node.expiry = some due

/-! ## Node by node -/

/-- The node after these claims on it were let go. -/
def letGo (claimed : List ClaimedLock) (h : Handle) (node : Node) : Node :=
  if ∃ c ∈ claimed, c.id = h ∧ node.token = some c.token then { node with held := false } else node

theorem letGo_nil (h : Handle) (node : Node) : letGo [] h node = node :=
  if_neg fun ⟨_, hc, _⟩ => absurd hc List.not_mem_nil

/-- The first claim, if it is on this node, and then the others. -/
theorem letGo_cons (c : ClaimedLock) (claimed : List ClaimedLock) (h : Handle) (node : Node) :
    letGo (c :: claimed) h node = letGo claimed h
      (if c.id = h ∧ node.token = some c.token then { node with held := false } else node) := by
  unfold letGo
  simp only [List.exists_mem_cons_iff]
  by_cases hc : c.id = h ∧ node.token = some c.token
  · rw [if_pos hc, if_pos (.inl hc)]
    split_ifs <;> rfl
  · rw [if_neg hc]
    simp only [hc, false_or]

theorem unhold_ok (hunhold : t.unhold h = .ok t') : ∃ node, t.index.node? h = some node ∧
    t' = (t.modify h fun node => { node with held := false }).schedule h node.expiry := by
  unfold unhold LockTable.node at hunhold
  cases hn : t.index.node? h with
  | none =>
    rw [hn] at hunhold
    cases hunhold
  | some node =>
    rw [hn] at hunhold
    replace hunhold : (if node.held = true then _ else _) = Except.ok t' := hunhold
    split_ifs at hunhold
    exact ⟨node, rfl, (Except.ok.inj hunhold).symm⟩

/-- What letting go of one lock leaves of the parts. -/
theorem parts_unhold (hunhold : t.unhold h = .ok t') : t'.index.byName = t.index.byName ∧
    t'.index.nodes.free = t.index.nodes.free ∧
      ∀ k, t'.index.node? k = (t.index.node? k).map fun node =>
        if h = k then { node with held := false } else node := by
  obtain ⟨node, hn, rfl⟩ := unhold_ok hunhold
  rw [schedule_eq]
  refine ⟨rfl, ?_, fun k => ?_⟩
  · show (t.index.nodes.modify h _).free = _
    rw [Slots.slots_modify _ hn]
  · refine (NodeIndex.node?_modify _ hn).trans ?_
    by_cases hk : k = h
    · simp only [hk, if_true, hn, Option.map_some]
    · simp only [hk, Ne.symm hk, if_false, Option.map_id']

/-- What letting go in turn leaves of the parts. -/
theorem parts_releaseLocks (hrelease : releaseLocks claimed t = (.ok (), t')) :
    t'.index.byName = t.index.byName ∧ t'.index.nodes.free = t.index.nodes.free ∧
      ∀ h, t'.index.node? h = (t.index.node? h).map (letGo claimed h) := by
  induction claimed generalizing t with
  | nil =>
    obtain ⟨_, rfl⟩ := Prod.mk.inj hrelease
    refine ⟨rfl, rfl, fun h => ?_⟩
    rw [funext (letGo_nil h), Option.map_id']
  | cons c claimed ih =>
    unfold releaseLocks at hrelease
    split_ifs at hrelease with hstill
    · obtain ⟨node, hn, htoken⟩ := stillLockedBy_eq_true.1 hstill
      split at hrelease
      · rename_i t₁ hunhold
        obtain ⟨hnames, hfree, hnodes⟩ := ih hrelease
        obtain ⟨hnames₁, hfree₁, hnodes₁⟩ := parts_unhold hunhold
        refine ⟨hnames.trans hnames₁, hfree.trans hfree₁, fun h => ?_⟩
        rw [hnodes, hnodes₁, Option.map_map]
        refine Option.map_congr fun other hother => ?_
        rw [letGo_cons, Function.comp_apply]
        by_cases hid : c.id = h
        · rw [← hid, hn] at hother
          rw [if_pos hid, if_pos ⟨hid, Option.some.inj hother ▸ htoken⟩]
        · rw [if_neg hid, if_neg fun hc => hid hc.1]
      · exact absurd (Prod.mk.inj hrelease).1 (by simp)
    · obtain ⟨hnames, hfree, hnodes⟩ := ih hrelease
      refine ⟨hnames, hfree, fun h => ?_⟩
      rw [hnodes]
      refine Option.map_congr fun node hn => ?_
      rw [letGo_cons, if_neg]
      rintro ⟨rfl, htoken⟩
      exact hstill (stillLockedBy_eq_true.2 ⟨node, hn, htoken⟩)

/-- A node with a claimed token is the claimed node. -/
theorem Represents.letGo_eq_freed (hr : Represents t l)
    (hleads : ∀ c ∈ claim.locks, ∀ h, t.registry.find? c.token = some h → h = c.id)
    (hn : t.index.node? h = some node) :
    letGo claim.locks.reverse h node = node.freed claim.tokens := by
  have hiff : (∃ c ∈ claim.locks.reverse, c.id = h ∧ node.token = some c.token) ↔
      ∃ token ∈ claim.tokens, node.token = some token := by
    constructor
    · rintro ⟨c, hc, _, htoken⟩
      exact ⟨c.token, List.mem_map_of_mem (List.mem_reverse.1 hc), htoken⟩
    · rintro ⟨_, ht, htoken⟩
      obtain ⟨c, hc, rfl⟩ := List.mem_map.1 ht
      have hreg := hr.holds.registered_iff.2 ⟨node, hn, htoken⟩
      exact ⟨c, List.mem_reverse.2 hc, (hleads c hc h hreg).symm, htoken⟩
  unfold letGo Node.freed
  simp only [hiff]

/-! ## The whole table -/

theorem Represents.frees (hr : Represents t l) (hnodup : claim.tokens.Nodup)
    (hleads : ∀ c ∈ claim.locks, ∀ h, t.registry.find? c.token = some h → h = c.id)
    (hheld : ∀ lock ∈ l.locks, lock.token ∈ claim.tokens → lock.held = true) :
    ∃ t', t.release claim = (.ok (), t') ∧ t.Frees claim t' := by
  obtain ⟨t', hrelease, hreg, hr'⟩ := hr.release hnodup hleads hheld
  obtain ⟨hnames, hfree, hletGo⟩ := parts_releaseLocks hrelease
  have hnodes : ∀ h, t'.index.node? h = (t.index.node? h).map (Node.freed claim.tokens) := by
    intro h
    rw [hletGo]
    exact Option.map_congr fun node hn => hr.letGo_eq_freed hleads hn
  refine ⟨t', hrelease, hr'.holds.wellFormed, hnames, hfree, hreg, ?_, hnodes, ?_, fun h due => ?_⟩
  · exact hr'.holds.locks_perm.trans (hr.holds.locks_perm.map _).symm
  · exact fun lock hl => hheld lock (hr.holds.locks_perm.mem_iff.1 hl)
  · rw [hr'.holds.mem_queue_iff, hr.holds.mem_queue_iff, hnodes, ← exists_or]
    simp only [Option.map_eq_some_iff]
    constructor
    · rintro ⟨_, ⟨node, hn, rfl⟩, hexpiry, hfree⟩
      unfold Node.freed at hexpiry hfree
      split_ifs at hexpiry hfree with htoken
      · exact ⟨node, .inr ⟨hn, htoken, hexpiry⟩⟩
      · exact ⟨node, .inl ⟨hn, hexpiry, hfree⟩⟩
    · rintro ⟨node, ⟨hn, hexpiry, hfree⟩ | ⟨hn, htoken, hexpiry⟩⟩
      · refine ⟨_, ⟨node, hn, rfl⟩, ?_⟩
        unfold Node.freed
        split_ifs
        · exact ⟨hexpiry, rfl⟩
        · exact ⟨hexpiry, hfree⟩
      · refine ⟨_, ⟨node, hn, rfl⟩, ?_⟩
        unfold Node.freed
        rw [if_pos htoken]
        exact ⟨hexpiry, rfl⟩

end LockTable

namespace Session

variable {s : Session} {number : ℕ} {claim : Claim}

/-- However long ago the claim was made, its release lets go of those of its locks that are left,
and changes nothing else. -/
theorem Reachable.release_frees_its_own (hs : s.Reachable) (he : (number, claim) ∈ s.outstanding) :
    ∃ t, s.table.release claim = (.ok (), t) ∧ s.table.Frees claim t := by
  obtain ⟨seed, n, m, hrefines, hsound⟩ := hs.refines
  have h : Tracks seed n s m := ⟨hrefines, hsound⟩
  refine hrefines.represents.frees (h.nodup_tokens he) (fun c hc => hrefines.handles _ he c hc) ?_
  exact fun lock hl ht => (hsound.held lock hl).2 (hrefines.mem_claimed he ht)

/-- Two locks are claimed. One of them is deleted and replaced by another lock on the same node,
which is claimed in turn. -/
def replacedOnItsNode : List Call :=
  [.create .epoch { root := "/a", duration := .seconds 60, zeroDepth := true },
    .create .epoch { root := "/a/b", duration := .infinite },
    .create .epoch { root := "/c", duration := .seconds 60 },
    .confirm .epoch "/a" "/c/d" [.ofToken "8", .ofToken "10"],
    .delete .epoch "/a",
    .create .epoch { root := "/a", duration := .seconds 30, zeroDepth := true },
    .guard .epoch "/a" "" [.ofToken "11"]]

/-- The claim of the first two locks. -/
def claimOnOldLock : Claim := ⟨[⟨⟨0, 0⟩, "8"⟩, ⟨⟨3, 0⟩, "10"⟩]⟩

theorem release_frees_its_own_replaced :
    let s := ((start 7).run replacedOnItsNode).2
    s.Reachable ∧ (0, claimOnOldLock) ∈ s.outstanding ∧
      ∃ t, s.table.release claimOnOldLock = (.ok (), t) ∧ s.table.Frees claimOnOldLock t ∧
        t.index.node? ⟨0, 0⟩ = s.table.index.node? ⟨0, 0⟩ ∧
        (t.index.node? ⟨3, 0⟩).map (fun node => (node.token, node.held)) = some (some "10", false) ∧
        ⟨Instant.epoch.after 60, ⟨3, 0⟩⟩ ∈ t.queue.heap.toList := by
  intro s
  have hs : s.Reachable := ⟨7, replacedOnItsNode, by decide +kernel, rfl⟩
  have he : (0, claimOnOldLock) ∈ s.outstanding := by decide +kernel
  have hnode : (s.table.index.node? ⟨3, 0⟩).map (fun node => (node.token, node.expiry)) =
      some (some "10", some (Instant.epoch.after 60)) := by decide +kernel
  obtain ⟨node, hn, hfields⟩ := Option.map_eq_some_iff.1 hnode
  obtain ⟨htoken, hexpiry⟩ := Prod.mk.inj hfields
  obtain ⟨t, hrelease, hfrees⟩ := hs.release_frees_its_own he
  refine ⟨hs, he, t, hrelease, hfrees, ?_, ?_, ?_⟩
  · rw [hfrees.nodes]
    decide +kernel
  · rw [hfrees.nodes]
    decide +kernel
  · exact (hfrees.queued _ _).2 (.inr ⟨node, hn, ⟨"10", by decide, htoken⟩, hexpiry⟩)

-- The new lock on the node of the claim is still held after the release, the other one is not.
example : (((start 7).run replacedOnItsNode).2.run
      [.release 0, .unlock .epoch "11", .unlock .epoch "10"]).1 =
    [.done, .failed .locked, .done] := by
  decide +kernel

end Session

end PathLock
