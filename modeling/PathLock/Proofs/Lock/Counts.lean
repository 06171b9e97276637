import PathLock.Proofs.Lock.Ledger
import PathLock.Proofs.Lock.NodeIndex

/-!
# The index counts the locks

`Counts` says what the index holds when these locks are there: at every name the number of locks on
it or below it, and at the root of a lock the lock itself. Putting a lock in (`Counts.insert`),
taking one out (`Counts.remove`) and changing one where it is (`Counts.update`) keep it, and leave
the other locks at their handles.
-/

namespace PathLock

/-- The lock at a node. -/
def Node.lock? (node : Node) : Option Lock :=
  node.token.map fun token =>
    { token, details := node.details, expiry := node.expiry, held := node.held }

theorem Node.lock?_eq_some {node : Node} {lock : Lock} :
    node.lock? = some lock ↔ node.token = some lock.token ∧ node.details = lock.details ∧
      node.expiry = lock.expiry ∧ node.held = lock.held := by
  unfold Node.lock?
  rw [Option.map_eq_some_iff]
  constructor
  · rintro ⟨token, htoken, rfl⟩
    exact ⟨htoken, rfl, rfl, rfl⟩
  · rintro ⟨htoken, hdetails, hexpiry, hheld⟩
    exact ⟨lock.token, htoken, by rw [hdetails, hexpiry, hheld]⟩

theorem Node.lock?_eq_none {node : Node} : node.lock? = none ↔ node.token = none := by
  unfold Node.lock?
  rw [Option.map_eq_none_iff]

/-- The number of locks on a name or below it. -/
def lockedWithin (locks : List Lock) (name : String) : Nat :=
  locks.countP fun lock => name ∈ Path.ancestors lock.root

theorem lockedWithin_cons (lock : Lock) (locks : List Lock) (name : String) :
    lockedWithin (lock :: locks) name =
      lockedWithin locks name + if name ∈ Path.ancestors lock.root then 1 else 0 := by
  unfold lockedWithin
  rw [List.countP_cons]
  simp only [decide_eq_true_eq]

theorem root_mem_ancestors (lock : Lock) : lock.root ∈ Path.ancestors lock.root := by
  rw [Path.ancestors_eq_cons]
  exact List.mem_cons_self

theorem lockedWithin_root_pos {locks : List Lock} {lock : Lock} (h : lock ∈ locks) :
    0 < lockedWithin locks lock.root := by
  unfold lockedWithin
  rw [List.countP_pos_iff]
  exact ⟨lock, h, by simpa using root_mem_ancestors lock⟩

/-- A lock does not matter away from its root. -/
theorem mem_cons_root_iff {locks : List Lock} {lock other : Lock} {name : String}
    (hname : name ≠ lock.root) :
    other ∈ lock :: locks ∧ other.root = name ↔ other ∈ locks ∧ other.root = name := by
  rw [List.mem_cons]
  constructor
  · rintro ⟨rfl | ho, hroot⟩
    · exact absurd hroot.symm hname
    · exact ⟨ho, hroot⟩
  · exact fun ho => ⟨.inr ho.1, ho.2⟩

/-- At its root it is the only one. -/
theorem mem_cons_own_root_iff {locks : List Lock} {lock other : Lock}
    (hfree : ∀ k ∈ locks, k.root ≠ lock.root) :
    other ∈ lock :: locks ∧ other.root = lock.root ↔ lock = other := by
  rw [List.mem_cons]
  constructor
  · rintro ⟨rfl | ho, hroot⟩
    · rfl
    · exact absurd hroot (hfree other ho)
  · rintro rfl
    exact ⟨.inl rfl, rfl⟩

namespace NodeIndex

variable {x : NodeIndex} {name n : String} {h : Handle} {node : Node} {lock other : Lock}
  {locks : List Lock}

/-- The number of locks counted at a name. -/
def refsAt (x : NodeIndex) (name : String) : Nat := (x.nodeAt? name).elim 0 Node.refs

theorem exists_nodeAt?_iff_refsAt (hx : ∀ node, x.nodeAt? name = some node → 0 < node.refs) :
    (∃ node, x.nodeAt? name = some node) ↔ 0 < x.refsAt name := by
  unfold refsAt
  constructor
  · rintro ⟨node, hn⟩
    rw [hn]
    exact hx node hn
  · cases hn : x.nodeAt? name with
    | none => exact fun h => absurd h (Nat.lt_irrefl 0)
    | some node => exact fun _ => ⟨node, rfl⟩

/-- The lock with exactly this root. -/
def lockAt? (x : NodeIndex) (name : String) : Option Lock := (x.nodeAt? name).bind Node.lock?

/-- The index of these locks. Nodes without a lock carry no trace of one. -/
structure Counts (x : NodeIndex) (locks : List Lock) : Prop where
  consistent : Consistent x
  nodup : locks.Nodup
  refs : ∀ name, x.refsAt name = lockedWithin locks name
  refs_pos : ∀ name node, x.nodeAt? name = some node → 0 < node.refs
  locked : ∀ name lock, x.lockAt? name = some lock ↔ lock ∈ locks ∧ lock.root = name
  anchors : ∀ name node, x.nodeAt? name = some node → node.token = none →
    node.expiry = none ∧ node.held = false

theorem counts_empty : Counts {} [] where
  consistent := consistent_empty
  nodup := List.nodup_nil
  refs _ := by simp [refsAt, nodeAt?, find?, lockedWithin]
  refs_pos _ _ hn := by simp [nodeAt?, find?] at hn
  locked _ _ := by simp [lockAt?, nodeAt?, find?]
  anchors _ _ hn := by simp [nodeAt?, find?] at hn

/-- Two locks with one root are one. -/
theorem Counts.eq_of_root_eq (hx : Counts x locks) (hl : lock ∈ locks) (ho : other ∈ locks)
    (hroot : lock.root = other.root) : lock = other := by
  have h₁ := (hx.locked lock.root lock).2 ⟨hl, rfl⟩
  have h₂ := (hx.locked lock.root other).2 ⟨ho, hroot.symm⟩
  rw [h₁, Option.some.injEq] at h₂
  exact h₂

theorem Counts.root_ne_of_mem (hx : Counts x (lock :: locks)) (ho : other ∈ locks) :
    other.root ≠ lock.root := by
  intro hroot
  have he := hx.eq_of_root_eq (List.mem_cons_of_mem _ ho) List.mem_cons_self hroot
  exact (List.nodup_cons.1 hx.nodup).1 (he ▸ ho)

/-- The node of a lock. -/
theorem Counts.exists_node (hx : Counts x locks) (hl : lock ∈ locks) :
    ∃ h node, x.find? lock.root = some h ∧ x.node? h = some node ∧ node.lock? = some lock := by
  obtain ⟨node, hn, hlock⟩ := Option.bind_eq_some_iff.1 ((hx.locked lock.root lock).2 ⟨hl, rfl⟩)
  obtain ⟨h, hf, hnode⟩ := nodeAt?_eq_some.1 hn
  exact ⟨h, node, hf, hnode, hlock⟩

theorem Counts.lock?_eq (hx : Counts x locks) (hl : lock ∈ locks) (hf : x.find? lock.root = some h)
    (hn : x.node? h = some node) : node.lock? = some lock := by
  obtain ⟨h', node', hf', hn', hlock⟩ := hx.exists_node hl
  rw [hf, Option.some.injEq] at hf'
  rw [← hf', hn, Option.some.injEq] at hn'
  rwa [hn']

/-- A lock found at a node is there, and the node is found by its root. -/
theorem Counts.mem_of_lock? (hx : Counts x locks) (hn : x.node? h = some node)
    (hlock : node.lock? = some lock) : lock ∈ locks ∧ x.find? lock.root = some h := by
  have hroot : node.details.root = lock.root := by
    rw [(Node.lock?_eq_some.1 hlock).2.1]
    rfl
  have hfound := hx.consistent.indexed h node hn
  have hat : x.lockAt? node.details.root = some lock := by
    unfold lockAt?
    rw [hx.consistent.nodeAt?_root hn, Option.bind_some, hlock]
  exact ⟨((hx.locked _ _).1 hat).1, hroot ▸ hfound⟩

theorem Counts.perm {locks' : List Lock} (hx : Counts x locks) (hp : locks.Perm locks') :
    Counts x locks' where
  consistent := hx.consistent
  nodup := hp.nodup hx.nodup
  refs name := (hx.refs name).trans (hp.countP_eq _)
  refs_pos := hx.refs_pos
  locked name lock := by rw [hx.locked, hp.mem_iff]
  anchors := hx.anchors

/-! ## Changing a lock where it is -/

theorem refsAt_modify {f : Node → Node} (hx : Consistent x) (hf : x.find? name = some h)
    (hn : x.node? h = some node) (hrefs : (f node).refs = node.refs) :
    (x.modify h f).refsAt n = x.refsAt n := by
  unfold refsAt
  rw [nodeAt?_modify hx f hf hn]
  split_ifs with hname
  · rw [hname, ← node?_of_find? hf, hn]
    exact hrefs
  · rfl

theorem lockAt?_modify (hx : Consistent x) (f : Node → Node) (hf : x.find? name = some h)
    (hn : x.node? h = some node) :
    (x.modify h f).lockAt? n = if n = name then (f node).lock? else x.lockAt? n := by
  unfold lockAt?
  rw [nodeAt?_modify hx f hf hn]
  split_ifs <;> rfl

/-- What holds of all nodes still does if the changed one keeps it. -/
theorem forall_modify {P : Node → Prop} {f : Node → Node} (hx : Consistent x)
    (hf : x.find? name = some h) (hn : x.node? h = some node)
    (hall : ∀ n m, x.nodeAt? n = some m → P m) (hnew : P node → P (f node)) :
    ∀ n m, (x.modify h f).nodeAt? n = some m → P m := by
  intro n m hm
  rw [nodeAt?_modify hx f hf hn] at hm
  split_ifs at hm
  · rw [← Option.some.inj hm]
    exact hnew (hall name node (by rw [← node?_of_find? hf, hn]))
  · exact hall n m hm

theorem Counts.update {lock' : Lock} {f : Node → Node} (hx : Counts x (lock :: locks))
    (hf : x.find? lock.root = some h) (hroot : lock'.root = lock.root)
    (hlock : ∀ node, node.lock? = some lock → (f node).lock? = some lock')
    (hrefs : ∀ node, (f node).refs = node.refs) : Counts (x.modify h f) (lock' :: locks) := by
  obtain ⟨node, hn, _⟩ := hx.consistent.named _ _ hf
  have hold := hx.lock?_eq List.mem_cons_self hf hn
  have hnew := hlock node hold
  have hfroot : (f node).details.root = node.details.root := by
    rw [(Node.lock?_eq_some.1 hnew).2.1, (Node.lock?_eq_some.1 hold).2.1]
    exact hroot
  have hunique : ∀ k ∈ locks, k.root ≠ lock.root := fun k hk => hx.root_ne_of_mem hk
  have htoken := (Node.lock?_eq_some.1 hnew).1
  refine ⟨hx.consistent.modify hn hfroot, ?_, fun n => ?_, ?_, fun n k => ?_, ?_⟩
  · exact List.nodup_cons.2 ⟨fun hk => hunique _ hk hroot, (List.nodup_cons.1 hx.nodup).2⟩
  · have hcount : lockedWithin (lock' :: locks) n = lockedWithin (lock :: locks) n := by
      rw [lockedWithin_cons, lockedWithin_cons, hroot]
    rw [hcount, ← hx.refs n]
    exact refsAt_modify hx.consistent hf hn (hrefs node)
  · exact forall_modify hx.consistent hf hn hx.refs_pos fun hpos => (hrefs node).symm ▸ hpos
  · rw [lockAt?_modify hx.consistent f hf hn, hnew]
    rw [← hroot] at hunique ⊢
    split_ifs with hname
    · rw [Option.some.injEq, hname, mem_cons_own_root_iff hunique]
    · rw [hx.locked, mem_cons_root_iff hname, mem_cons_root_iff (hroot ▸ hname)]
  · exact forall_modify hx.consistent hf hn hx.anchors fun _ hnone =>
      absurd (htoken.symm.trans hnone) (Option.some_ne_none _)

/-! ## Putting a lock in -/

theorem refsAt_retained {y : NodeIndex} {names : List String} (hy : Retained x y names)
    (n : String) : y.refsAt n = x.refsAt n + if n ∈ names then 1 else 0 := by
  unfold refsAt
  rw [hy.nodeAt?_eq]
  split_ifs
  · cases x.nodeAt? n <;> rfl
  · rfl

theorem lock?_counted (n : String) (o : Option Node) : (counted n o).lock? = o.bind Node.lock? := by
  cases o <;> rfl

theorem lockAt?_retained {y : NodeIndex} {names : List String} (hy : Retained x y names)
    (n : String) : y.lockAt? n = x.lockAt? n := by
  unfold lockAt?
  rw [hy.nodeAt?_eq]
  split_ifs
  · rw [Option.bind_some, lock?_counted]
  · rfl

/-- What holds of all nodes still does if fresh ones have it and one more lock does not matter. -/
theorem Retained.forall_nodeAt? {P : Node → Prop} {y : NodeIndex} {names : List String}
    (hy : Retained x y names) (hall : ∀ n m, x.nodeAt? n = some m → P m)
    (hanchor : ∀ n, P (.anchor n)) (hmore : ∀ m, P m → P { m with refs := m.refs + 1 }) :
    ∀ n m, y.nodeAt? n = some m → P m := by
  intro n m hm
  rw [hy.nodeAt?_eq] at hm
  split_ifs at hm
  · rw [← Option.some.inj hm]
    cases ho : x.nodeAt? n with
    | none => exact hanchor n
    | some m => exact hmore m (hall n m ho)
  · exact hall n m hm

theorem Retained.refs_pos {y : NodeIndex} {names : List String} (hy : Retained x y names)
    (hx : ∀ n m, x.nodeAt? n = some m → 0 < m.refs) : ∀ n m, y.nodeAt? n = some m → 0 < m.refs :=
  hy.forall_nodeAt? hx (fun _ => Nat.one_pos) fun _ _ => Nat.succ_pos _

/-- The index with one more lock. -/
def insertLock (x : NodeIndex) (lock : Lock) : NodeIndex :=
  (x.retainAll lock.root).2.modify (x.retainAll lock.root).1 fun node =>
    { node with
      token := some lock.token, details := lock.details, expiry := lock.expiry, held := lock.held }

theorem Counts.insert (hx : Counts x locks) (hclean : Path.IsClean lock.root)
    (hfree : ∀ other ∈ locks, other.root ≠ lock.root) :
    Counts (x.insertLock lock) (lock :: locks) ∧
      (x.insertLock lock).find? lock.root = some (x.retainAll lock.root).1 ∧
      ∀ n h, x.find? n = some h → (x.insertLock lock).find? n = some h := by
  obtain ⟨hy, hf⟩ := retainAll_spec hx.consistent hclean
  unfold insertLock
  generalize x.retainAll lock.root = r at hy hf
  obtain ⟨h, y⟩ := r
  refine ⟨?_, hf, hy.keeps⟩
  show Counts (y.modify h _) _
  obtain ⟨node, hn, hroot⟩ := hy.consistent.named _ _ hf
  have hanchors := hy.forall_nodeAt? hx.anchors (fun _ _ => ⟨rfl, rfl⟩) fun _ hm => hm
  refine ⟨hy.consistent.modify hn hroot.symm, ?_, fun n => ?_, ?_, fun n k => ?_, ?_⟩
  · exact List.nodup_cons.2 ⟨fun hk => hfree lock hk rfl, hx.nodup⟩
  · rw [lockedWithin_cons, ← hx.refs n, ← refsAt_retained hy]
    exact refsAt_modify hy.consistent hf hn rfl
  · exact forall_modify hy.consistent hf hn (hy.refs_pos hx.refs_pos) fun hpos => hpos
  · rw [lockAt?_modify hy.consistent _ hf hn, lockAt?_retained hy]
    split_ifs with hname
    · rw [Node.lock?, Option.map_some, Option.some.injEq, hname, mem_cons_own_root_iff hfree]
    · rw [hx.locked, mem_cons_root_iff hname]
  · exact forall_modify hy.consistent hf hn hanchors fun _ hnone =>
      absurd hnone (Option.some_ne_none _)

/-! ## Taking a lock out -/

theorem refsAt_released {y : NodeIndex} {names : List String} (hy : Released x y names)
    (n : String) : y.refsAt n = x.refsAt n - if n ∈ names then 1 else 0 := by
  unfold refsAt
  rw [hy.nodeAt?_eq]
  split_ifs
  · cases x.nodeAt? n with
    | none => rfl
    | some node =>
      show (if node.refs - 1 = 0 then none else some _).elim 0 Node.refs = node.refs - 1
      split_ifs with hrefs
      · exact hrefs.symm
      · rfl
  · rfl

/-- A node that stays when a lock is counted out keeps all but its count. -/
theorem uncounted_eq_some {o : Option Node} :
    uncounted o = some node ↔
      ∃ m, o = some m ∧ m.refs - 1 ≠ 0 ∧ node = { m with refs := m.refs - 1 } := by
  cases o with
  | none => simp [uncounted]
  | some m =>
    show (if m.refs - 1 = 0 then none else some _) = some node ↔ _
    split_ifs with hrefs
    · simp [hrefs]
    · constructor
      · intro he
        exact ⟨m, rfl, hrefs, (Option.some.inj he).symm⟩
      · rintro ⟨m', hm', -, rfl⟩
        rw [Option.some.inj hm']

/-- What holds of all nodes still does if one lock less does not matter where some are left. -/
theorem Released.forall_nodeAt? {P : Node → Prop} {y : NodeIndex} {names : List String}
    (hy : Released x y names) (hall : ∀ n m, x.nodeAt? n = some m → P m)
    (hless : ∀ m, m.refs - 1 ≠ 0 → P m → P { m with refs := m.refs - 1 }) :
    ∀ n m, y.nodeAt? n = some m → P m := by
  intro n m hm
  rw [hy.nodeAt?_eq] at hm
  split_ifs at hm
  · obtain ⟨m', hm', hrefs, rfl⟩ := uncounted_eq_some.1 hm
    exact hless m' hrefs (hall n m' hm')
  · exact hall n m hm

theorem Released.refs_pos {y : NodeIndex} {names : List String} (hy : Released x y names)
    (hx : ∀ n m, x.nodeAt? n = some m → 0 < m.refs) : ∀ n m, y.nodeAt? n = some m → 0 < m.refs :=
  hy.forall_nodeAt? hx fun _ hrefs _ => Nat.pos_of_ne_zero hrefs

theorem lockAt?_released {y : NodeIndex} {names : List String} (hy : Released x y names)
    (hshared : n ∈ names → ∀ node lock, x.nodeAt? n = some node → node.lock? = some lock →
      1 < node.refs) : y.lockAt? n = x.lockAt? n := by
  unfold lockAt?
  rw [hy.nodeAt?_eq]
  split_ifs with hin
  · cases hn : x.nodeAt? n with
    | none => rfl
    | some node =>
      show (if node.refs - 1 = 0 then none else some _).bind Node.lock? = node.lock?
      split_ifs with hrefs
      · cases hlock : node.lock? with
        | none => rfl
        | some lock =>
          have hmore := hshared hin node lock hn hlock
          omega
      · rfl
  · rfl

/-- The index without the lock at a node. -/
def removeLock (x : NodeIndex) (h : Handle) (root : String) : NodeIndex :=
  (x.modify h fun node =>
    { node with token := none, held := false, expiry := none }).releaseAll root

theorem Counts.remove (hx : Counts x (lock :: locks)) (hclean : Path.IsClean lock.root)
    (hf : x.find? lock.root = some h) : Counts (x.removeLock h lock.root) locks := by
  obtain ⟨node, hn, _⟩ := hx.consistent.named _ _ hf
  have hy : Consistent (x.modify h _) := hx.consistent.modify
    (f := fun node => { node with token := none, held := false, expiry := none }) hn rfl
  have hz := releaseAll_spec hy hclean
  unfold removeLock
  refine ⟨hz.consistent, (List.nodup_cons.1 hx.nodup).2, fun n => ?_, ?_, fun n k => ?_, ?_⟩
  · have hrefs := hx.refs n
    rw [lockedWithin_cons] at hrefs
    have hsame : (x.modify h fun node =>
        { node with token := none, held := false, expiry := none }).refsAt n = x.refsAt n :=
      refsAt_modify hx.consistent hf hn rfl
    rw [refsAt_released hz, hsame]
    omega
  · exact hz.refs_pos (forall_modify hx.consistent hf hn hx.refs_pos fun hpos => hpos)
  · rw [lockAt?_released hz, lockAt?_modify hx.consistent _ hf hn]
    · split_ifs with hname
      · refine ⟨fun hk => absurd hk (by simp [Node.lock?]), fun hk => ?_⟩
        exact absurd (hk.2.trans hname) (hx.root_ne_of_mem hk.1)
      · rw [hx.locked, mem_cons_root_iff hname]
    · intro hin m k hm hlock
      rw [nodeAt?_modify hx.consistent _ hf hn] at hm
      split_ifs at hm with hname
      · rw [← Option.some.inj hm] at hlock
        exact absurd hlock (by simp [Node.lock?])
      · -- the lock that is left here counts beside the one that goes
        have hk := (hx.locked n k).1 (Option.bind_eq_some_iff.2 ⟨m, hm, hlock⟩)
        obtain ⟨hk, hkroot⟩ := (mem_cons_root_iff hname).1 hk
        have hpos := lockedWithin_root_pos hk
        have hcount := hx.refs n
        rw [lockedWithin_cons, if_pos hin, refsAt, hm, Option.elim_some, ← hkroot] at hcount
        omega
  · exact hz.forall_nodeAt? (forall_modify hx.consistent hf hn hx.anchors fun _ _ => ⟨rfl, rfl⟩)
      fun _ _ hm => hm

/-- The other locks stay at their handles. -/
theorem Counts.find?_remove (hx : Counts x (lock :: locks)) (hclean : Path.IsClean lock.root)
    (hf : x.find? lock.root = some h) (ho : other ∈ locks) :
    (x.removeLock h lock.root).find? other.root = x.find? other.root := by
  obtain ⟨node, hn, _⟩ := hx.consistent.named _ _ hf
  have hy : Consistent (x.modify h _) := hx.consistent.modify
    (f := fun node => { node with token := none, held := false, expiry := none }) hn rfl
  obtain ⟨k, _, hk, _⟩ := (hx.remove hclean hf).exists_node ho
  rw [hk]
  exact ((releaseAll_spec hy hclean).keeps _ k hk).symm

end NodeIndex

end PathLock
