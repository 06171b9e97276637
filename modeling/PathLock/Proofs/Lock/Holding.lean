import PathLock.Proofs.Lock.Release

/-!
# All locks are held, or none

Holding the locks at several nodes goes through the list and, when one of them cannot be held, lets
those before it go again. `Holding t ids u` says that `u` is `t` with the nodes `ids` held. The loop
passes from there to one node more, and the way back to one node less, where the queue gets the
entry again that it had, because in a well-formed table that is the expiry in the node.

* `LockTable.WellFormed.holdAll_all_or_none`: when all locks are held, and what is left otherwise.
-/

namespace PathLock

namespace Slots

variable {α : Type} {s : Slots α} {h : Handle}

/-- Changes every value by a function of its handle. -/
def mapHandles (f : Handle → α → α) (s : Slots α) : Slots α :=
  { s with slots := s.slots.mapIdx fun i slot =>
      { slot with content := slot.content.map (f ⟨i, slot.generation⟩) } }

theorem get?_mapHandles (f : Handle → α → α) (s : Slots α) (h : Handle) :
    (s.mapHandles f).get? h = (s.get? h).map (f h) := by
  unfold get? mapHandles
  simp only [Array.getElem?_mapIdx]
  cases s.slots[h.slot]? with
  | none => rfl
  | some slot =>
    show (if slot.generation = h.generation then
        slot.content.map (f ⟨h.slot, slot.generation⟩) else none) =
      Option.map (f h) (if slot.generation = h.generation then slot.content else none)
    split_ifs with hg
    · rw [hg]
    · rfl

theorem mapHandles_mapHandles (f g : Handle → α → α) (s : Slots α) :
    (s.mapHandles f).mapHandles g = s.mapHandles fun h a => g h (f h a) := by
  unfold mapHandles
  simp only [Array.mapIdx_mapIdx, Option.map_map, Function.comp_def]

theorem mapHandles_congr {f g : Handle → α → α} (hfg : ∀ h a, s.get? h = some a → f h a = g h a) :
    s.mapHandles f = s.mapHandles g := by
  unfold mapHandles
  congr 1
  refine Array.ext_getElem? fun i => ?_
  rw [Array.getElem?_mapIdx, Array.getElem?_mapIdx]
  refine Option.map_congr fun slot hslot => ?_
  refine congrArg (Slot.mk _) (Option.map_congr fun a ha => hfg _ a ?_)
  exact get?_eq_some_iff.2 (by rw [hslot, ← Option.mem_def.1 ha])

theorem mapHandles_id (s : Slots α) : s.mapHandles (fun _ a => a) = s := by
  obtain ⟨slots, free⟩ := s
  unfold mapHandles
  simp only [Option.map_id']
  congr 1
  refine Array.ext_getElem? fun i => ?_
  rw [Array.getElem?_mapIdx]
  exact Option.map_id' ▸ rfl

theorem free_modify (f : α → α) (s : Slots α) (h : Handle) : (s.modify h f).free = s.free := by
  unfold modify
  cases s.slots[h.slot]? with
  | none => rfl
  | some slot =>
    show (if slot.generation = h.generation then _ else s : Slots α).free = _
    split_ifs <;> rfl

theorem getElem?_modify (f : α → α) (s : Slots α) (h : Handle) (i : ℕ) :
    (s.modify h f).slots[i]? = (s.slots[i]?).map fun slot =>
      if ⟨i, slot.generation⟩ = h then { slot with content := slot.content.map f } else slot := by
  obtain ⟨j, generation⟩ := h
  simp only [Handle.mk.injEq]
  unfold modify
  by_cases hi : i = j
  · subst hi
    cases hslot : s.slots[i]? with
    | none => simp [hslot]
    | some slot =>
      have hlt := (Array.getElem?_eq_some_iff.1 hslot).1
      by_cases hg : slot.generation = generation
      · simp [hg, hlt]
      · simp [hslot, hg]
  · have hid : (s.slots[i]?).map (fun slot =>
        if i = j ∧ slot.generation = generation then
          { slot with content := slot.content.map f } else slot) = s.slots[i]? := by
      simp only [hi, false_and, if_false, Option.map_id']
    rw [hid]
    cases hslot : s.slots[j]? with
    | none => rfl
    | some slot =>
      by_cases hg : slot.generation = generation
      · simp [hg, Array.getElem?_setIfInBounds_ne (Ne.symm hi)]
      · simp [hg]

/-- Changing the value of one handle changes no other. -/
theorem modify_eq_mapHandles (f : α → α) (s : Slots α) (h : Handle) :
    s.modify h f = s.mapHandles fun k a => if k = h then f a else a := by
  refine congrArg₂ Slots.mk (Array.ext_getElem? fun i => ?_) (free_modify f s h)
  show (s.modify h f).slots[i]? = _
  rw [getElem?_modify, Array.getElem?_mapIdx]
  refine Option.map_congr fun slot _ => ?_
  by_cases hh : (⟨i, slot.generation⟩ : Handle) = h
  · simp only [if_pos hh]
  · simp only [if_neg hh, Option.map_id']

end Slots

namespace NodeIndex

variable {x : NodeIndex} {h : Handle} {ids : List Handle}

/-- The index with these nodes marked as held. -/
def markHeld (x : NodeIndex) (ids : List Handle) : NodeIndex :=
  { x with nodes := x.nodes.mapHandles fun h node =>
      if h ∈ ids then { node with held := true } else node }

theorem node?_markHeld (x : NodeIndex) (ids : List Handle) (h : Handle) :
    (x.markHeld ids).node? h = (x.node? h).map fun node =>
      if h ∈ ids then { node with held := true } else node :=
  Slots.get?_mapHandles _ _ _

theorem markHeld_nil (x : NodeIndex) : x.markHeld [] = x := by
  unfold markHeld
  simp only [List.not_mem_nil, if_false, Slots.mapHandles_id]

/-- One node more is held. -/
theorem modify_markHeld (x : NodeIndex) (ids : List Handle) (h : Handle) :
    (x.markHeld ids).modify h (fun node => { node with held := true }) =
      x.markHeld (ids ++ [h]) := by
  unfold markHeld modify
  rw [Slots.modify_eq_mapHandles, Slots.mapHandles_mapHandles]
  congr 2
  funext k node
  by_cases hk : k = h
  · by_cases hmem : h ∈ ids <;> simp [hk, hmem]
  · by_cases hmem : k ∈ ids <;> simp [hk, hmem]

/-- One node less is held. -/
theorem modify_markHeld_cons (hids : h ∉ ids)
    (hfree : ∀ node, x.node? h = some node → node.held = false) :
    (x.markHeld (h :: ids)).modify h (fun node => { node with held := false }) =
      x.markHeld ids := by
  unfold markHeld modify
  rw [Slots.modify_eq_mapHandles, Slots.mapHandles_mapHandles]
  congr 1
  refine Slots.mapHandles_congr fun k node hn => ?_
  by_cases hk : k = h
  · subst hk
    have hheld := hfree node hn
    cases node
    simp_all
  · by_cases hmem : k ∈ ids <;> simp [hk, hmem]

end NodeIndex

namespace LockTable

variable {t u : LockTable} {ids taken rest : List Handle} {id : Handle} {node : Node}

/-- The locks at these nodes can be held in turn: none is listed twice, and each is there and not
held. -/
def Holdable (t : LockTable) (ids : List Handle) : Prop :=
  ids.Nodup ∧ ∀ id ∈ ids, ∃ node, t.index.node? id = some node ∧ node.held = false

/-- Why the lock at a node cannot be held. -/
def refusal (t : LockTable) (id : Handle) : LockError :=
  match t.index.node? id with
  | none => .internal .missingNode
  | some node => .internal (.alreadyHeld node.details.root)

/-- The table `u` is `t` with these nodes held, and these alone are no longer queued. -/
structure Holding (t : LockTable) (ids : List Handle) (u : LockTable) : Prop where
  index : u.index = t.index.markHeld ids
  registry : u.registry = t.registry
  queue : u.queue.WellFormed
  queued : ∀ h due, ⟨due, h⟩ ∈ u.queue.heap.toList ↔ h ∉ ids ∧ ⟨due, h⟩ ∈ t.queue.heap.toList

/-- The table `u` is `t`, but for the order of the queue. -/
structure Restores (t u : LockTable) : Prop where
  index : u.index = t.index
  registry : u.registry = t.registry
  queue : u.queue.WellFormed
  queued : ∀ h due, ⟨due, h⟩ ∈ u.queue.heap.toList ↔ ⟨due, h⟩ ∈ t.queue.heap.toList

/-- The nodes `before` can be held in turn and `id` cannot after them, which is the answer. Letting
go of all of them again succeeds, and leaves `t`. -/
structure RollsBack (t : LockTable) (before : List Handle) (id : Handle)
    (result : Except LockError Unit × LockTable) : Prop where
  holdable : t.Holdable before
  refused : ¬ t.Holdable (before ++ [id])
  answer : result.1 = .error (t.refusal id)
  undone : ∃ u, t.Holding before u ∧ u.hold id = .error (t.refusal id) ∧
    before.foldlM LockTable.unhold u = .ok result.2
  restores : t.Restores result.2

theorem Holdable.nil (t : LockTable) : t.Holdable [] :=
  ⟨List.nodup_nil, fun _ h => absurd h List.not_mem_nil⟩

theorem holdable_append_singleton : t.Holdable (taken ++ [id]) ↔
    t.Holdable taken ∧ id ∉ taken ∧ ∃ node, t.index.node? id = some node ∧ node.held = false := by
  unfold Holdable
  rw [← List.concat_eq_append, List.nodup_concat, List.concat_eq_append,
    List.forall_mem_append, List.forall_mem_singleton]
  exact ⟨fun ⟨⟨h, hnodup⟩, hall, hid⟩ => ⟨⟨hnodup, hall⟩, h, hid⟩,
    fun ⟨⟨hnodup, hall⟩, h, hid⟩ => ⟨⟨h, hnodup⟩, hall, hid⟩⟩

theorem Holdable.of_append (h : t.Holdable (taken ++ rest)) : t.Holdable taken :=
  ⟨h.1.of_append_left, fun id hid => h.2 id (List.mem_append_left _ hid)⟩

theorem holding_nil (hq : t.queue.WellFormed) : t.Holding [] t where
  index := (NodeIndex.markHeld_nil _).symm
  registry := rfl
  queue := hq
  queued h due := by simp

theorem Holding.restores (hu : t.Holding [] u) : t.Restores u where
  index := hu.index.trans (NodeIndex.markHeld_nil _)
  registry := hu.registry
  queue := hu.queue
  queued h due := by simpa using hu.queued h due

/-! ## One node -/

theorem hold_eq (t : LockTable) (id : Handle) : t.hold id =
    match t.index.node? id with
    | none => .error (.internal .missingNode)
    | some node =>
      if node.held then .error (.internal (.alreadyHeld node.details.root))
      else .ok ⟨t.index.modify id fun node => { node with held := true }, t.registry,
        t.queue.erase id⟩ := by
  unfold LockTable.hold LockTable.node
  cases t.index.node? id <;> rfl

theorem Holding.node? (hu : t.Holding ids u) (id : Handle) : u.index.node? id =
    (t.index.node? id).map fun node => if id ∈ ids then { node with held := true } else node := by
  rw [hu.index, NodeIndex.node?_markHeld]

theorem Holding.hold (hu : t.Holding taken u) (h : t.Holdable (taken ++ [id])) :
    ∃ u', u.hold id = .ok u' ∧ t.Holding (taken ++ [id]) u' := by
  obtain ⟨_, hid, node, hn, hfree⟩ := holdable_append_singleton.1 h
  have hn' : u.index.node? id = some node := by rw [hu.node?, hn, Option.map_some, if_neg hid]
  refine ⟨⟨u.index.modify id fun node => { node with held := true }, u.registry,
    u.queue.erase id⟩, ?_, ?_, hu.registry, hu.queue.erase id, fun k due => ?_⟩
  · rw [hold_eq, hn']
    exact if_neg (by rw [hfree]; exact Bool.false_ne_true)
  · rw [hu.index]
    exact NodeIndex.modify_markHeld _ _ _
  · rw [← (hu.queue.erase id).placed.due?_eq_some, ExpiryQueue.due?_erase hu.queue]
    by_cases hk : k = id
    · simp [hk]
    · rw [if_neg hk, hu.queue.placed.due?_eq_some, hu.queued]
      simp [hk]

theorem Holding.hold_error (hu : t.Holding taken u) (htaken : t.Holdable taken)
    (h : ¬ t.Holdable (taken ++ [id])) : u.hold id = .error (t.refusal id) := by
  rw [hold_eq, hu.node?]
  unfold refusal
  cases hn : t.index.node? id with
  | none => rfl
  | some node =>
    by_cases hid : id ∈ taken
    · simp [hid]
    · have hheld : node.held = true := by
        rw [← Bool.not_eq_false]
        exact fun hfree => h (holdable_append_singleton.2 ⟨htaken, hid, node, hn, hfree⟩)
      simp [hid, hheld]

/-- The entry that a node gets back is the one that it had. -/
theorem Holding.unhold (hw : t.WellFormed) (hu : t.Holding (id :: rest) u)
    (h : t.Holdable (id :: rest)) : ∃ u', u.unhold id = .ok u' ∧ t.Holding rest u' := by
  obtain ⟨hid, _⟩ := List.nodup_cons.1 h.1
  obtain ⟨node, hn, hfree⟩ := h.2 id List.mem_cons_self
  have hn' : u.index.node? id = some { node with held := true } := by
    rw [hu.node?, hn, Option.map_some, if_pos List.mem_cons_self]
  have hnone : u.queue.due? id = none := by
    rw [Option.eq_none_iff_forall_ne_some]
    intro due hdue
    rw [hu.queue.placed.due?_eq_some, hu.queued] at hdue
    exact hdue.1 List.mem_cons_self
  obtain ⟨hq, hdue⟩ := due?_schedule (t := u.modify id fun node => { node with held := false })
    node.expiry hu.queue hnone
  refine ⟨(u.modify id fun node => { node with held := false }).schedule id node.expiry,
    ?_, ?_, ?_, hq, fun k due => ?_⟩
  · unfold LockTable.unhold LockTable.node
    rw [hn']
    rfl
  · rw [schedule_eq]
    show u.index.modify id _ = _
    rw [hu.index]
    refine NodeIndex.modify_markHeld_cons hid fun node' hn'' => ?_
    rw [hn, Option.some.injEq] at hn''
    rw [← hn'', hfree]
  · rw [schedule_eq]
    exact hu.registry
  · rw [← hq.placed.due?_eq_some, hdue]
    by_cases hk : k = id
    · subst hk
      rw [if_pos rfl, and_iff_right hid, hw.queued, hn]
      simp [hfree]
    · rw [if_neg hk]
      show u.queue.due? k = _ ↔ _
      rw [hu.queue.placed.due?_eq_some, hu.queued]
      simp [hk]

/-! ## The way back -/

/-- No step on the way back fails. -/
theorem Holding.foldlM_unhold (hw : t.WellFormed) (hu : t.Holding taken u)
    (h : t.Holdable taken) : ∃ u', taken.foldlM LockTable.unhold u = .ok u' ∧
      taken.foldl undoHold u = u' ∧ t.Restores u' := by
  induction taken generalizing u with
  | nil => exact ⟨u, rfl, rfl, hu.restores⟩
  | cons id taken ih =>
    obtain ⟨v, hunhold, hv⟩ := hu.unhold hw h
    obtain ⟨u', hrest, hundo, hrestores⟩ :=
      ih hv ⟨(List.nodup_cons.1 h.1).2, fun k hk => h.2 k (List.mem_cons_of_mem _ hk)⟩
    refine ⟨u', ?_, ?_, hrestores⟩
    · rw [List.foldlM_cons, hunhold]
      exact hrest
    · rw [List.foldl_cons, undoHold, hunhold]
      exact hundo

/-! ## The whole list -/

theorem holdFrom_of_holdable (hu : t.Holding taken u) (h : t.Holdable (taken ++ ids)) :
    ∃ u', holdFrom taken ids u = (.ok (), u') ∧ t.Holding (taken ++ ids) u' := by
  induction ids generalizing taken u with
  | nil => exact ⟨u, rfl, by rwa [List.append_nil]⟩
  | cons id ids ih =>
    rw [List.append_cons] at h ⊢
    obtain ⟨v, hhold, hv⟩ := hu.hold h.of_append
    obtain ⟨u', hrest, hu'⟩ := ih hv h
    refine ⟨u', ?_, hu'⟩
    unfold holdFrom
    rw [hhold]
    exact hrest

/-- The loop goes on to the first node that cannot be held, and from there back. -/
theorem holdFrom_of_not_holdable (ids : List Handle) (hw : t.WellFormed)
    (hu : t.Holding taken u) (htaken : t.Holdable taken) (h : ¬ t.Holdable (taken ++ ids)) :
    ∃ before id rest, ids = before ++ id :: rest ∧
      t.RollsBack (taken ++ before) id (holdFrom taken ids u) := by
  induction ids generalizing taken u with
  | nil => exact absurd htaken (by rwa [List.append_nil] at h)
  | cons id ids ih =>
    unfold holdFrom
    by_cases hid : t.Holdable (taken ++ [id])
    · obtain ⟨v, hhold, hv⟩ := hu.hold hid
      rw [List.append_cons] at h
      obtain ⟨before, other, rest, rfl, hback⟩ := ih hv hid h
      refine ⟨id :: before, other, rest, rfl, ?_⟩
      rw [hhold, List.append_cons]
      exact hback
    · have hrefused := hu.hold_error htaken hid
      obtain ⟨u', hback, hundo, hrestores⟩ := hu.foldlM_unhold hw htaken
      refine ⟨[], id, ids, rfl, ?_⟩
      rw [hrefused, List.append_nil]
      refine ⟨htaken, hid, rfl, ⟨u, hu, hrefused, ?_⟩, ?_⟩
      · rwa [← hundo] at hback
      · rwa [← hundo] at hrestores

/-- Either all nodes are held and nothing else changes, or the first that cannot be held gives the
error and nothing changes at all. -/
theorem WellFormed.holdAll_all_or_none (hw : t.WellFormed) (ids : List Handle) :
    ((t.holdAll ids).1 = .ok () ↔ t.Holdable ids) ∧
      (t.Holdable ids → t.Holding ids (t.holdAll ids).2) ∧
      (¬ t.Holdable ids → ∃ before id rest, ids = before ++ id :: rest ∧
        t.RollsBack before id (t.holdAll ids)) := by
  have hu := holding_nil hw.queue
  have hall (h : t.Holdable ids) : (t.holdAll ids).1 = .ok () ∧ t.Holding ids (t.holdAll ids).2 := by
    obtain ⟨u, hhold, hu'⟩ := holdFrom_of_holdable hu h
    unfold holdAll
    rw [hhold]
    exact ⟨rfl, hu'⟩
  have hnone := holdFrom_of_not_holdable ids hw hu (.nil t)
  refine ⟨⟨fun hok => ?_, fun h => (hall h).1⟩, fun h => (hall h).2, hnone⟩
  by_contra h
  obtain ⟨before, id, rest, rfl, hback⟩ := hnone h
  have hanswer : (t.holdAll _).1 = _ := hback.answer
  rw [hanswer] at hok
  cases hok

/-- A lock that expires, one that does not, and one that a claim holds. -/
def oneHeld : List Call :=
  [.create .epoch { root := "/a", duration := .seconds 5 },
    .create .epoch { root := "/b", duration := .infinite },
    .create .epoch { root := "/c", duration := .seconds 2 },
    .confirm .epoch "/c" "" [.ofToken "10"]]

/-- The node that is listed twice is held, then refused, and then let go of again. -/
theorem holdAll_all_or_none_repeated :
    let t := ((Session.start 7).run oneHeld).2.table
    t.WellFormed ∧ (t.holdAll [⟨0, 0⟩, ⟨2, 0⟩]).1 = .ok () ∧
      t.Holding [⟨0, 0⟩, ⟨2, 0⟩] (t.holdAll [⟨0, 0⟩, ⟨2, 0⟩]).2 ∧
      (t.holdAll [⟨0, 0⟩, ⟨2, 0⟩, ⟨0, 0⟩]).1 = .error (.internal (.alreadyHeld "/a")) ∧
      t.RollsBack [⟨0, 0⟩, ⟨2, 0⟩] ⟨0, 0⟩ (t.holdAll [⟨0, 0⟩, ⟨2, 0⟩, ⟨0, 0⟩]) := by
  intro t
  have hs : ((Session.start 7).run oneHeld).2.Reachable := ⟨7, oneHeld, by decide +kernel, rfl⟩
  have hheld : (t.holdAll [⟨0, 0⟩, ⟨2, 0⟩]).1 = .ok () := by decide +kernel
  obtain ⟨hiff, hholding, -⟩ := hs.wellFormed.holdAll_all_or_none [⟨0, 0⟩, ⟨2, 0⟩]
  have hfirst : t.Holdable [⟨0, 0⟩, ⟨2, 0⟩] := hiff.1 hheld
  have htwice : ¬ t.Holdable [⟨0, 0⟩, ⟨2, 0⟩, ⟨0, 0⟩] := fun h => absurd h.1 (by decide)
  obtain ⟨before, id, rest, hids, hback⟩ :=
    (hs.wellFormed.holdAll_all_or_none [⟨0, 0⟩, ⟨2, 0⟩, ⟨0, 0⟩]).2.2 htwice
  refine ⟨hs.wellFormed, hheld, hholding hfirst, by decide +kernel, ?_⟩
  -- The first two are not refused, since both can be held.
  rcases before with _ | ⟨first, _ | ⟨second, _ | ⟨third, before⟩⟩⟩
  · obtain ⟨rfl, -⟩ := List.cons.inj hids
    have hone : t.Holdable ([⟨0, 0⟩] ++ [⟨2, 0⟩]) := hfirst
    exact absurd hone.of_append hback.refused
  · obtain ⟨rfl, htail⟩ := List.cons.inj hids
    obtain ⟨rfl, -⟩ := List.cons.inj htail
    exact absurd hfirst hback.refused
  · obtain ⟨rfl, htail⟩ := List.cons.inj hids
    obtain ⟨rfl, hlast⟩ := List.cons.inj htail
    obtain ⟨rfl, -⟩ := List.cons.inj hlast
    exact hback
  · simp at hids

-- The first two can be held before the third, but a claim has the third.
example : (((Session.start 7).run oneHeld).2.table.holdAll [⟨0, 0⟩, ⟨2, 0⟩, ⟨3, 0⟩]).1 =
    .error (.internal (.alreadyHeld "/c")) := by
  decide +kernel

end LockTable

end PathLock
