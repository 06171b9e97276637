import Mathlib.Data.List.Nodup
import PathLock.Proofs.Queue.Order

/-!
# The queue as a finite map from nodes to instants

A queue is well-formed if its heap is ordered and its table holds exactly the position of every node
in the heap. Both operations keep that, and do to the instants of the queued nodes what a finite map
does: `due?_erase`, `due?_push`. The node that `peek?` answers with expires first (`peek?_eq_some`).
-/

namespace PathLock.ExpiryQueue

variable {q : ExpiryQueue} {i j k p : Nat} {id id' : Handle} {due due' : Instant}

/-! ## The table of positions -/

/-- The node at a position. -/
def idAt (q : ExpiryQueue) (i : Nat) : Option Handle := (q.heap[i]?).map Expiring.id

/-- The table holds the positions of the nodes in the heap. -/
def Placed (q : ExpiryQueue) : Prop := ∀ id i, q.positions[id]? = some i ↔ q.idAt i = some id

/-- A queue whose heap is ordered and whose table is right. -/
structure WellFormed (q : ExpiryQueue) : Prop where
  ordered : Ordered q
  placed : Placed q

/-- The instant at which a queued node expires. -/
def due? (q : ExpiryQueue) (id : Handle) : Option Instant :=
  (q.positions[id]?).bind fun i => (q.heap[i]?).map Expiring.due

theorem wellFormed_empty : WellFormed ({} : ExpiryQueue) where
  ordered := by
    intro i _ hb
    exact absurd (lt_size_of_before hb) (Nat.not_lt_zero i)
  placed := by intro id i; simp [idAt]

theorem Placed.eq_of_idAt (h : Placed q) (hi : q.idAt i = some id) (hj : q.idAt j = some id) :
    i = j := by
  rw [← h] at hi hj
  rw [hi, Option.some.injEq] at hj
  exact hj

theorem idAt_eq_some : q.idAt i = some id ↔ ∃ due, q.heap[i]? = some ⟨due, id⟩ := by
  unfold idAt
  rw [Option.map_eq_some_iff]
  constructor
  · rintro ⟨⟨due, id'⟩, hi, rfl⟩
    exact ⟨due, hi⟩
  · rintro ⟨due, hi⟩
    exact ⟨_, hi, rfl⟩

theorem lt_size_of_idAt (h : q.idAt i = some id) : i < q.heap.size := by
  obtain ⟨due, hi⟩ := idAt_eq_some.1 h
  exact (Array.getElem?_eq_some_iff.1 hi).1

theorem positions_place :
    (q.place i).positions[id]? = if q.idAt i = some id then some i else q.positions[id]? := by
  unfold place idAt
  cases q.heap[i]? with
  | none => rfl
  | some entry =>
    show (q.positions.insert entry.id i)[id]? = _
    rw [Std.TreeMap.getElem?_insert]
    simp only [Std.compare_eq_iff_eq, Option.map_some, Option.some.injEq]

theorem idAt_place : (q.place i).idAt j = q.idAt j := by
  unfold idAt
  rw [heap_place]

theorem idAt_swap (hi : i < q.heap.size) (hj : j < q.heap.size) :
    (q.swap i j).idAt k = q.idAt (Equiv.swap i j k) := by
  unfold idAt
  rw [heap_getElem?_swap hi hj]

theorem positions_swap (hi : i < q.heap.size) (hj : j < q.heap.size) :
    (q.swap i j).positions[id]? =
      if q.idAt i = some id then some j
      else if q.idAt j = some id then some i else q.positions[id]? := by
  have hat := fun k => idAt_swap (k := k) hi hj
  unfold swap at hat ⊢
  simp only [idAt_place] at hat
  rw [positions_place, positions_place, idAt_place, hat, hat, Equiv.swap_apply_left,
    Equiv.swap_apply_right]

theorem Placed.swap (h : Placed q) (hi : i < q.heap.size) (hj : j < q.heap.size) :
    Placed (q.swap i j) := by
  intro id k
  rw [idAt_swap hi hj, positions_swap hi hj]
  split_ifs with h₁ h₂
  · rw [Option.some.injEq]
    constructor
    · rintro rfl
      rwa [Equiv.swap_apply_right]
    · intro hk
      have := h.eq_of_idAt h₁ hk
      rw [eq_comm, Equiv.swap_apply_eq_iff, Equiv.swap_apply_left] at this
      exact this.symm
  · rw [Option.some.injEq]
    constructor
    · rintro rfl
      rwa [Equiv.swap_apply_left]
    · intro hk
      have := h.eq_of_idAt h₂ hk
      rw [eq_comm, Equiv.swap_apply_eq_iff, Equiv.swap_apply_right] at this
      exact this.symm
  · rw [h id k]
    by_cases hki : k = i
    · subst hki
      rw [Equiv.swap_apply_left]
      exact ⟨fun h => absurd h h₁, fun h => absurd h h₂⟩
    · by_cases hkj : k = j
      · subst hkj
        rw [Equiv.swap_apply_right]
        exact ⟨fun h => absurd h h₂, fun h => absurd h h₁⟩
      · rw [Equiv.swap_apply_of_ne_of_ne hki hkj]

/-! ## Sifting moves nodes only -/

theorem heap_swap_perm (q : ExpiryQueue) (i j : Nat) :
    (q.swap i j).heap.toList.Perm q.heap.toList := by
  rw [heap_swap, Array.swapIfInBounds_def]
  split_ifs with hi hj
  · exact Array.perm_iff_toList_perm.1 (Array.swap_perm hi hj)
  · exact List.Perm.refl _
  · exact List.Perm.refl _

/-- The heap of `q'` has the entries of that of `q`, and its table is right. -/
def Rearranged (q q' : ExpiryQueue) : Prop := Placed q' ∧ q'.heap.toList.Perm q.heap.toList

theorem Placed.siftUp (h : Placed q) : Rearranged q (q.siftUp p) := by
  induction q, p using siftUp.induct with
  | case1 q p hp ih =>
    rw [ExpiryQueue.siftUp, if_pos hp]
    obtain ⟨hplaced, hperm⟩ := ih (h.swap (lt_size_of_before hp.2) (lt_size_of_before_right hp.2))
    exact ⟨hplaced, hperm.trans (heap_swap_perm _ _ _)⟩
  | case2 q p hp =>
    rw [ExpiryQueue.siftUp, if_neg hp]
    exact ⟨h, List.Perm.refl _⟩

theorem Placed.siftDown (h : Placed q) : Rearranged q (q.siftDown p).1 := by
  induction q, p using siftDown.induct with
  | case1 q p hb ih =>
    rw [ExpiryQueue.siftDown, if_pos hb]
    obtain ⟨hplaced, hperm⟩ := ih (h.swap (lt_size_of_before_right hb) (lt_size_of_before hb))
    exact ⟨hplaced, hperm.trans (heap_swap_perm _ _ _)⟩
  | case2 q p hb =>
    rw [ExpiryQueue.siftDown, if_neg hb]
    exact ⟨h, List.Perm.refl _⟩

theorem Placed.settle (h : Placed q) : Rearranged q (q.settle p) := by
  have hdown := h.siftDown (p := p)
  unfold ExpiryQueue.settle
  by_cases he : (q.siftDown p).2 = p
  · show Rearranged q (if (q.siftDown p).2 = p then (q.siftDown p).1.siftUp p else (q.siftDown p).1)
    rw [if_pos he]
    obtain ⟨hplaced, hperm⟩ := hdown.1.siftUp (p := p)
    exact ⟨hplaced, hperm.trans hdown.2⟩
  · show Rearranged q (if (q.siftDown p).2 = p then (q.siftDown p).1.siftUp p else (q.siftDown p).1)
    rwa [if_neg he]

/-! ## Contents -/

theorem Placed.due?_eq_some (h : Placed q) : q.due? id = some due ↔ ⟨due, id⟩ ∈ q.heap.toList := by
  unfold due?
  rw [Option.bind_eq_some_iff, List.mem_iff_getElem?]
  constructor
  · rintro ⟨i, hi, hdue⟩
    obtain ⟨due', hentry⟩ := idAt_eq_some.1 ((h id i).1 hi)
    rw [hentry, Option.map_some, Option.some.injEq] at hdue
    exact ⟨i, by rw [Array.getElem?_toList, hentry, ← hdue]⟩
  · rintro ⟨i, hi⟩
    rw [Array.getElem?_toList] at hi
    exact ⟨i, (h id i).2 (idAt_eq_some.2 ⟨due, hi⟩), by rw [hi]; rfl⟩

/-- No node is queued twice. -/
theorem Placed.nodup (h : Placed q) : (q.heap.toList.map Expiring.id).Nodup := by
  rw [List.nodup_iff_getElem?_ne_getElem?]
  intro i j hij hj
  rw [List.getElem?_map, List.getElem?_map, Array.getElem?_toList, Array.getElem?_toList]
  rw [List.length_map, Array.length_toList] at hj
  intro he
  have hid : q.idAt j = some q.heap[j].id := by
    unfold idAt
    rw [Array.getElem?_eq_getElem hj]
    rfl
  exact absurd (h.eq_of_idAt (he.trans hid) hid) (Nat.ne_of_lt hij)

/-! ## Taking a node out -/

theorem fill_last (hp : p = q.heap.size - 1) : q.fill p = ⟨q.heap.pop, q.positions⟩ := by
  simp only [fill, if_pos hp]

theorem fill_of_ne (hp : p ≠ q.heap.size - 1) :
    q.fill p = ⟨(q.heap.swapIfInBounds p (q.heap.size - 1)).pop,
      (({ q with heap := q.heap.swapIfInBounds p (q.heap.size - 1) } : ExpiryQueue).place
        p).positions⟩ := by
  simp only [fill, if_neg hp, heap_place]

theorem heap_fill (hp : p < q.heap.size) :
    (q.fill p).heap = (q.swap p (q.heap.size - 1)).heap.pop := by
  by_cases hlast : p = q.heap.size - 1
  · have hself : (q.swap p p).heap = q.heap := by
      apply Array.ext_getElem?
      intro k
      rw [heap_getElem?_swap hp hp, Equiv.swap_self, Equiv.refl_apply]
    rw [fill_last hlast, ← hlast, hself]
  · rw [fill_of_ne hlast, heap_swap]

theorem getElem?_fill (hp : p < q.heap.size) :
    (q.fill p).heap[k]? =
      if k < q.heap.size - 1 then q.heap[if k = p then q.heap.size - 1 else k]? else none := by
  rw [heap_fill hp, Array.getElem?_pop, heap_getElem?_swap hp (by omega), heap_swap,
    Array.size_swapIfInBounds]
  split_ifs with hk hkp
  · rw [hkp, Equiv.swap_apply_left]
  · rw [Equiv.swap_apply_of_ne_of_ne hkp (by omega)]
  · rfl

/-- The table holds the positions of the nodes in the heap, apart from the node at `p`. -/
def PlacedExcept (q : ExpiryQueue) (p : Nat) : Prop :=
  ∀ id i, q.positions[id]? = some i ↔ i ≠ p ∧ q.idAt i = some id

theorem positions_fill (hp : p < q.heap.size) :
    (q.fill p).positions[id]? =
      if p ≠ q.heap.size - 1 ∧ q.idAt (q.heap.size - 1) = some id then some p
      else q.positions[id]? := by
  by_cases hlast : p = q.heap.size - 1
  · rw [if_neg fun h => h.1 hlast, fill_last hlast]
  · have hat := idAt_swap (k := p) hp (j := q.heap.size - 1) (by omega)
    rw [Equiv.swap_apply_left] at hat
    unfold idAt at hat
    rw [heap_swap] at hat
    rw [fill_of_ne hlast]
    simp only [positions_place, idAt, hat, ne_eq, hlast, not_false_eq_true, true_and]

theorem PlacedExcept.fill (h : PlacedExcept q p) (hp : p < q.heap.size) : Placed (q.fill p) := by
  intro id k
  have hat : (q.fill p).idAt k =
      if k < q.heap.size - 1 then q.idAt (if k = p then q.heap.size - 1 else k) else none := by
    unfold idAt
    rw [getElem?_fill hp]
    split_ifs <;> rfl
  rw [positions_fill hp, hat]
  split_ifs with h₁ hk hkp hk hkp
  · rw [hkp]
    exact ⟨fun _ => h₁.2, fun _ => rfl⟩
  · have hlast := (h id (q.heap.size - 1)).2 ⟨Ne.symm h₁.1, h₁.2⟩
    refine ⟨fun he => absurd (Option.some.inj he).symm hkp, fun he => ?_⟩
    rw [(h id k).2 ⟨hkp, he⟩, Option.some.injEq] at hlast
    omega
  · rw [Option.some.injEq]
    exact ⟨fun he => absurd he (by omega), fun he => absurd he (by simp)⟩
  · rw [h id k, hkp]
    refine ⟨fun he => absurd rfl he.1, fun he => absurd ⟨?_, he⟩ h₁⟩
    omega
  · rw [h id k]
    exact and_iff_right hkp
  · rw [h id k]
    refine ⟨fun he => ?_, fun he => absurd he (by simp)⟩
    have hsize := lt_size_of_idAt he.2
    have hk' : k = q.heap.size - 1 := by omega
    subst hk'
    exact absurd ⟨Ne.symm he.1, he.2⟩ h₁

theorem fill_perm {entry : Expiring} (hp : q.heap[p]? = some entry) :
    q.heap.toList.Perm (entry :: (q.fill p).heap.toList) := by
  have hlt := (Array.getElem?_eq_some_iff.1 hp).1
  have hlast : entry ∈ (q.swap p (q.heap.size - 1)).heap.toList.getLast? := by
    rw [List.getLast?_eq_getElem?, Array.length_toList, Array.getElem?_toList, heap_swap,
      Array.size_swapIfInBounds, ← heap_swap, heap_getElem?_swap hlt (by omega),
      Equiv.swap_apply_right, hp]
    rfl
  have hperm := heap_swap_perm q p (q.heap.size - 1)
  rw [← List.dropLast_append_getLast? _ hlast, ← Array.toList_pop, ← heap_fill hlt] at hperm
  exact hperm.symm.trans List.perm_append_comm

theorem Ordered.fill (h : Ordered q) (hp : p < q.heap.size) : OrderedExcept (q.fill p) p := by
  have hheap : ∀ i, i ≠ p → ∀ e, (q.fill p).heap[i]? = some e → q.heap[i]? = some e := by
    intro i hi e he
    rw [getElem?_fill hp, if_neg hi] at he
    split_ifs at he
    exact he
  refine ⟨fun i hi hip hpar hb => ?_, fun hp0 c hc hb => ?_⟩
  · exact h i hi (before_of_heap (hheap _ hip) (hheap _ hpar) hb)
  · have hcp := h c hc.1
    rw [hc.2] at hcp
    refine not_before_trans hp hcp (h p hp0) (before_of_heap (hheap _ ?_) (hheap _ ?_) hb)
    · have := hc.2
      have := hc.1
      omega
    · omega

/-- Taking out the node at a position leaves a right queue of the others. -/
theorem removeAt_spec {entry : Expiring} (ho : Ordered q) (hq : PlacedExcept q p)
    (hp : q.heap[p]? = some entry) :
    WellFormed (q.removeAt p) ∧ q.heap.toList.Perm (entry :: (q.removeAt p).heap.toList) := by
  have hlt := (Array.getElem?_eq_some_iff.1 hp).1
  have hplaced := hq.fill hlt
  have hperm := fill_perm hp
  have hord := ho.fill hlt
  unfold removeAt
  by_cases hps : p < (q.fill p).heap.size
  · simp only [if_pos hps]
    obtain ⟨hplaced', hperm'⟩ := hplaced.settle (p := p)
    exact ⟨⟨ordered_settle hord, hplaced'⟩, hperm.trans (hperm'.symm.cons _)⟩
  · simp only [if_neg hps]
    refine ⟨⟨hord.ordered (fun _ hb => hps (lt_size_of_before hb)) fun c _ hb => ?_, hplaced⟩,
      hperm⟩
    exact hps (lt_size_of_before_right hb)

theorem erase_of_none (h : q.positions[id]? = none) : q.erase id = q := by
  unfold erase remove
  rw [h]

/-- A queued node is taken out with its entry, and nothing else. -/
theorem erase_spec (h : WellFormed q) (hdue : q.due? id = some due) :
    WellFormed (q.erase id) ∧ q.heap.toList.Perm (⟨due, id⟩ :: (q.erase id).heap.toList) := by
  unfold due? at hdue
  obtain ⟨pos, hpos, hdue⟩ := Option.bind_eq_some_iff.1 hdue
  obtain ⟨due', hentry⟩ := idAt_eq_some.1 ((h.placed id pos).1 hpos)
  rw [hentry, Option.map_some, Option.some.injEq] at hdue
  subst hdue
  have hexcept : PlacedExcept { q with positions := q.positions.erase id } pos := by
    intro id' i
    show (q.positions.erase id)[id']? = some i ↔ i ≠ pos ∧ q.idAt i = some id'
    rw [Std.TreeMap.getElem?_erase]
    split_ifs with hid
    · rw [Std.compare_eq_iff_eq] at hid
      subst hid
      refine ⟨fun he => absurd he (by simp), fun he => ?_⟩
      rw [← h.placed, hpos, Option.some.injEq] at he
      exact absurd he.2.symm he.1
    · rw [Std.compare_eq_iff_eq] at hid
      rw [h.placed id' i]
      refine ⟨fun he => ⟨?_, he⟩, And.right⟩
      rintro rfl
      rw [(h.placed id i).1 hpos, Option.some.injEq] at he
      exact hid he
  have herase :
      q.erase id = ({ q with positions := q.positions.erase id } : ExpiryQueue).removeAt pos := by
    unfold erase remove
    rw [hpos]
  rw [herase]
  exact removeAt_spec h.ordered hexcept hentry

theorem positions_eq_none (h : WellFormed q) (hdue : q.due? id = none) :
    q.positions[id]? = none := by
  cases hpos : q.positions[id]? with
  | none => rfl
  | some pos =>
    obtain ⟨due, hentry⟩ := idAt_eq_some.1 ((h.placed id pos).1 hpos)
    rw [due?, hpos, Option.bind_some, hentry] at hdue
    exact absurd hdue (by simp)

theorem WellFormed.erase (h : WellFormed q) (id : Handle) : WellFormed (q.erase id) := by
  cases hdue : q.due? id with
  | none => rwa [erase_of_none (positions_eq_none h hdue)]
  | some due => exact (erase_spec h hdue).1

theorem due?_erase (h : WellFormed q) :
    (q.erase id).due? id' = if id' = id then none else q.due? id' := by
  cases hdue : q.due? id with
  | none =>
    rw [erase_of_none (positions_eq_none h hdue)]
    split_ifs with hid
    · rw [hid, hdue]
    · rfl
  | some due =>
    obtain ⟨herase, hperm⟩ := erase_spec h hdue
    have hnodup := (hperm.map Expiring.id).nodup_iff.1 h.placed.nodup
    rw [List.map_cons, List.nodup_cons] at hnodup
    apply Option.ext
    intro due'
    rw [herase.placed.due?_eq_some]
    split_ifs with hid
    · rw [hid]
      exact ⟨fun hm => absurd (List.mem_map.2 ⟨_, hm, rfl⟩) hnodup.1, fun hm => absurd hm (by simp)⟩
    · rw [h.placed.due?_eq_some, hperm.mem_iff, List.mem_cons, or_iff_right]
      rw [Expiring.mk.injEq]
      exact fun he => hid he.2

theorem size_erase (h : WellFormed q) (hdue : q.due? id = some due) :
    (q.erase id).size + 1 = q.size := by
  have hperm := (erase_spec h hdue).2
  have hlen := hperm.length_eq
  rw [List.length_cons, Array.length_toList, Array.length_toList] at hlen
  exact hlen.symm

/-! ## Queueing a node -/

theorem Placed.append (h : Placed q) (hfresh : q.positions[id]? = none) :
    Placed ⟨q.heap.push ⟨due, id⟩, q.positions.insert id q.heap.size⟩ := by
  have hat : ∀ k,
      (⟨q.heap.push ⟨due, id⟩, q.positions.insert id q.heap.size⟩ : ExpiryQueue).idAt k =
        if k = q.heap.size then some id else q.idAt k := by
    intro k
    unfold idAt
    rw [Array.getElem?_push]
    split_ifs <;> rfl
  intro id' k
  rw [hat]
  show (q.positions.insert id q.heap.size)[id']? = _ ↔ _
  rw [Std.TreeMap.getElem?_insert]
  split_ifs with hid hk hk
  · rw [Std.compare_eq_iff_eq] at hid
    rw [hid, hk]
    exact ⟨fun _ => rfl, fun _ => rfl⟩
  · rw [Std.compare_eq_iff_eq] at hid
    subst hid
    rw [Option.some.injEq, ← h, hfresh]
    exact ⟨fun he => absurd he.symm hk, fun he => absurd he (by simp)⟩
  · rw [Std.compare_eq_iff_eq] at hid
    rw [h id' k, Option.some.injEq]
    exact ⟨fun he => absurd (lt_size_of_idAt he) (by omega), fun he => absurd he hid⟩
  · exact h id' k

/-- A node at the end may have to move up, and nothing lies below it. -/
theorem Ordered.append (h : Ordered q) :
    UpOrder ⟨q.heap.push ⟨due, id⟩, q.positions.insert id q.heap.size⟩ q.heap.size := by
  have hheap : ∀ i, i ≠ q.heap.size → ∀ e,
      (q.heap.push ⟨due, id⟩)[i]? = some e → q.heap[i]? = some e := by
    intro i hi e he
    rwa [Array.getElem?_push, if_neg hi] at he
  have hchild : ∀ c, IsChild c q.heap.size → ∀ j, ¬ ExpiryQueue.before
      ⟨q.heap.push ⟨due, id⟩, q.positions.insert id q.heap.size⟩ c j := by
    intro c hc j hb
    have hsize := lt_size_of_before hb
    rw [Array.size_push] at hsize
    unfold IsChild at hc
    omega
  refine ⟨⟨fun i hi hin hpar hb => ?_, fun _ c hc => hchild c hc _⟩, fun c hc => hchild c hc _⟩
  exact h i hi (before_of_heap (hheap _ hin) (hheap _ hpar) hb)

theorem push_spec (h : WellFormed q) (id : Handle) (due : Instant) :
    WellFormed (q.push id due) ∧
      (q.push id due).heap.toList.Perm (⟨due, id⟩ :: (q.erase id).heap.toList) := by
  have herase := h.erase id
  have hnone : (q.erase id).due? id = none := by rw [due?_erase h, if_pos rfl]
  have hfresh := positions_eq_none herase hnone
  unfold push
  generalize q.erase id = r at herase hfresh ⊢
  have hup : UpOrder ⟨r.heap.push ⟨due, id⟩, r.positions.insert id r.heap.size⟩ _ :=
    herase.ordered.append
  obtain ⟨hplaced, hperm⟩ := (herase.placed.append hfresh).siftUp (p := r.heap.size)
  refine ⟨⟨hup.siftUp, hplaced⟩, hperm.trans ?_⟩
  rw [Array.toList_push]
  exact List.perm_append_comm

theorem WellFormed.push (h : WellFormed q) (id : Handle) (due : Instant) :
    WellFormed (q.push id due) := (push_spec h id due).1

theorem due?_push (h : WellFormed q) :
    (q.push id due).due? id' = if id' = id then some due else q.due? id' := by
  obtain ⟨hpush, hperm⟩ := push_spec h id due
  have herase := h.erase id
  apply Option.ext
  intro due'
  rw [hpush.placed.due?_eq_some, hperm.mem_iff, List.mem_cons, Expiring.mk.injEq,
    ← herase.placed.due?_eq_some, due?_erase h]
  split_ifs with hid
  · rw [hid, Option.some.injEq]
    constructor
    · rintro (⟨rfl, -⟩ | he)
      · rfl
      · exact absurd he (by simp)
    · rintro rfl
      exact .inl ⟨rfl, rfl⟩
  · exact or_iff_right fun he => hid he.2

/-! ## The node that expires first -/

theorem peek?_eq_some {entry : Expiring} (h : WellFormed q) (hpeek : q.peek? = some entry) :
    q.due? entry.id = some entry.due ∧ ∀ id due, q.due? id = some due → entry.due ≤ due := by
  unfold peek? at hpeek
  refine ⟨?_, fun id due hdue => ?_⟩
  · rw [h.placed.due?_eq_some, List.mem_iff_getElem?]
    exact ⟨0, by rw [Array.getElem?_toList, hpeek]⟩
  · rw [h.placed.due?_eq_some] at hdue
    obtain ⟨i, hi⟩ := List.mem_iff_getElem?.1 hdue
    rw [Array.getElem?_toList] at hi
    exact not_lt.1 fun hlt => h.ordered.not_before_zero i (before_iff.2 ⟨_, _, hi, hpeek, hlt⟩)

theorem peek?_eq_none (hpeek : q.peek? = none) : q.due? id = none := by
  unfold peek? at hpeek
  have hsize := Array.getElem?_eq_none_iff.1 hpeek
  unfold due?
  rw [Option.bind_eq_none_iff]
  intro i _
  rw [Array.getElem?_eq_none (by omega)]
  rfl

end PathLock.ExpiryQueue
