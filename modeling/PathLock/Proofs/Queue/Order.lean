import Mathlib.Logic.Equiv.Basic
import PathLock.Lock.ExpiryQueue
import PathLock.Proofs.Time.Instant

/-!
# The heap order of the queue

`Ordered` says that no node expires before its parent. Both sifts end with an ordered heap
(`UpOrder.siftUp`, `DownOrder.siftDown`), and so does the choice between them after a removal
(`ordered_settle`), from a heap in which one position is out of order.
-/

namespace PathLock.ExpiryQueue

variable {q : ExpiryQueue} {i j k p c : Nat}

/-! ## Comparing positions -/

theorem before_iff : q.before i j = true ↔
    ∃ a b, q.heap[i]? = some a ∧ q.heap[j]? = some b ∧ a.due < b.due := by
  unfold before
  cases q.heap[i]? <;> cases q.heap[j]? <;> simp

theorem not_before_self : ¬ q.before i i := by
  rw [before_iff]
  rintro ⟨a, b, ha, hb, hlt⟩
  rw [ha, Option.some.injEq] at hb
  exact lt_irrefl _ (hb ▸ hlt)

theorem before_asymm (h : q.before i j) : ¬ q.before j i := by
  obtain ⟨a, b, ha, hb, hlt⟩ := before_iff.1 h
  rw [before_iff]
  rintro ⟨b', a', hb', ha', hlt'⟩
  rw [ha, Option.some.injEq] at ha'
  rw [hb, Option.some.injEq] at hb'
  subst ha' hb'
  exact lt_asymm hlt hlt'

theorem not_before_trans (hj : j < q.heap.size) (hij : ¬ q.before i j) (hjk : ¬ q.before j k) :
    ¬ q.before i k := by
  rw [before_iff] at hij hjk ⊢
  rintro ⟨a, c, ha, hc, hlt⟩
  have hb := Array.getElem?_eq_getElem hj
  have hba : q.heap[j].due ≤ a.due := not_lt.1 fun h => hij ⟨a, _, ha, hb, h⟩
  have hcb : c.due ≤ q.heap[j].due := not_lt.1 fun h => hjk ⟨_, c, hb, hc, h⟩
  exact absurd hlt (not_lt.2 (le_trans hcb hba))

theorem lt_size_of_before_right (h : q.before i j) : j < q.heap.size := by
  obtain ⟨_, b, _, hb, _⟩ := before_iff.1 h
  exact (Array.getElem?_eq_some_iff.1 hb).1

/-- Where two queues have the same nodes, they compare alike. -/
theorem before_of_heap {q' : ExpiryQueue} (hi : ∀ e, q'.heap[i]? = some e → q.heap[i]? = some e)
    (hj : ∀ e, q'.heap[j]? = some e → q.heap[j]? = some e) (h : q'.before i j) : q.before i j := by
  obtain ⟨a, b, ha, hb, hlt⟩ := before_iff.1 h
  exact before_iff.2 ⟨a, b, hi a ha, hj b hb, hlt⟩

theorem heap_getElem?_swap (hi : i < q.heap.size) (hj : j < q.heap.size) :
    (q.swap i j).heap[k]? = q.heap[Equiv.swap i j k]? := by
  rw [heap_swap, Array.swapIfInBounds_def, dif_pos hi, dif_pos hj, Array.getElem?_swap,
    Equiv.swap_apply_def]
  by_cases hkj : j = k
  · subst hkj
    by_cases hki : j = i
    · subst hki
      rw [if_pos rfl, if_pos rfl, Array.getElem?_eq_getElem hj]
    · rw [if_pos rfl, if_neg hki, if_pos rfl, Array.getElem?_eq_getElem hi]
  · by_cases hki : k = i
    · rw [if_neg hkj, if_pos hki.symm, if_pos hki, Array.getElem?_eq_getElem hj]
    · rw [if_neg hkj, if_neg (Ne.symm hki), if_neg hki, if_neg (Ne.symm hkj)]

theorem before_swap (hi : i < q.heap.size) (hj : j < q.heap.size) (a b : Nat) :
    (q.swap i j).before a b = q.before (Equiv.swap i j a) (Equiv.swap i j b) := by
  unfold before
  rw [heap_getElem?_swap hi hj, heap_getElem?_swap hi hj]

/-! ## Order, and order apart from one position -/

/-- No node expires before its parent. -/
def Ordered (q : ExpiryQueue) : Prop := ∀ i, 0 < i → ¬ q.before i ((i - 1) / 2)

/-- `c` is a position just below `p`. -/
def IsChild (c p : Nat) : Prop := 0 < c ∧ (c - 1) / 2 = p

/-- No node expires before its parent, those at `p` and just below it apart; and none just below `p`
expires before the parent of `p`. -/
structure OrderedExcept (q : ExpiryQueue) (p : Nat) : Prop where
  except : ∀ i, 0 < i → i ≠ p → (i - 1) / 2 ≠ p → ¬ q.before i ((i - 1) / 2)
  bridged : 0 < p → ∀ c, IsChild c p → ¬ q.before c ((p - 1) / 2)

/-- What moving up needs: only the node at `p` may expire before its parent. -/
structure UpOrder (q : ExpiryQueue) (p : Nat) : Prop extends OrderedExcept q p where
  below : ∀ c, IsChild c p → ¬ q.before c p

/-- What moving down needs: only nodes just below `p` may expire before the one at `p`. -/
structure DownOrder (q : ExpiryQueue) (p : Nat) : Prop extends OrderedExcept q p where
  above : 0 < p → ¬ q.before p ((p - 1) / 2)

theorem OrderedExcept.ordered (h : OrderedExcept q p) (above : 0 < p → ¬ q.before p ((p - 1) / 2))
    (below : ∀ c, IsChild c p → ¬ q.before c p) : Ordered q := by
  intro i hi
  by_cases hip : i = p
  · subst hip
    exact above hi
  · by_cases hpar : (i - 1) / 2 = p
    · rw [hpar]
      exact below i ⟨hi, hpar⟩
    · exact h.except i hi hip hpar

/-- The first node of an ordered heap expires first. -/
theorem Ordered.not_before_zero (h : Ordered q) : ∀ i, ¬ q.before i 0 := by
  intro i
  induction i using Nat.strongRecOn with
  | ind i ih =>
    by_cases hi : i = 0
    · rw [hi]
      exact not_before_self
    · intro hb
      have hsize := lt_size_of_before hb
      exact not_before_trans (by omega) (h i (by omega)) (ih ((i - 1) / 2) (by omega)) hb

/-! ## Moving up -/

theorem UpOrder.swap (h : UpOrder q p) (hp : 0 < p) (hb : q.before p ((p - 1) / 2)) :
    UpOrder (q.swap p ((p - 1) / 2)) ((p - 1) / 2) := by
  have hps := lt_size_of_before hb
  have hqs := lt_size_of_before_right hb
  generalize hq : (p - 1) / 2 = r at hb hqs ⊢
  have hrp : r < p := by omega
  refine ⟨⟨fun i hi hir hpar => ?_, fun hr c hc => ?_⟩, fun c hc => ?_⟩
  · have hip : i ≠ p := by rintro rfl; exact hpar hq
    rw [before_swap hps hqs, Equiv.swap_apply_of_ne_of_ne hip hir]
    by_cases hpp : (i - 1) / 2 = p
    · rw [hpp, Equiv.swap_apply_left, ← hq]
      exact h.bridged hp i ⟨hi, hpp⟩
    · rw [Equiv.swap_apply_of_ne_of_ne hpp hpar]
      exact h.except i hi hip hpp
  · have hup : ¬ q.before r ((r - 1) / 2) := h.except r hr (by omega) (by omega)
    rw [before_swap hps hqs, Equiv.swap_apply_of_ne_of_ne (x := (r - 1) / 2) (by omega) (by omega)]
    by_cases hcp : c = p
    · rw [hcp, Equiv.swap_apply_left]
      exact hup
    · have hcr := h.except c hc.1 hcp (by rw [hc.2]; omega)
      rw [hc.2] at hcr
      rw [Equiv.swap_apply_of_ne_of_ne hcp (by have := hc.2; omega)]
      exact not_before_trans hqs hcr hup
  · rw [before_swap hps hqs, Equiv.swap_apply_right]
    by_cases hcp : c = p
    · rw [hcp, Equiv.swap_apply_left]
      exact before_asymm hb
    · have hcr := h.except c hc.1 hcp (by rw [hc.2]; omega)
      rw [hc.2] at hcr
      rw [Equiv.swap_apply_of_ne_of_ne hcp (by have := hc; unfold IsChild at this; omega)]
      exact not_before_trans hqs hcr (before_asymm hb)

theorem UpOrder.siftUp (h : UpOrder q p) : Ordered (q.siftUp p) := by
  induction q, p using siftUp.induct with
  | case1 q p hp ih =>
    rw [ExpiryQueue.siftUp, if_pos hp]
    exact ih (h.swap hp.1 hp.2)
  | case2 q p hp =>
    rw [ExpiryQueue.siftUp, if_neg hp]
    exact h.toOrderedExcept.ordered (fun h0 hb => hp ⟨h0, hb⟩) h.below

/-! ## Moving down -/

theorem isChild_iff : IsChild c p ↔ c = 2 * p + 1 ∨ c = 2 * p + 2 := by
  unfold IsChild
  omega

theorem isChild_firstChild : IsChild (q.firstChild p) p := by
  unfold firstChild
  rw [isChild_iff]
  split_ifs <;> simp

/-- No node just below `p` expires before the one chosen. -/
theorem not_before_firstChild (hc : IsChild c p) : ¬ q.before c (q.firstChild p) := by
  unfold firstChild
  rcases isChild_iff.1 hc with rfl | rfl
  · split_ifs with h
    · exact before_asymm h
    · exact not_before_self
  · split_ifs with h
    · exact not_before_self
    · exact h

theorem firstChild_lt_size (hc : IsChild c p) (hs : c < q.heap.size) :
    q.firstChild p < q.heap.size := by
  have hc := isChild_iff.1 hc
  unfold firstChild
  split_ifs with h
  · exact lt_size_of_before h
  · omega

theorem OrderedExcept.swap (h : OrderedExcept q p) (hb : q.before (q.firstChild p) p) :
    DownOrder (q.swap p (q.firstChild p)) (q.firstChild p) := by
  have hcs := lt_size_of_before hb
  have hps := lt_size_of_before_right hb
  have hfirst := @not_before_firstChild q
  obtain ⟨hf0, hfp⟩ := isChild_firstChild (q := q) (p := p)
  specialize @hfirst p
  generalize q.firstChild p = f at hb hcs hfirst hf0 hfp ⊢
  have hpf : p < f := by omega
  refine ⟨⟨fun i hi hif hpar => ?_, fun _ d hd => ?_⟩, fun _ => ?_⟩
  · rw [before_swap hps hcs]
    by_cases hip : i = p
    · subst hip
      rw [Equiv.swap_apply_left, Equiv.swap_apply_of_ne_of_ne (by omega) hpar]
      exact h.bridged hi f ⟨hf0, hfp⟩
    · rw [Equiv.swap_apply_of_ne_of_ne hip hif]
      by_cases hpp : (i - 1) / 2 = p
      · rw [hpp, Equiv.swap_apply_left]
        exact hfirst ⟨hi, hpp⟩
      · rw [Equiv.swap_apply_of_ne_of_ne hpp hpar]
        exact h.except i hi hip hpp
  · have hdf := h.except d hd.1 (by have := hd.2; omega) (by rw [hd.2]; omega)
    rw [hd.2] at hdf
    have hne : d ≠ p := by
      unfold IsChild at hd
      omega
    rw [before_swap hps hcs, hfp, Equiv.swap_apply_left,
      Equiv.swap_apply_of_ne_of_ne hne (by have := hd.2; omega)]
    exact hdf
  · rw [before_swap hps hcs, hfp, Equiv.swap_apply_left, Equiv.swap_apply_right]
    exact before_asymm hb

theorem below_of_not_before (hb : ¬ q.before (q.firstChild p) p) :
    ∀ c, IsChild c p → ¬ q.before c p := by
  intro c hc hcp
  exact not_before_trans (firstChild_lt_size hc (lt_size_of_before hcp)) (not_before_firstChild hc)
    hb hcp

theorem DownOrder.siftDown (h : DownOrder q p) : Ordered (q.siftDown p).1 := by
  induction q, p using siftDown.induct with
  | case1 q p hb ih =>
    rw [ExpiryQueue.siftDown, if_pos hb]
    exact ih (h.toOrderedExcept.swap hb)
  | case2 q p hb =>
    rw [ExpiryQueue.siftDown, if_neg hb]
    exact h.toOrderedExcept.ordered h.above (below_of_not_before hb)

theorem le_siftDown : p ≤ (q.siftDown p).2 := by
  induction q, p using siftDown.induct with
  | case1 q p hb ih =>
    rw [siftDown, if_pos hb]
    exact Nat.le_trans (Nat.le_of_lt (pos_lt_firstChild q p)) ih
  | case2 q p hb =>
    have stays : (q.siftDown p).2 = p := by rw [siftDown, if_neg hb]
    exact Nat.le_of_eq stays.symm

/-- A node that replaces another is moved to where it belongs, whichever way that is. -/
theorem ordered_settle (h : OrderedExcept q p) : Ordered (q.settle p) := by
  unfold settle
  by_cases hb : q.before (q.firstChild p) p
  · have hlt : p < (q.siftDown p).2 := by
      rw [siftDown, if_pos hb]
      exact Nat.lt_of_lt_of_le (pos_lt_firstChild q p) le_siftDown
    show Ordered (if (q.siftDown p).2 = p then (q.siftDown p).1.siftUp p else (q.siftDown p).1)
    rw [if_neg (Nat.ne_of_gt hlt), siftDown, if_pos hb]
    exact (h.swap hb).siftDown
  · show Ordered (if (q.siftDown p).2 = p then (q.siftDown p).1.siftUp p else (q.siftDown p).1)
    rw [siftDown, if_neg hb, if_pos rfl]
    exact UpOrder.siftUp ⟨h, below_of_not_before hb⟩

end PathLock.ExpiryQueue
