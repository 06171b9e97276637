import Mathlib.Data.List.Nodup
import PathLock.Lock.Slots

/-!
# Slots as a finite map from handles

`WellFormed` says that the empty slots are those to be used next, each listed once. Every operation
keeps it, and does to `get?` what a finite map does: `get?_insert`, `get?_modify`, `get?_erase`. The
handle of a stored value names nothing before (`get?_insert_self_before`), and two handles of stored
values never share a slot (`eq_of_slot_eq`).
-/

namespace PathLock.Slots

variable {α β : Type} {s : Slots α} {h k : Handle} {a b : α}

/-- The free list names the empty slots, each once. -/
structure WellFormed (s : Slots α) : Prop where
  free_nodup : s.free.Nodup
  mem_free : ∀ i, i ∈ s.free ↔ ∃ slot, s.slots[i]? = some slot ∧ slot.content = none

/-- The stored values. -/
def values (s : Slots α) : List α := s.slots.toList.filterMap (·.content)

theorem wellFormed_empty : WellFormed ({} : Slots α) where
  free_nodup := List.nodup_nil
  mem_free := by intro i; simp

theorem get?_eq_some_iff : s.get? h = some a ↔ s.slots[h.slot]? = some ⟨h.generation, some a⟩ := by
  unfold get?
  cases hs : s.slots[h.slot]? with
  | none => simp
  | some slot =>
    obtain ⟨generation, content⟩ := slot
    simp only [Option.some.injEq, Slot.mk.injEq]
    split_ifs with hg
    · simp [hg]
    · simp [hg]

/-- The handles of two stored values differ in the slot. -/
theorem eq_of_slot_eq (ha : s.get? h = some a) (hb : s.get? k = some b) (he : h.slot = k.slot) :
    h = k := by
  rw [get?_eq_some_iff] at ha hb
  rw [he, hb, Option.some.injEq, Slot.mk.injEq] at ha
  cases h; cases k
  rw [Handle.mk.injEq]
  exact ⟨he, ha.1.symm⟩

theorem mem_values : a ∈ s.values ↔ ∃ h, s.get? h = some a := by
  unfold values
  rw [List.mem_filterMap]
  constructor
  · rintro ⟨⟨generation, content⟩, hmem, hc⟩
    obtain ⟨i, hi⟩ := List.mem_iff_getElem?.1 hmem
    rw [Array.getElem?_toList] at hi
    exact ⟨⟨i, generation⟩, get?_eq_some_iff.2 (by rw [hi]; exact congrArg _ (congrArg _ hc))⟩
  · rintro ⟨h, hget⟩
    rw [get?_eq_some_iff, ← Array.getElem?_toList] at hget
    exact ⟨_, List.mem_of_getElem? hget, rfl⟩

/-- What is read off the stored values has no repetition if it tells their handles apart. -/
theorem nodup_filterMap_values {f : α → Option β}
    (hf : ∀ h k a b c, s.get? h = some a → s.get? k = some b → f a = some c → f b = some c →
      h = k) :
    (s.values.filterMap f).Nodup := by
  unfold values
  rw [List.filterMap_filterMap, List.Nodup, List.pairwise_filterMap, List.pairwise_iff_getElem]
  intro i j hi hj hij c hc d hd hcd
  subst hcd
  rw [Array.length_toList] at hi hj
  rw [Option.bind_eq_some_iff, Array.getElem_toList] at hc hd
  obtain ⟨a, ha, hfa⟩ := hc
  obtain ⟨b, hb, hfb⟩ := hd
  have hga : s.get? ⟨i, s.slots[i].generation⟩ = some a := by
    rw [get?_eq_some_iff, Array.getElem?_eq_getElem hi, ← ha]
  have hgb : s.get? ⟨j, s.slots[j].generation⟩ = some b := by
    rw [get?_eq_some_iff, Array.getElem?_eq_getElem hj, ← hb]
  have hslot := congrArg Handle.slot (hf _ _ a b c hga hgb hfa hfb)
  exact absurd hslot (Nat.ne_of_lt hij)

/-! ## Writing one slot -/

theorem get?_set {i generation : Nat} {content : Option α} {free : List Nat}
    (hi : i < s.slots.size) :
    Slots.get? ⟨s.slots.setIfInBounds i ⟨generation, content⟩, free⟩ k =
      if k.slot = i then (if generation = k.generation then content else none) else s.get? k := by
  unfold get?
  by_cases hk : k.slot = i
  · rw [hk, if_pos rfl, Array.getElem?_setIfInBounds_self_of_lt hi]
  · rw [if_neg hk, Array.getElem?_setIfInBounds_ne (Ne.symm hk)]

theorem lt_size_of_get? (hget : s.get? h = some a) : h.slot < s.slots.size :=
  (Array.getElem?_eq_some_iff.1 (get?_eq_some_iff.1 hget)).1

/-- Other handles on the slot of a stored value name nothing. -/
theorem get?_eq_none_of_slot_eq (hget : s.get? h = some a) (hslot : k.slot = h.slot) (hk : k ≠ h) :
    s.get? k = none := by
  cases hb : s.get? k with
  | none => rfl
  | some b => exact absurd (eq_of_slot_eq hb hget hslot) hk

/-! ## Changing a value -/

theorem slots_modify (f : α → α) (hget : s.get? h = some a) :
    s.modify h f = ⟨s.slots.setIfInBounds h.slot ⟨h.generation, some (f a)⟩, s.free⟩ := by
  unfold modify
  rw [get?_eq_some_iff] at hget
  rw [hget]
  exact if_pos rfl

theorem get?_modify (f : α → α) (hget : s.get? h = some a) :
    (s.modify h f).get? k = if k = h then some (f a) else s.get? k := by
  rw [slots_modify f hget, get?_set (lt_size_of_get? hget)]
  by_cases hk : k = h
  · rw [hk, if_pos rfl, if_pos rfl, if_pos rfl]
  · rw [if_neg hk]
    split_ifs with hslot hgen
    · cases h; cases k
      exact absurd (by rw [Handle.mk.injEq]; exact ⟨hslot, hgen.symm⟩) hk
    · exact (get?_eq_none_of_slot_eq hget hslot hk).symm
    · rfl

theorem WellFormed.modify (hs : s.WellFormed) (f : α → α) (hget : s.get? h = some a) :
    (s.modify h f).WellFormed := by
  have hslot := get?_eq_some_iff.1 hget
  rw [slots_modify f hget]
  refine ⟨hs.free_nodup, fun i => ?_⟩
  show i ∈ s.free ↔ _
  rw [hs.mem_free i]
  by_cases hi : h.slot = i
  · subst hi
    rw [Array.getElem?_setIfInBounds_self_of_lt (lt_size_of_get? hget), hslot]
    simp
  · rw [Array.getElem?_setIfInBounds_ne hi]

/-! ## Taking a value out -/

theorem slots_erase (hget : s.get? h = some a) :
    s.erase h = ⟨s.slots.setIfInBounds h.slot ⟨h.generation + 1, none⟩, h.slot :: s.free⟩ := by
  unfold erase
  rw [get?_eq_some_iff] at hget
  rw [hget]
  exact if_pos rfl

theorem get?_erase (hget : s.get? h = some a) :
    (s.erase h).get? k = if k = h then none else s.get? k := by
  rw [slots_erase hget, get?_set (lt_size_of_get? hget), ite_self]
  by_cases hk : k = h
  · rw [hk, if_pos rfl, if_pos rfl]
  · rw [if_neg hk]
    split_ifs with hslot
    · exact (get?_eq_none_of_slot_eq hget hslot hk).symm
    · rfl

theorem WellFormed.erase (hs : s.WellFormed) (hget : s.get? h = some a) :
    (s.erase h).WellFormed := by
  have hslot := get?_eq_some_iff.1 hget
  have hfull : h.slot ∉ s.free := by
    intro hmem
    obtain ⟨slot, hslot', hc⟩ := (hs.mem_free _).1 hmem
    rw [hslot, Option.some.injEq] at hslot'
    rw [← hslot'] at hc
    exact Option.some_ne_none a hc
  rw [slots_erase hget]
  refine ⟨List.nodup_cons.2 ⟨hfull, hs.free_nodup⟩, fun i => ?_⟩
  show i ∈ h.slot :: s.free ↔ _
  rw [List.mem_cons, hs.mem_free i]
  by_cases hi : h.slot = i
  · subst hi
    rw [Array.getElem?_setIfInBounds_self_of_lt (lt_size_of_get? hget)]
    simp
  · rw [Array.getElem?_setIfInBounds_ne hi, or_iff_right (Ne.symm hi)]

/-! ## Putting a value in -/

/-- A value goes to the end or to an empty slot. -/
theorem insert_cases (hs : s.WellFormed) (a : α) :
    (s.free = [] ∧ s.insert a = s.append a) ∨
      ∃ i free generation, s.free = i :: free ∧ s.slots[i]? = some ⟨generation, none⟩ ∧
        s.insert a =
          (⟨i, generation⟩, ⟨s.slots.setIfInBounds i ⟨generation, some a⟩, free⟩) := by
  unfold insert
  cases hfree : s.free with
  | nil => exact .inl ⟨rfl, rfl⟩
  | cons i free =>
    obtain ⟨⟨generation, content⟩, hi, hc⟩ :=
      (hs.mem_free i).1 (by rw [hfree]; exact List.mem_cons_self)
    have hc : content = none := hc
    subst hc
    refine .inr ⟨i, free, generation, rfl, hi, ?_⟩
    simp only [hi]

theorem get?_append : (s.append a).2.get? k = if k = (s.append a).1 then some a else s.get? k := by
  show Slots.get? ⟨s.slots.push ⟨0, some a⟩, s.free⟩ k = if k = ⟨s.slots.size, 0⟩ then some a else _
  split_ifs with hk
  · rw [hk, get?_eq_some_iff, Array.getElem?_push_size]
  · unfold get?
    by_cases hslot : k.slot = s.slots.size
    · have hgen : k.generation ≠ 0 := by
        intro h0
        cases k
        exact hk (by rw [Handle.mk.injEq]; exact ⟨hslot, h0⟩)
      rw [hslot, Array.getElem?_push_size, Array.getElem?_eq_none (Nat.le_refl _)]
      exact if_neg hgen.symm
    · rw [Array.getElem?_push, if_neg hslot]

/-- The handle of a value that is put in named nothing before. -/
theorem get?_insert_self_before (hs : s.WellFormed) (a : α) : s.get? (s.insert a).1 = none := by
  rcases insert_cases hs a with ⟨_, he⟩ | ⟨i, free, generation, _, hi, he⟩
  · rw [he]
    unfold get? append
    rw [Array.getElem?_eq_none (Nat.le_refl _)]
  · rw [he]
    unfold get?
    rw [hi]
    exact if_pos rfl

theorem get?_insert (hs : s.WellFormed) (a : α) :
    (s.insert a).2.get? k = if k = (s.insert a).1 then some a else s.get? k := by
  rcases insert_cases hs a with ⟨_, he⟩ | ⟨i, free, generation, _, hi, he⟩
  · rw [he, get?_append]
  · rw [he]
    show Slots.get? ⟨_, free⟩ k = if k = ⟨i, generation⟩ then _ else _
    rw [get?_set (Array.getElem?_eq_some_iff.1 hi).1]
    by_cases hk : k = ⟨i, generation⟩
    · rw [hk, if_pos rfl, if_pos rfl, if_pos rfl]
    · rw [if_neg hk]
      split_ifs with hslot hgen
      · cases k
        exact absurd (by rw [Handle.mk.injEq]; exact ⟨hslot, hgen.symm⟩) hk
      · unfold get?
        rw [hslot, hi]
        exact (if_neg hgen).symm
      · rfl

theorem WellFormed.insert (hs : s.WellFormed) (a : α) : (s.insert a).2.WellFormed := by
  rcases insert_cases hs a with ⟨hfree, he⟩ | ⟨i, free, generation, hfree, hi, he⟩
  · rw [he]
    refine ⟨hs.free_nodup, fun j => ?_⟩
    show j ∈ s.free ↔ ∃ slot, (s.slots.push ⟨0, some a⟩)[j]? = some slot ∧ slot.content = none
    rw [hs.mem_free j, Array.getElem?_push]
    by_cases hj : j = s.slots.size
    · rw [if_pos hj, hj, Array.getElem?_eq_none (Nat.le_refl _)]
      simp
    · rw [if_neg hj]
  · have hnodup := hs.free_nodup
    rw [hfree, List.nodup_cons] at hnodup
    rw [he]
    refine ⟨hnodup.2, fun j => ?_⟩
    show j ∈ free ↔ ∃ slot, (s.slots.setIfInBounds i _)[j]? = some slot ∧ slot.content = none
    by_cases hj : i = j
    · subst hj
      rw [Array.getElem?_setIfInBounds_self_of_lt (Array.getElem?_eq_some_iff.1 hi).1]
      simpa using hnodup.1
    · rw [Array.getElem?_setIfInBounds_ne hj, ← hs.mem_free j, hfree, List.mem_cons,
        or_iff_right (Ne.symm hj)]

end PathLock.Slots
