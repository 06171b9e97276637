/-!
# Slots with generations

A store that hands out a handle for each value put in. Slots of erased values are used again, with
the next generation, so that a handle never resolves to a value stored later.

* `Slots.insert`, `Slots.erase`, `Slots.modify`, `Slots.get?`.
-/

namespace PathLock

/-- The name of a stored value: a slot and the generation of the slot when the value was stored. -/
structure Handle where
  slot : Nat
  generation : Nat
deriving DecidableEq, Repr

namespace Handle

/-- Handles are ordered by slot, then by generation. -/
instance : Ord Handle where
  compare := compareLex (compareOn slot) (compareOn generation)

instance : Std.TransOrd Handle :=
  inferInstanceAs (Std.TransCmp (compareLex (compareOn slot) (compareOn generation)))

instance : Std.LawfulEqOrd Handle where
  eq_of_compare {a b} h := by
    have h : compareLex (compareOn slot) (compareOn generation) a b = .eq := h
    simp only [compareLex, compareOn, Ordering.then_eq_eq, Std.LawfulEqOrd.compare_eq_iff_eq] at h
    cases a; cases b; simp_all

end Handle

/-- One slot: the generation it is in, and what it holds. -/
structure Slot (α : Type) where
  generation : Nat
  content : Option α
deriving Repr

/-- Slots and the list of those to be used next. -/
structure Slots (α : Type) where
  slots : Array (Slot α) := #[]
  free : List Nat := []
deriving Repr

namespace Slots

variable {α : Type}

/-- The value that a handle names, if it is still there. -/
def get? (s : Slots α) (h : Handle) : Option α :=
  match s.slots[h.slot]? with
  | some slot => if slot.generation = h.generation then slot.content else none
  | none => none

/-- Changes the value that a handle names, if it is still there. -/
def modify (s : Slots α) (h : Handle) (f : α → α) : Slots α :=
  match s.slots[h.slot]? with
  | some slot =>
    if slot.generation = h.generation then
      { s with slots := s.slots.setIfInBounds h.slot { slot with content := slot.content.map f } }
    else s
  | none => s

/-- Stores a value in a new slot at the end. -/
def append (s : Slots α) (a : α) : Handle × Slots α :=
  (⟨s.slots.size, 0⟩, { s with slots := s.slots.push ⟨0, some a⟩ })

/-- Stores a value, in the slot that was freed last if there is one. -/
def insert (s : Slots α) (a : α) : Handle × Slots α :=
  match s.free with
  | [] => s.append a
  | i :: free =>
    match s.slots[i]? with
    | some slot =>
      (⟨i, slot.generation⟩,
        { slots := s.slots.setIfInBounds i { slot with content := some a }, free })
    | none => s.append a

/-- Frees the slot that a handle names, if the value is still there. -/
def erase (s : Slots α) (h : Handle) : Slots α :=
  match s.slots[h.slot]? with
  | some slot =>
    if slot.generation = h.generation then
      { slots := s.slots.setIfInBounds h.slot ⟨slot.generation + 1, none⟩, free := h.slot :: s.free }
    else s
  | none => s

end Slots

end PathLock
