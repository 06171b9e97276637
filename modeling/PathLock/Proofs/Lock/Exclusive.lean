import Mathlib.Data.List.Pairwise
import PathLock.Proofs.Lock.Ledger

/-!
# Exclusion

No lock of a ledger stands in the way of another (`Ledger.Exclusive`), so at most one lock covers a
name (`Lock.Apart.not_covers`). A lock is only created where none is in the way, and every other
operation takes locks out or leaves their roots and depths alone.
-/

namespace PathLock

namespace Lock

variable {a b : Lock} {name : String}

/-- Neither lock stands in the way of the other. -/
def Apart (a b : Lock) : Prop := ¬ a.Conflicts b.root b.details.zeroDepth

theorem Apart.symm (h : a.Apart b) : b.Apart a := by
  intro hc
  apply h
  rcases hc with hroot | ⟨hdepth, hs⟩ | ⟨hdepth, hs⟩
  · exact .inl hroot.symm
  · exact .inr (.inr ⟨hdepth, hs⟩)
  · exact .inr (.inl ⟨hdepth, hs⟩)

instance : Std.Symm Apart where
  symm _ _ h := h.symm

theorem Covers.within (ha : Path.IsClean a.root) (hn : Path.IsClean name) (h : a.Covers name) :
    Path.Within a.root name := by
  rcases h with rfl | ⟨_, hs⟩
  · exact Path.Within.refl _
  · exact ((Path.strictlyWithin_iff ha hn).1 hs).1

/-- If two locks cover a name, the upper one of them reaches down to the root of the other. -/
theorem Covers.conflicts (ha : Path.IsClean a.root) (hb : Path.IsClean b.root)
    (hn : Path.IsClean name) (hca : a.Covers name) (hcb : b.Covers name)
    (hab : Path.Within a.root b.root) : a.Conflicts b.root b.details.zeroDepth := by
  by_cases heq : a.root = b.root
  · exact .inl heq
  · refine .inr (.inl ⟨?_, (Path.strictlyWithin_iff ha hb).2 ⟨hab, heq⟩⟩)
    rcases hca with rfl | ⟨hdepth, _⟩
    · exact absurd (Path.Within.antisymm ha hb hab (hcb.within hb hn)) heq
    · exact hdepth

/-- Of two locks apart, at most one covers a name. -/
theorem Apart.not_covers (h : a.Apart b) (ha : Path.IsClean a.root) (hb : Path.IsClean b.root)
    (hn : Path.IsClean name) (hca : a.Covers name) : ¬ b.Covers name := by
  intro hcb
  rcases (hca.within ha hn).total (hcb.within hb hn) with hab | hba
  · exact h (hca.conflicts ha hb hn hcb hab)
  · exact h.symm (hcb.conflicts hb ha hn hca hba)

end Lock

namespace Ledger

variable {l : Ledger} {a b : Lock} {name : String}

/-- No lock stands in the way of another. -/
def Exclusive (l : Ledger) : Prop := l.locks.Pairwise Lock.Apart

theorem exclusive_empty (counter : UInt64) : Exclusive { counter } := List.Pairwise.nil

theorem Exclusive.apart (h : l.Exclusive) (ha : a ∈ l.locks) (hb : b ∈ l.locks) (hne : a ≠ b) :
    a.Apart b := List.Pairwise.forall h ha hb hne

/-- At most one lock covers a name. -/
theorem Exclusive.eq_of_covers (h : l.Exclusive) (hclean : ∀ lock ∈ l.locks, Path.IsClean lock.root)
    (hn : Path.IsClean name) (ha : a ∈ l.locks) (hb : b ∈ l.locks) (hca : a.Covers name)
    (hcb : b.Covers name) : a = b := by
  by_contra hne
  exact (h.apart ha hb hne).not_covers (hclean a ha) (hclean b hb) hn hca hcb

theorem Exclusive.filter (h : l.Exclusive) (p : Lock → Bool) (counter : UInt64) :
    Exclusive ⟨counter, l.locks.filter p⟩ := List.Pairwise.filter p h

theorem Exclusive.map {f : Lock → Lock} (h : l.Exclusive) (hroot : ∀ k, (f k).root = k.root)
    (hdepth : ∀ k, (f k).details.zeroDepth = k.details.zeroDepth) (counter : UInt64) :
    Exclusive ⟨counter, l.locks.map f⟩ := by
  refine List.pairwise_map.2 (h.imp fun {a b} hab => ?_)
  unfold Lock.Apart Lock.Conflicts
  rw [hroot, hroot, hdepth, hdepth]
  exact hab

/-! ## The operations -/

theorem Exclusive.sweep (h : l.Exclusive) (now : Instant) : (l.sweep now).Exclusive := h.filter _ _

theorem Exclusive.create (h : l.Exclusive) (now : Instant) (details : Details) :
    (l.create now details).2.Exclusive := by
  unfold Ledger.create
  dsimp only
  split_ifs with hc
  · exact h.sweep now
  · refine List.pairwise_cons.2 ⟨fun lock hl => ?_, h.sweep now⟩
    exact Lock.Apart.symm fun hconf => hc ⟨lock, hl, hconf⟩

theorem Exclusive.refresh (h : l.Exclusive) (now : Instant) (token : String) (duration : Timeout) :
    (l.refresh now token duration).2.Exclusive := by
  unfold Ledger.refresh
  dsimp only
  split
  · exact h.sweep now
  · split_ifs
    · exact h.sweep now
    · exact (h.sweep now).map (fun k => by split_ifs <;> rfl) (fun k => by split_ifs <;> rfl) _

theorem Exclusive.unlock (h : l.Exclusive) (now : Instant) (token : String) :
    (l.unlock now token).2.Exclusive := by
  unfold Ledger.unlock
  dsimp only
  split
  · exact h.sweep now
  · split_ifs
    · exact h.sweep now
    · exact (h.sweep now).filter _ _

theorem Exclusive.delete (h : l.Exclusive) (now : Instant) (name : String) :
    (l.delete now name).Exclusive := (h.sweep now).filter _ _

theorem Exclusive.setHeld (h : l.Exclusive) (tokens : List String) (held : Bool) :
    (l.setHeld tokens held).Exclusive :=
  h.map (fun k => by split_ifs <;> rfl) (fun k => by split_ifs <;> rfl) _

theorem Exclusive.lockAt (h : l.Exclusive) (now : Instant) (name : String) :
    (l.lockAt now name).2.Exclusive := by
  unfold Ledger.lockAt
  dsimp only
  split <;> exact h.sweep now

end Ledger

end PathLock
