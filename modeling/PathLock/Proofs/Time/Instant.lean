import Mathlib.Data.Prod.Lex
import Mathlib.Data.Int.Basic
import PathLock.Time.Instant

/-!
# The order of instants

The order of the clock is a linear order, that of the seconds with the nanoseconds
(`Instant.parts`). `Instant.after` is the instant some seconds later, as far as the clock goes.
-/

namespace PathLock.Instant

instance : LinearOrder Instant where
  le := (· ≤ ·)
  lt := (· < ·)
  le_refl a := le_def.2 (.inr ⟨rfl, Nat.le_refl _⟩)
  le_trans a b c hab hbc := by
    rw [le_def] at hab hbc ⊢
    omega
  lt_iff_le_not_ge a b := by
    rw [lt_def, le_def, le_def]
    omega
  le_antisymm a b hab hba := by
    rw [le_def] at hab hba
    apply Instant.ext <;> omega
  le_total a b := by
    rw [le_def, le_def]
    omega
  toDecidableLE := inferInstance
  toDecidableLT := inferInstance

/-! ## Seconds later -/

/-- The second and the nanoseconds in it, to be compared in this order. -/
def parts (t : Instant) : ℤ ×ₗ ℕ := toLex (t.second, t.nano)

theorem parts_le_parts {a b : Instant} : a.parts ≤ b.parts ↔ a ≤ b := by
  unfold parts
  rw [Prod.Lex.toLex_le_toLex, le_def]

/-- The instant so many seconds after `t`, or the last one if that is out of range. -/
def after (t : Instant) (seconds : ℕ) : Instant :=
  (t.add? (seconds * nanosPerSecond : ℕ)).getD last

theorem ofParts?_self (t : Instant) : ofParts? t.second t.nano = some t :=
  dif_pos ⟨t.second_ge, t.second_lt, t.nano_lt⟩

theorem add?_zero (t : Instant) : t.add? 0 = some t := by
  have hnano := t.nano_lt
  unfold add? inLeapSecond nanosPerSecond at *
  dsimp only
  split_ifs with hleap hforward
  · rw [Int.add_zero, Int.toNat_natCast, ofParts?_self]
  · exact absurd hforward.2 (Int.lt_irrefl 0)
  · rw [decide_eq_true_eq] at hleap
    have hsecond : ((t.nano : ℤ) + 0) / (1000000000 : ℕ) = 0 := by omega
    have hrest : (((t.nano : ℤ) + 0) % (1000000000 : ℕ)).toNat = t.nano := by omega
    rw [hsecond, hrest, Int.add_zero, ofParts?_self]

/-- A full second later, a leap second is over. -/
theorem add?_seconds (t : Instant) {seconds : ℕ} (h : seconds ≠ 0) :
    t.add? (seconds * nanosPerSecond : ℕ) =
      ofParts? (t.second + seconds) (t.nano % nanosPerSecond) := by
  have hnano := t.nano_lt
  unfold add? inLeapSecond nanosPerSecond at *
  dsimp only
  split_ifs with hstays hleap
  · rw [decide_eq_true_eq] at hstays
    omega
  · rw [decide_eq_true_eq] at hleap
    congr 1 <;> omega
  · rw [decide_eq_true_eq] at hleap
    congr 1 <;> omega

/-- Up to the last second, all but leap seconds are in range. -/
theorem ofParts?_of_le {t : Instant} {second : ℤ} {nano : ℕ} (hge : t.second ≤ second)
    (hle : second ≤ last.second) (hnano : nano < nanosPerSecond) :
    ∃ u, ofParts? second nano = some u ∧ u.parts = toLex (second, nano) ∧ u ≤ last := by
  have hlt : nano < 2 * nanosPerSecond :=
    Nat.lt_of_lt_of_le hnano (Nat.le_mul_of_pos_left _ Nat.two_pos)
  have hrange := And.intro (Int.le_trans t.second_ge hge)
    (And.intro (Int.lt_add_one_iff.2 hle) hlt)
  refine ⟨_, dif_pos hrange, rfl, le_def.2 ?_⟩
  rcases Int.lt_or_eq_of_le hle with hlt | heq
  · exact .inl hlt
  · exact .inr ⟨heq, Nat.le_of_lt_succ hnano⟩

/-- Seconds are counted on with the same fraction, up to the last instant. An instant in a leap
second stays in it only if no second passes. -/
theorem parts_after (t : Instant) (seconds : ℕ) : (t.after seconds).parts =
    if seconds = 0 then t.parts
    else min (toLex (t.second + seconds, t.nano % nanosPerSecond)) last.parts := by
  unfold after
  split_ifs with hzero
  · rw [hzero, Nat.zero_mul, Int.natCast_zero, add?_zero, Option.getD_some]
  · have hrest : t.nano % nanosPerSecond < nanosPerSecond := Nat.mod_lt _ (by decide)
    rw [add?_seconds t hzero]
    by_cases hrange : t.second + seconds ≤ last.second
    · obtain ⟨u, hu, hparts, hle⟩ := ofParts?_of_le (by omega : t.second ≤ _) hrange hrest
      rw [hu, Option.getD_some, ← hparts, min_eq_left (parts_le_parts.2 hle)]
    · have hnone : ofParts? (t.second + seconds) (t.nano % nanosPerSecond) = none :=
        dif_neg fun h => hrange (Int.lt_add_one_iff.1 h.2.1)
      have hlt : last.parts ≤ toLex (t.second + seconds, t.nano % nanosPerSecond) :=
        Prod.Lex.toLex_le_toLex.2 (.inl (not_le.1 hrange))
      rw [hnone, Option.getD_none, min_eq_right hlt]

end PathLock.Instant
