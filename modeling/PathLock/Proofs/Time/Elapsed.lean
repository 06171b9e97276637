import Mathlib.Data.Option.Basic
import PathLock.Proofs.Time.Instant
import PathLock.Timeout

/-!
# Time that passes

Two clocks that are started at different instants and run for the same time keep the same distance,
and tell earlier from later alike (`Instant.Shifted`). It does not matter whether time passes at
once or bit by bit (`Instant.add?_add?`), also when it starts within a leap second.
-/

namespace PathLock.Instant

variable {start start₁ start₂ t t₁ t₂ u u₁ u₂ : Instant} {d e : ℕ}

/-! ## From a start -/

/-- The full seconds that are over, and the nanoseconds in the one after them, `d` nanoseconds after
the second in which `nano` are over. A leap second is not counted when it is left. -/
def elapse (nano d : ℕ) : ℕ × ℕ :=
  if nanosPerSecond ≤ nano ∧ nano + d < 2 * nanosPerSecond then (0, nano + d)
  else
    let total := nano + d - if nanosPerSecond ≤ nano then nanosPerSecond else 0
    (total / nanosPerSecond, total % nanosPerSecond)

theorem ofParts?_eq_some {second : ℤ} {nano : ℕ} :
    ofParts? second nano = some t ↔ t.second = second ∧ t.nano = nano := by
  constructor
  · intro h
    unfold ofParts? at h
    split_ifs at h
    rw [← Option.some.inj h]
    exact ⟨rfl, rfl⟩
  · rintro ⟨rfl, rfl⟩
    exact ofParts?_self t

theorem add?_natCast (t : Instant) (d : ℕ) :
    t.add? d = ofParts? (t.second + (elapse t.nano d).1) (elapse t.nano d).2 := by
  have hnano := t.nano_lt
  unfold add? elapse inLeapSecond nanosPerSecond at *
  dsimp only
  simp only [decide_eq_true_eq]
  split_ifs <;> refine congrArg₂ ofParts? ?_ ?_ <;> dsimp only <;> omega

theorem add?_eq_some : t.add? d = some u ↔
    u.second = t.second + (elapse t.nano d).1 ∧ u.nano = (elapse t.nano d).2 := by
  rw [add?_natCast, ofParts?_eq_some]

theorem elapse_elapse (nano d e : ℕ) (hnano : nano < 2 * nanosPerSecond) :
    (elapse nano d).1 + (elapse (elapse nano d).2 e).1 = (elapse nano (d + e)).1 ∧
      (elapse (elapse nano d).2 e).2 = (elapse nano (d + e)).2 := by
  unfold elapse nanosPerSecond at *
  dsimp only
  split_ifs <;> constructor <;> dsimp only at * <;> omega

/-- It is the same to wait twice and to wait for both times at once. -/
theorem add?_add? (h : t.add? d = some u) (e : ℕ) : u.add? e = t.add? (d + e : ℕ) := by
  obtain ⟨hsecond, hnano⟩ := add?_eq_some.1 h
  obtain ⟨hseconds, hrest⟩ := elapse_elapse t.nano d e t.nano_lt
  rw [add?_natCast, add?_natCast, hsecond, hnano, hrest, ← hseconds]
  congr 1
  omega

theorem elapse_le_iff (nano d e : ℕ) (hnano : nano < 2 * nanosPerSecond) :
    (elapse nano d).1 < (elapse nano e).1 ∨
      (elapse nano d).1 = (elapse nano e).1 ∧ (elapse nano d).2 ≤ (elapse nano e).2 ↔ d ≤ e := by
  unfold elapse nanosPerSecond at *
  dsimp only
  split_ifs <;> dsimp only <;> omega

/-- After the longer time it is later. -/
theorem le_iff_of_add? (ht : start.add? d = some t) (hu : start.add? e = some u) :
    t ≤ u ↔ d ≤ e := by
  obtain ⟨htsecond, htnano⟩ := add?_eq_some.1 ht
  obtain ⟨husecond, hunano⟩ := add?_eq_some.1 hu
  rw [← elapse_le_iff start.nano d e start.nano_lt, le_def, htsecond, husecond, htnano, hunano]
  omega

/-! ## From two starts -/

/-- The nanoseconds since the epoch, leap seconds not counted. -/
def nanos (t : Instant) : ℤ := t.second * nanosPerSecond + t.nano

/-- As much time has passed from `start₁` to `t₁` as from `start₂` to `t₂`. So unless it passed in a
leap second at first, `t₂` is `t₁` shifted by the difference of the starts. -/
structure Shifted (start₁ start₂ t₁ t₂ : Instant) : Prop where
  elapsed : ∃ d : ℕ, start₁.add? d = some t₁ ∧ start₂.add? d = some t₂
  difference : start₁.inLeapSecond = false → start₂.inLeapSecond = false →
    t₁.add? (start₂.nanos - start₁.nanos) = some t₂

theorem Shifted.of_add? (h₁ : start₁.add? d = some t₁) (h₂ : start₂.add? d = some t₂) :
    Shifted start₁ start₂ t₁ t₂ where
  elapsed := ⟨d, h₁, h₂⟩
  difference hleap₁ hleap₂ := by
    obtain ⟨hsecond₁, hnano₁⟩ := add?_eq_some.1 h₁
    obtain ⟨hsecond₂, hnano₂⟩ := add?_eq_some.1 h₂
    unfold inLeapSecond nanosPerSecond at hleap₁ hleap₂
    rw [decide_eq_false_iff_not] at hleap₁ hleap₂
    unfold elapse nanosPerSecond at hsecond₁ hsecond₂ hnano₁ hnano₂
    simp only [hleap₁, hleap₂, false_and, if_false, Nat.sub_zero] at hsecond₁ hsecond₂ hnano₁ hnano₂
    have hstays : t₁.inLeapSecond = false := by
      unfold inLeapSecond nanosPerSecond
      rw [decide_eq_false_iff_not]
      omega
    unfold add? nanos nanosPerSecond
    simp only [hstays, Bool.false_eq_true, false_and, if_false]
    rw [ofParts?_eq_some]
    omega

theorem Shifted.le_iff (ht : Shifted start₁ start₂ t₁ t₂) (hu : Shifted start₁ start₂ u₁ u₂) :
    t₁ ≤ u₁ ↔ t₂ ≤ u₂ := by
  obtain ⟨d, ht₁, ht₂⟩ := ht.elapsed
  obtain ⟨e, hu₁, hu₂⟩ := hu.elapsed
  rw [le_iff_of_add? ht₁ hu₁, le_iff_of_add? ht₂ hu₂]

/-- Both go on for the same time. -/
theorem Shifted.add? (h : Shifted start₁ start₂ t₁ t₂) (hu₁ : t₁.add? e = some u₁)
    (hu₂ : t₂.add? e = some u₂) : Shifted start₁ start₂ u₁ u₂ := by
  obtain ⟨d, h₁, h₂⟩ := h.elapsed
  rw [add?_add? h₁] at hu₁
  rw [add?_add? h₂] at hu₂
  exact .of_add? hu₁ hu₂

/-- A lock with this timeout that starts now does not live past the last instant. -/
def Affords (now : Instant) (timeout : Timeout) : Prop :=
  ∀ n ∈ timeout.seconds?, (now.add? (n * nanosPerSecond : ℕ)).isSome

instance (now : Instant) (timeout : Timeout) : Decidable (now.Affords timeout) :=
  inferInstanceAs (Decidable (∀ n ∈ timeout.seconds?, _))

/-- Locks with the same timeout live for the same time. -/
theorem Shifted.expiry {now₁ now₂ : Instant} {timeout : Timeout}
    (h : Shifted start₁ start₂ now₁ now₂) (hlast₁ : now₁.Affords timeout)
    (hlast₂ : now₂.Affords timeout) :
    Option.Rel (Shifted start₁ start₂) (timeout.expiry now₁) (timeout.expiry now₂) := by
  cases timeout with
  | infinite => exact .none
  | seconds n =>
    obtain ⟨due₁, hdue₁⟩ := Option.isSome_iff_exists.1 (hlast₁ n.toNat rfl)
    obtain ⟨due₂, hdue₂⟩ := Option.isSome_iff_exists.1 (hlast₂ n.toNat rfl)
    unfold Timeout.expiry
    dsimp only
    rw [hdue₁, hdue₂]
    exact .some (h.add? hdue₁ hdue₂)

end PathLock.Instant
