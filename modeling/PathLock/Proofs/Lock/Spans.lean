import PathLock.Proofs.Lock.Lifetime
import PathLock.Proofs.Time.Elapsed

/-!
# Locks for a span of time

The timeout for a span is told by its whole seconds, rounded toward zero (`Timeout.ofSpan_eq`). So a
lock for a span of time never expires if the span is negative by a second or more, and expires by
the end of the span if it is not negative (`Session.ReachableAfter.span_bounds_lifetime`). A span
that is negative by a fraction of a second has no whole seconds: a lock for it expires at once
(`Session.negative_fraction_expires`).
-/

namespace PathLock

/-! ## The timeout for a span -/

namespace Span

variable {span : Span}

theorem wholeSeconds_of_nonneg (h : 0 ≤ span.nanos) :
    span.wholeSeconds = span.nanos / nanosPerSecond := Int.tdiv_eq_ediv_of_nonneg h

theorem wholeSeconds_of_neg (h : span.nanos < 0) :
    span.wholeSeconds = -(-span.nanos / nanosPerSecond) := by
  have hneg : -span.wholeSeconds = -span.nanos / nanosPerSecond := by
    rw [← Int.tdiv_eq_ediv_of_nonneg (by omega), Int.neg_tdiv]
    rfl
  omega

/-- A span has negative whole seconds if it is negative by a second or more. -/
theorem wholeSeconds_neg_iff (span : Span) :
    span.wholeSeconds < 0 ↔ span.nanos ≤ -(nanosPerSecond : ℤ) := by
  unfold nanosPerSecond
  rcases lt_or_ge span.nanos 0 with hneg | hnonneg
  · rw [wholeSeconds_of_neg hneg]
    unfold nanosPerSecond
    omega
  · rw [wholeSeconds_of_nonneg hnonneg]
    unfold nanosPerSecond
    omega

/-- From then on the whole seconds are the full ones, none for a fraction that is negative. -/
theorem wholeSeconds_toNat (h : -(nanosPerSecond : ℤ) < span.nanos) :
    span.wholeSeconds = ((span.nanos / nanosPerSecond).toNat : ℕ) := by
  unfold nanosPerSecond at h
  rcases lt_or_ge span.nanos 0 with hneg | hnonneg
  · rw [wholeSeconds_of_neg hneg]
    unfold nanosPerSecond
    omega
  · rw [wholeSeconds_of_nonneg hnonneg]
    unfold nanosPerSecond
    omega

end Span

namespace Timeout

variable {span : Span}

/-- The seconds of a timeout for a span: the full seconds of the span, as far as there are any and as
many as can be said. -/
def secondsOf (span : Span) : ℕ := min (span.nanos / nanosPerSecond).toNat (UInt32.size - 1)

theorem toNat_secondsOf (span : Span) : (UInt32.ofNat (secondsOf span)).toNat = secondsOf span := by
  apply UInt32.toNat_ofNat_of_lt'
  exact Nat.lt_of_le_of_lt (Nat.min_le_right _ _) (by decide)

/-- Only spans that are negative by a second or more have a timeout without end. -/
theorem ofSpan_eq (span : Span) :
    ofSpan span = if span.nanos ≤ -(nanosPerSecond : ℤ) then infinite
      else seconds (UInt32.ofNat (secondsOf span)) := by
  unfold ofSpan secondsOf
  simp only [span.wholeSeconds_neg_iff]
  split_ifs with hneg hlt
  · rfl
  · rw [Span.wholeSeconds_toNat (not_le.1 hneg)] at hlt ⊢
    rw [Int.toNat_natCast, Nat.min_eq_left (by omega)]
  · rw [Span.wholeSeconds_toNat (not_le.1 hneg)] at hlt
    rw [Nat.min_eq_right (by omega)]

theorem expiry_ofSpan {now : Instant} (h : -(nanosPerSecond : ℤ) < span.nanos) :
    (ofSpan span).expiry now = some (now.after (secondsOf span)) := by
  have hseconds : ∀ n : UInt32, (seconds n).expiry now = some (now.after n.toNat) := fun _ => rfl
  rw [ofSpan_eq, if_neg (not_le.2 h), hseconds, toNat_secondsOf]

theorem secondsOf_of_neg (h : span.nanos < 0) : secondsOf span = 0 := by
  unfold secondsOf nanosPerSecond
  omega

/-- The seconds of the timeout do not take longer than the span. -/
theorem secondsOf_le (h : 0 ≤ span.nanos) :
    ((secondsOf span * nanosPerSecond : ℕ) : ℤ) ≤ span.nanos := by
  unfold secondsOf nanosPerSecond
  omega

end Timeout

/-! ## What is over by the end of a span -/

namespace Instant

variable {t u : Instant} {d e : ℕ}

theorem after_zero (t : Instant) : t.after 0 = t := by
  unfold after
  rw [Nat.zero_mul, Int.natCast_zero, add?_zero, Option.getD_some]

/-- Time that ends in range is in range all along. -/
theorem exists_add?_of_le (hu : t.add? e = some u) (hde : d ≤ e) : ∃ v, t.add? d = some v := by
  obtain ⟨hsecond, -⟩ := add?_eq_some.1 hu
  have hle := (elapse_le_iff t.nano d e t.nano_lt).2 hde
  have hnano : (elapse t.nano d).2 < 2 * nanosPerSecond := by
    have hlt := t.nano_lt
    unfold elapse nanosPerSecond at *
    split_ifs <;> dsimp only <;> omega
  have hge := t.second_ge
  have hlt := u.second_lt
  rw [add?_natCast]
  exact ⟨_, dif_pos ⟨by omega, by omega, hnano⟩⟩

/-- A lock with a timeout expires by the end of every span that takes at least as long. -/
theorem after_le_of_add? {seconds : ℕ} {span : ℤ} (h : ((seconds * nanosPerSecond : ℕ) : ℤ) ≤ span)
    (hu : t.add? span = some u) : t.after seconds ≤ u := by
  obtain ⟨e, rfl⟩ := Int.eq_ofNat_of_zero_le (Int.le_trans (Int.natCast_nonneg _) h)
  have hle := Int.ofNat_le.1 h
  obtain ⟨v, hv⟩ := exists_add?_of_le hu hle
  unfold after
  rw [hv, Option.getD_some]
  exact (le_iff_of_add? hv hu).2 hle

end Instant

/-! ## Locks for spans -/

namespace Session

variable {s : Session} {n : ℕ} {token root : String}

/-- A free lock without an expiry is found at every instant, as long as it is let be. -/
theorem Tracks.finds_forever {seed : UInt64} {m : Ledger.Session} (h : Tracks seed n s m)
    {lock : Lock} (hl : lock ∈ m.ledger.locks) (hfree : lock.held = false)
    (hexpiry : lock.expiry = none) {calls : List Call}
    (hn : n + created (s.run calls).1 ≤ UInt64.size)
    (hleaves : ∀ call answer, (call, answer) ∈ calls.zip (s.run calls).1 →
      call.Leaves lock.token lock.root answer) (u : Instant) :
    (s.run calls).2.table.Finds u lock.root lock.token none := by
  have hforever : ∀ now, lock.expired now = false := by
    intro now
    rw [Bool.eq_false_iff, Ne, Lock.expired_iff_of_free hfree, hexpiry]
    simp
  rcases h.stays_or_lacks hl hfree hn hleaves with ⟨-, hstays⟩ | ⟨⟨now, -, hexpired⟩, -⟩
  · have hfound := (h.run hn).finds hstays (hforever u)
    rwa [hexpiry] at hfound
  · rw [hforever now] at hexpired
    exact absurd hexpired Bool.false_ne_true

/-- When a lock that is given the time of a span expires: never if the span is negative by a second
or more, at once if it is negative by less, and by its end if it is not negative. -/
theorem ReachableAfter.span_bounds_lifetime (hs : s.ReachableAfter n) {starting : Call}
    {now : Instant} {span : Span}
    (hstarts : starting.Starts now (.ofSpan span) token root (s.step starting).1)
    {later : List Call} (hn : n + created (s.run (starting :: later)).1 ≤ UInt64.size)
    (hleaves : ∀ call answer, (call, answer) ∈ later.zip ((s.step starting).2.run later).1 →
      call.Leaves token root answer) :
    (Timeout.ofSpan span = if span.nanos ≤ -(nanosPerSecond : ℤ) then .infinite
      else .seconds (UInt32.ofNat (min (span.nanos / nanosPerSecond).toNat (UInt32.size - 1)))) ∧
    (span.nanos ≤ -(nanosPerSecond : ℤ) →
      ∀ u, (s.run (starting :: later)).2.table.Finds u root token none) ∧
    (-(nanosPerSecond : ℤ) < span.nanos → ∃ lock ∈ (s.step starting).2.table.locks, ∃ due,
      lock.token = token ∧ lock.expiry = some due ∧ (span.nanos < 0 → due = now) ∧
        (0 ≤ span.nanos → ∀ u, now.add? span.nanos = some u → due ≤ u)) := by
  obtain ⟨seed, m, hm⟩ := hs.tracks (Nat.le_of_add_right_le hn)
  rw [created_run_cons, ← Nat.add_assoc] at hn
  obtain ⟨hanswer, hnext⟩ := hm.step (Nat.le_of_add_right_le hn)
  rw [hanswer] at hstarts
  obtain ⟨lock, hl, rfl, rfl, hfree, hexpiry⟩ := Ledger.Session.exists_lock_of_starts hstarts
  refine ⟨Timeout.ofSpan_eq span, ?_, ?_⟩
  · intro hneg u
    rw [Timeout.ofSpan_eq, if_pos hneg] at hexpiry
    exact hnext.finds_forever hl hfree hexpiry hn hleaves u
  · intro hlt
    rw [Timeout.expiry_ofSpan hlt] at hexpiry
    refine ⟨lock, hnext.mem_locks.2 hl, _, rfl, hexpiry, ?_, ?_⟩
    · intro hneg
      rw [Timeout.secondsOf_of_neg hneg, Instant.after_zero]
    · intro hnonneg u hu
      exact Instant.after_le_of_add? (Timeout.secondsOf_le hnonneg) hu

/-- A span of one second and a half, to the past. -/
def shortlyBefore : Span := ⟨-1500000000, by decide, by decide⟩

/-- A lock on a name in a subtree that would expire soon, with a sibling that does not. -/
def expiringBelow : List Call :=
  [.create .epoch { root := "/a/b", duration := .seconds 2 },
    .create .epoch { root := "/a/c", duration := .infinite }]

/-- It is given the time of a negative span. -/
def backdate : Call := .refresh .epoch "8" (.ofSpan shortlyBefore)

/-- The end of time, and a lock beside it that does not outlast it. -/
def untilTheEnd : List Call :=
  [.create .last { root := "/b", duration := .seconds 60 }, .countAt .last]

theorem span_bounds_lifetime_backdated :
    ((start 7).run expiringBelow).2.ReachableAfter 2 ∧
      backdate.Starts .epoch (.ofSpan shortlyBefore) "8" "/a/b"
        (((start 7).run expiringBelow).2.step backdate).1 ∧
      ∀ u, (((start 7).run expiringBelow).2.run (backdate :: untilTheEnd)).2.table.Finds u "/a/b" "8"
        none := by
  have hs : ((start 7).run expiringBelow).2.ReachableAfter 2 :=
    ⟨7, expiringBelow, by decide +kernel, rfl⟩
  have hanswer : (((start 7).run expiringBelow).2.step backdate).1 =
      .details { root := "/a/b", duration := .infinite } := by
    decide +kernel
  have hstarts : backdate.Starts .epoch (.ofSpan shortlyBefore) "8" "/a/b"
      (((start 7).run expiringBelow).2.step backdate).1 := hanswer ▸ .refresh rfl
  have hanswers : ((((start 7).run expiringBelow).2.step backdate).2.run untilTheEnd).1 =
      [.token "10", .count 2] := by
    decide +kernel
  have hcreated : created (((start 7).run expiringBelow).2.run (backdate :: untilTheEnd)).1 = 1 := by
    decide +kernel
  have hleaves : ∀ call answer, (call, answer) ∈ untilTheEnd.zip
      ((((start 7).run expiringBelow).2.step backdate).2.run untilTheEnd).1 →
      call.Leaves "8" "/a/b" answer := by
    rw [hanswers]
    intro call answer hin
    simp only [untilTheEnd, List.zip_cons_cons, List.zip_nil_left, List.mem_cons, Prod.mk.injEq,
      List.not_mem_nil, or_false] at hin
    rcases hin with ⟨rfl, rfl⟩ | ⟨rfl, rfl⟩ <;> trivial
  have hbounds := hs.span_bounds_lifetime hstarts (by rw [hcreated]; decide) hleaves
  exact ⟨hs, hstarts, hbounds.2.1 (by decide)⟩

/-- A span of half a second, to the past. -/
def halfSecondBefore : Span := ⟨-500000000, by decide, by decide⟩

/-- The span is negative, and its timeout is not infinite: a lock for it is not found even at the
instant of its creation. -/
theorem negative_fraction_expires :
    ¬ (Timeout.ofSpan halfSecondBefore = .infinite ↔ halfSecondBefore.nanos < 0) ∧
      ((start 7).run [.create .epoch { root := "/a", duration := .ofSpan halfSecondBefore },
        .lockAt .epoch "/a"]).1 = [.token "8", .failed .noSuchLock] := by
  refine ⟨?_, by decide +kernel⟩
  intro h
  exact absurd (h.2 (by decide)) (by decide)

end Session

end PathLock
