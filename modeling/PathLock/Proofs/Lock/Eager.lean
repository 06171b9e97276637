import PathLock.Proofs.Lock.Later

/-!
# Locks may be dropped early

A lock that has expired is dropped by the next call that is given an instant. It may as well be
dropped before: if the locks are counted somewhere in a run, at an instant not after that of the
next such call, all other calls are answered as without the count, except for how many locks there
are until then (`Session.early_count_unseen`).

Two sessions that a count in one of them has set apart hold the same locks at any later instant
(`Ledger.Session.AgreeFrom`). Releases keep that, and the next call with an instant makes them one.
-/

namespace PathLock

/-- The calls ask at position `i` how many locks there are, before any of them has an instant. -/
def ReadsSizeAt (calls : List Call) (i : ℕ) : Prop :=
  (calls[i]? = some .size ∨ calls[i]? = some .isEmpty) ∧ ∀ call ∈ calls.take i, call.now? = none

theorem Lock.expired_mono {lock : Lock} {t now : Instant} (h : lock.expired t = true)
    (hle : t ≤ now) : lock.expired now = true := by
  obtain ⟨due, hdue, hdue_le⟩ := Lock.expired_iff.1 h
  exact Lock.expired_iff.2 ⟨due, hdue, hdue_le.trans hle⟩

/-- To let a lock go does not keep it from expiring. -/
theorem Lock.expired_of_free {lock : Lock} {now : Instant} (h : lock.expired now = true) :
    ({ lock with held := false } : Lock).expired now = true := by
  obtain ⟨due, hdue, hle⟩ := Lock.expired_iff.1 h
  refine Lock.expired_iff.2 ⟨due, ?_, hle⟩
  unfold Lock.due? at hdue ⊢
  split_ifs at hdue
  exact hdue

namespace Ledger

variable {l l' : Ledger} {t now : Instant} {tokens : List String}

/-- What an earlier drop leaves, a later one does not see. -/
theorem sweep_sweep_of_le (l : Ledger) (hle : t ≤ now) : (l.sweep t).sweep now = l.sweep now := by
  unfold sweep
  simp only [List.filter_filter, mk.injEq, true_and]
  refine List.filter_congr fun lock _ => ?_
  cases ht : lock.expired t with
  | false => simp
  | true => simp [Lock.expired_mono ht hle]

/-- Locks that have expired may be dropped before others are let go. -/
theorem sweep_release_sweep (l : Ledger) (tokens : List String) (now : Instant) :
    ((l.sweep now).release tokens).sweep now = (l.release tokens).sweep now := by
  unfold release setHeld sweep
  simp only [List.filter_map, List.filter_filter, mk.injEq, true_and]
  refine congrArg _ (List.filter_congr fun lock _ => ?_)
  cases hnow : lock.expired now with
  | false => simp
  | true =>
    dsimp only [Function.comp]
    split_ifs
    · simp [Lock.expired_of_free hnow]
    · simp [hnow]

namespace Session

variable {m m' : Ledger.Session} {call : Call} {calls : List Call}

/-- The same claims are outstanding, and the same locks are there at `t` and later. -/
structure AgreeFrom (t : Instant) (m m' : Ledger.Session) : Prop where
  swept : ∀ now, t ≤ now → m.ledger.sweep now = m'.ledger.sweep now
  claimsMade : m.claimsMade = m'.claimsMade
  outstanding : m.outstanding = m'.outstanding

theorem agreeFrom_countAt (m : Ledger.Session) (t : Instant) :
    AgreeFrom t (m.step (.countAt t)).2 m where
  swept _ hle := sweep_sweep_of_le m.ledger hle
  claimsMade := rfl
  outstanding := rfl

/-! ## Calls -/

/-- The first call with an instant meets the same locks. -/
theorem AgreeFrom.step_eq (h : AgreeFrom t m m') (hnow : call.now? = some now) (hle : t ≤ now) :
    m.step call = m'.step call := by
  rw [← step_sweep? m call, ← step_sweep? m' call, hnow]
  dsimp only [sweep?]
  rw [h.swept now hle, h.claimsMade, h.outstanding]

theorem AgreeFrom.release (h : AgreeFrom t m m') (number : ℕ) :
    (m.release number).1 = (m'.release number).1 ∧
      AgreeFrom t (m.release number).2 (m'.release number).2 := by
  unfold Session.release
  rw [h.outstanding]
  cases m'.outstanding.lookup number with
  | none => exact ⟨rfl, h⟩
  | some tokens =>
    refine ⟨rfl, fun now hle => ?_, h.claimsMade, rfl⟩
    show (m.ledger.release tokens).sweep now = (m'.ledger.release tokens).sweep now
    rw [← sweep_release_sweep m.ledger, h.swept now hle, sweep_release_sweep m'.ledger]

/-- Until then, only how many locks there are can be told apart. -/
theorem AgreeFrom.step (h : AgreeFrom t m m') (hnow : call.now? = none) :
    ((m.step call).1 = (m'.step call).1 ∨ call = .size ∨ call = .isEmpty) ∧
      AgreeFrom t (m.step call).2 (m'.step call).2 := by
  cases call with
  | release number => exact ⟨.inl (h.release number).1, (h.release number).2⟩
  | dropGuard number => exact ⟨.inl (h.release number).1, (h.release number).2⟩
  | size => exact ⟨.inr (.inl rfl), h⟩
  | isEmpty => exact ⟨.inr (.inr rfl), h⟩
  | create now details => exact absurd hnow (by simp [Call.now?])
  | refresh now token duration => exact absurd hnow (by simp [Call.now?])
  | unlock now token => exact absurd hnow (by simp [Call.now?])
  | confirm now name₀ name₁ conditions => exact absurd hnow (by simp [Call.now?])
  | guard now name₀ name₁ conditions => exact absurd hnow (by simp [Call.now?])
  | lockAt now name => exact absurd hnow (by simp [Call.now?])
  | delete now name => exact absurd hnow (by simp [Call.now?])
  | countAt now => exact absurd hnow (by simp [Call.now?])

/-! ## Runs -/

theorem run_append (m : Ledger.Session) (calls more : List Call) : m.run (calls ++ more) =
    ((m.run calls).1 ++ ((m.run calls).2.run more).1, ((m.run calls).2.run more).2) := by
  induction calls generalizing m with
  | nil => rfl
  | cons call calls ih => rw [List.cons_append, run_cons, ih, run_cons, List.cons_append]

theorem length_run (m : Ledger.Session) (calls : List Call) :
    (m.run calls).1.length = calls.length := by
  induction calls generalizing m with
  | nil => rfl
  | cons call calls ih => rw [run_cons, List.length_cons, ih, List.length_cons]

/-- The first call with an instant ends all difference, and the creates that succeed are the
same. -/
theorem AgreeFrom.run (h : AgreeFrom t m m')
    (hnext : ∀ now, calls.findSome? Call.now? = some now → t ≤ now) :
    created (m.run calls).1 = created (m'.run calls).1 ∧
      ∀ i, (m.run calls).1[i]? = (m'.run calls).1[i]? ∨ ReadsSizeAt calls i := by
  induction calls generalizing m m' with
  | nil => exact ⟨rfl, fun _ => .inl rfl⟩
  | cons call calls ih =>
    rw [List.findSome?_cons] at hnext
    cases hnow : call.now? with
    | some now =>
      rw [hnow] at hnext
      rw [run_cons, run_cons, h.step_eq hnow (hnext now rfl)]
      exact ⟨rfl, fun _ => .inl rfl⟩
    | none =>
      rw [hnow] at hnext
      obtain ⟨hanswer, hstep⟩ := h.step hnow
      obtain ⟨hcreated, hrest⟩ := ih hstep hnext
      refine ⟨?_, fun i => ?_⟩
      · rw [created_run_cons, created_run_cons, hcreated]
        rcases hanswer with hanswer | rfl | rfl
        · rw [hanswer]
        · rfl
        · rfl
      · rw [run_cons, run_cons]
        cases i with
        | zero =>
          rcases hanswer with hanswer | rfl | rfl
          · exact .inl (congrArg some hanswer)
          · exact .inr ⟨.inl rfl, fun _ hin => absurd hin List.not_mem_nil⟩
          · exact .inr ⟨.inr rfl, fun _ hin => absurd hin List.not_mem_nil⟩
        | succ i =>
          refine (hrest i).imp id fun hread => ⟨hread.1, fun other hin => ?_⟩
          rcases List.mem_cons.1 hin with rfl | hin
          · exact hnow
          · exact hread.2 other hin

/-- One more count on the way, at an instant not after that of the next call that has one. -/
theorem early_count (m : Ledger.Session) (before later : List Call) (t : Instant)
    (hnext : ∀ now, later.findSome? Call.now? = some now → t ≤ now) :
    created (m.run (before ++ .countAt t :: later)).1 = created (m.run (before ++ later)).1 ∧
      ∀ i, ((m.run (before ++ .countAt t :: later)).1.eraseIdx before.length)[i]? =
          (m.run (before ++ later)).1[i]? ∨
        ∃ j, i = before.length + j ∧ ReadsSizeAt later j := by
  obtain ⟨hcreated, hlater⟩ := (agreeFrom_countAt (m.run before).2 t).run hnext
  rw [run_append, run_append, run_cons]
  dsimp only
  refine ⟨?_, fun i => ?_⟩
  · rw [created, List.countP_append, List.countP_cons_of_neg (by simp [step, Answer.isToken])]
    rw [created, List.countP_append]
    exact congrArg _ hcreated
  · rw [List.eraseIdx_append_of_length_le (length_run m before).le, length_run, Nat.sub_self,
      List.eraseIdx_cons_zero]
    rcases Nat.lt_or_ge i before.length with hlt | hge
    · have hlt : i < (m.run before).1.length := (length_run m before).symm ▸ hlt
      rw [List.getElem?_append_left hlt, List.getElem?_append_left hlt]
      exact .inl rfl
    · obtain ⟨j, rfl⟩ := Nat.exists_eq_add_of_le hge
      have hle : (m.run before).1.length ≤ before.length + j := (length_run m before).symm ▸ hge
      rw [List.getElem?_append_right hle, List.getElem?_append_right hle, length_run,
        Nat.add_sub_cancel_left]
      exact (hlater j).imp id fun hread => ⟨j, rfl, hread⟩

end Session

end Ledger

namespace Session

/-- If the locks are counted once more, not after the instant of the next call that has one, the
answers to the other calls stay the same, but for reads of the size before that next call. Tokens
must not come round: the release of an old claim could otherwise meet a later lock with its token,
and be answered in one way before that lock is dropped and in another way after. -/
theorem early_count_unseen (seed : UInt64) (before later : List Call) (t : Instant)
    (hnext : ∀ now, later.findSome? Call.now? = some now → t ≤ now)
    (hcreated : created ((start seed).run (before ++ later)).1 ≤ UInt64.size) (i : ℕ) :
    (((start seed).run (before ++ .countAt t :: later)).1.eraseIdx before.length)[i]? =
        ((start seed).run (before ++ later)).1[i]? ∨
      ∃ j, i = before.length + j ∧ ReadsSizeAt later j := by
  obtain ⟨hsame, hanswers⟩ :=
    Ledger.Session.early_count (Ledger.Session.start seed) before later t hnext
  have hplain := (run_start seed (before ++ later) hcreated).1
  have hcounted : ((start seed).run (before ++ .countAt t :: later)).1 =
      ((Ledger.Session.start seed).run (before ++ .countAt t :: later)).1 :=
    (tracks_start seed).answers_eq (by rwa [Nat.zero_add, hsame, ← hplain])
  rw [hplain, hcounted]
  exact hanswers i

/-- Three locks of a minute each, two of them claimed, on a table whose first token is `8`. -/
def twoClaims : List Call :=
  [.create .epoch { root := "/a", duration := .seconds 60 },
    .create .epoch { root := "/b", duration := .seconds 60 },
    .create .epoch { root := "/c", duration := .seconds 60 },
    .guard .epoch "/a" "" [.ofToken "8"],
    .confirm .epoch "/b/c" "" [.ofToken "9"]]

/-- The claims are released two minutes later, one of them before the next call with an instant. -/
def lateReleases : List Call :=
  [.release 0,
    .size,
    .lockAt (Instant.epoch.after 120) "/a",
    .isEmpty,
    .dropGuard 1,
    .create (Instant.epoch.after 120) { root := "/", duration := .infinite },
    .size]

/-- Of the answers to the late releases, the count changes one, the size before the lookup. -/
theorem early_count_unseen_between :
    let plain := ((start 7).run (twoClaims ++ lateReleases)).1
    let counted := ((start 7).run (twoClaims ++ .countAt (Instant.epoch.after 90) ::
      lateReleases)).1.eraseIdx twoClaims.length
    (∀ now, lateReleases.findSome? Call.now? = some now → Instant.epoch.after 90 ≤ now) ∧
      created plain ≤ UInt64.size ∧ (∀ i, i ≠ 6 → counted[i]? = plain[i]?) ∧
      counted[6]? = some (.count 2) ∧ plain[6]? = some (.count 3) := by
  intro plain counted
  have hnext : ∀ now, lateReleases.findSome? Call.now? = some now →
      Instant.epoch.after 90 ≤ now := by
    rintro now hnow
    cases hnow
    decide
  have hcreated : created plain ≤ UInt64.size := by decide +kernel
  have hreads : ∀ j, ReadsSizeAt lateReleases j → j = 1 := by
    rintro (_ | _ | _ | j) ⟨hsize, hbefore⟩
    · simp [lateReleases] at hsize
    · rfl
    · simp [lateReleases] at hsize
    · exact absurd (hbefore (.lockAt (Instant.epoch.after 120) "/a") (by simp [lateReleases]))
        (by simp [Call.now?])
  refine ⟨hnext, hcreated, fun i hi => ?_, by decide +kernel, by decide +kernel⟩
  rcases early_count_unseen 7 twoClaims lateReleases _ hnext hcreated i with hsame | ⟨j, rfl, hj⟩
  · exact hsame
  · exact absurd (congrArg (twoClaims.length + ·) (hreads j hj)) hi

end Session

end PathLock
