import PathLock.Proofs.Replay.Steps

/-!
# Scripts hold what they claim

Whatever a script does, the locks that are held after a step are those that the claims under its
labels name and that are still there. No step finds a rule broken, and a run ends early for the
mistakes of the script alone (`Script.holds_exactly_its_claims`).
-/

namespace PathLock.Replay

namespace Script

variable {script : Script} {setting : Setting} {seed : UInt64} {done : List Step}
  {reports : List Report} {r : State}

/-- The setting with the start of the script, if it has one. -/
def settingIn (script : Script) (setting : Setting) : Setting :=
  { setting with start := script.start.getD setting.start }

/-- The first steps of the script, with these reports, lead to this state. -/
def Reaches (script : Script) (setting : Setting) (seed : UInt64) (done : List Step)
    (reports : List Report) (r : State) : Prop :=
  done <+: script.steps ∧
    State.steps { table := .empty seed } (script.settingIn setting) 1 done = .ok (reports, r)

theorem run_eq (script : Script) (setting : Setting) (seed : UInt64) : script.run setting seed =
    (State.steps { table := .empty seed } (script.settingIn setting) 1 script.steps).map (·.1) := by
  unfold Script.run
  show (State.steps _ (script.settingIn setting) 1 script.steps).bind _ = _
  cases State.steps { table := .empty seed } (script.settingIn setting) 1 script.steps <;> rfl

theorem Reaches.tracked (h : script.Reaches setting seed done reports r)
    (hcreates : creates script.steps ≤ UInt64.size) :
    r.Tracked seed (creates done) ∧ ∀ report ∈ reports, report.outcome ≠ .internal := by
  obtain ⟨hpart, hdone⟩ := h
  have hle : 0 + creates done ≤ UInt64.size := by
    rw [Nat.zero_add]
    exact (creates_mono hpart).trans hcreates
  rcases (State.tracked_start seed).steps_or_mistaken hle (script.settingIn setting) 1 with
    ⟨reports', r', hsteps, htracked, houtcomes⟩ | ⟨before, step, _, _, hbefore, hreached, hbad⟩
  · rw [hdone] at hsteps
    obtain ⟨rfl, rfl⟩ := Prod.mk.inj (Except.ok.inj hsteps)
    rw [Nat.zero_add] at htracked
    exact ⟨htracked, houtcomes⟩
  · obtain ⟨mistake, hmistake⟩ := State.steps_of_mistaken hbefore hreached hbad
    rw [hdone] at hmistake
    exact absurd hmistake (by simp)

theorem Reaches.confirms (h : script.Reaches setting seed done reports r)
    (hcreates : creates script.steps ≤ UInt64.size) {step : Step} {report : Report} {r' : State}
    (hstep : r.step (script.settingIn setting) (done.length + 1) step = .ok (report, r'))
    {names tokens : List String} {label : Option String}
    (hop : step.operation = .confirm names tokens label) :
    r.Confirms r' label report.result := by
  have hle : creates done + step.operation.isCreate.toNat ≤ UInt64.size := by
    rw [hop]
    exact (creates_mono h.1).trans hcreates
  by_cases hbad : step.Mistaken (script.settingIn setting).start r
  · obtain ⟨mistake, hmistake⟩ := State.step_of_mistaken hbad (done.length + 1)
    rw [hstep] at hmistake
    exact absurd hmistake (by simp)
  · obtain ⟨_, _, hok, hperformed⟩ := (h.tracked hcreates).1.step_ok hle (done.length + 1) hbad
    rw [hstep] at hok
    obtain ⟨rfl, rfl⟩ := Prod.mk.inj (Except.ok.inj hok)
    exact hperformed.confirms names tokens label hop

/-- A mistaken step that is come to ends the run. -/
theorem Reaches.run_error (h : script.Reaches setting seed done reports r) {step : Step}
    (hpart : done ++ [step] <+: script.steps)
    (hbad : step.Mistaken (script.settingIn setting).start r) :
    ∃ mistake, script.run setting seed = .error (.user mistake) := by
  obtain ⟨mistake, hmistake⟩ := State.steps_of_mistaken hpart h.2 hbad
  refine ⟨mistake, ?_⟩
  rw [run_eq, hmistake]
  rfl

/-- Nothing else ends a run. -/
theorem exists_mistaken_of_run_error (hcreates : creates script.steps ≤ UInt64.size)
    {e : LockError} (he : script.run setting seed = .error e) :
    ∃ done reports r step, script.Reaches setting seed done reports r ∧
      done ++ [step] <+: script.steps ∧ step.Mistaken (script.settingIn setting).start r := by
  rw [run_eq] at he
  have hle : 0 + creates script.steps ≤ UInt64.size := by rwa [Nat.zero_add]
  rcases (State.tracked_start seed).steps_or_mistaken hle (script.settingIn setting) 1 with
    ⟨_, _, hsteps, _⟩ | ⟨done, step, reports, r, hpart, hdone, hbad⟩
  · rw [hsteps] at he
    exact absurd he (by simp [Except.map])
  · exact ⟨done, reports, r, step, ⟨(List.prefix_append _ _).trans hpart, hdone⟩, hpart, hbad⟩

/-- After every step of a script, the locks that are held are those named by its claims that are
still there. A confirm keeps what it claims under its label, or releases it if it has none. No step
finds a rule broken, and the run fails exactly if it comes to a mistaken step. -/
theorem holds_exactly_its_claims (script : Script) (setting : Setting) (seed : UInt64)
    (hcreates : creates script.steps ≤ UInt64.size) :
    (∀ done reports r, script.Reaches setting seed done reports r →
      r.HoldsClaimed ∧ (∀ report ∈ reports, report.outcome ≠ .internal) ∧
        ∀ step, done ++ [step] <+: script.steps → ∀ report r',
          r.step (script.settingIn setting) (done.length + 1) step = .ok (report, r') →
            ∀ names tokens label, step.operation = .confirm names tokens label →
              r.Confirms r' label report.result) ∧
      ((∃ e, script.run setting seed = .error e) ↔
        ∃ done reports r step, script.Reaches setting seed done reports r ∧
          done ++ [step] <+: script.steps ∧ step.Mistaken (script.settingIn setting).start r) ∧
      ∀ e, script.run setting seed = .error e → ∃ mistake, e = .user mistake := by
  refine ⟨fun done reports r hr => ?_, ⟨?_, ?_⟩, fun e he => ?_⟩
  · obtain ⟨htracked, houtcomes⟩ := hr.tracked hcreates
    refine ⟨htracked.holdsClaimed, houtcomes, ?_⟩
    intro step _ report r' hstep names tokens label hop
    exact hr.confirms hcreates hstep hop
  · rintro ⟨e, he⟩
    exact exists_mistaken_of_run_error hcreates he
  · rintro ⟨done, reports, r, step, hr, hpart, hbad⟩
    obtain ⟨mistake, hmistake⟩ := hr.run_error hpart hbad
    exact ⟨_, hmistake⟩
  · obtain ⟨done, reports, r, step, hr, hpart, hbad⟩ := exists_mistaken_of_run_error hcreates he
    obtain ⟨mistake, hmistake⟩ := hr.run_error hpart hbad
    rw [he] at hmistake
    exact ⟨mistake, Except.error.inj hmistake⟩

/-- Steps at the start, in this order. -/
def atStart (operations : List Operation) : Script where
  start := none
  steps := operations.map fun operation => ⟨⟨.zero, rfl, rfl⟩, none, operation⟩

/-- A claimed lock is deleted, and its name locked again and claimed under the label of the first
claim. The second claim is released, and then one that is not there any more. -/
def rebound : Script := atStart
  [.create "/a" none false none (some "lock"),
    .confirm ["/a/b"] ["lock"] (some "claim"),
    .delete "/a",
    .create "/a" none false none (some "lock"),
    .confirm ["/a"] ["lock"] (some "claim"),
    .confirm ["/a", "/b"] ["lock"] (some "claim"),
    .release "claim",
    .confirm ["/a", "/a/b"] ["lock"] none,
    .release "claim"]

/-- Locks live for a minute. -/
def minute : Setting := { timeout := .seconds 60, ownerXml := ownerXml "me" "here" }

theorem holds_exactly_its_claims_rebound :
    creates rebound.steps ≤ UInt64.size ∧
      (∀ done reports r, rebound.Reaches minute 7 done reports r →
        r.HoldsClaimed ∧ ∀ report ∈ reports, report.outcome ≠ .internal) ∧
      ∃ done reports r step, rebound.Reaches minute 7 done reports r ∧
        done ++ [step] <+: rebound.steps ∧ step.Mistaken .epoch r := by
  have hcreates : creates rebound.steps ≤ UInt64.size := by decide +kernel
  have hfails : (rebound.run minute 7).toOption.isNone = true := by decide +kernel
  obtain ⟨hreaches, hiff, _⟩ := holds_exactly_its_claims rebound minute 7 hcreates
  refine ⟨hcreates, fun done reports r hr => ?_, hiff.1 ?_⟩
  · exact ⟨(hreaches done reports r hr).1, (hreaches done reports r hr).2.1⟩
  · cases hrun : rebound.run minute 7 with
    | error e => exact ⟨e, rfl⟩
    | ok reports =>
      rw [hrun] at hfails
      exact absurd hfails Bool.noConfusion

-- Without its last step, the script runs to its end.
example : ((Script.run { rebound with steps := rebound.steps.dropLast } minute 7).map
      (·.map Report.outcome)).toOption =
    some [.ok, .ok, .ok, .ok, .ok, .confirmationFailed, .ok, .ok] := by
  decide +kernel

end Script

end PathLock.Replay
