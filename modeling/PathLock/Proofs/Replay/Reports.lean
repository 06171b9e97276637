import PathLock.Command.Run
import PathLock.Proofs.Json
import PathLock.Proofs.Replay.Steps
import PathLock.Proofs.Time.Timestamp

/-!
# What a run reports

A run has one report a step, in order, with the number and the instant of the step
(`Script.run_reports`). A replay ends well if and only if every step had the outcome that was expected
of it (`Command.exitCode_replay`). Its records stand in lines of their own, whatever texts they hold
(`Command.lines_replay`), and tell the instants exactly (`Command.instant_replay`).
-/

namespace PathLock

open Yaml

theorem exists_of_bind_eq_ok {ε α β : Type} {x : Except ε α} {f : α → Except ε β} {b : β}
    (h : x >>= f = .ok b) : ∃ a, x = .ok a ∧ f a = .ok b := by
  cases x with
  | error e => cases h
  | ok a => exact ⟨a, rfl, h⟩

/-! ## Reading the start of a script -/

namespace Yaml

variable {α β : Type} {left left' : ℕ}

theorem Visit.bind_eq_some {x : Visit α} {f : α → Visit β} {b : β}
    (h : (x >>= f).run left = some (b, left')) :
    ∃ a k, x.run left = some (a, k) ∧ (f a).run k = some (b, left') := by
  rw [StateT.run_bind] at h
  obtain ⟨⟨a, k⟩, ha, hb⟩ := Option.bind_eq_some_iff.1 h
  exact ⟨a, k, ha, hb⟩

/-- An optional value that is there was read. -/
theorem Document.read_of_optional {d : Document} {read : Node → Visit α} {node : Node} {a : α}
    (h : (d.optional read node).run left = some (some a, left')) :
    ∃ node k, (read node).run k = some (a, left') := by
  have hread {node : Node} {k : ℕ}
      (h : (do return some (← read node) : Visit (Option α)).run k = some (some a, left')) :
      ∃ node k, (read node).run k = some (a, left') := by
    obtain ⟨b, l, hb, h⟩ := Visit.bind_eq_some h
    obtain ⟨hb', rfl⟩ := Prod.mk.inj (Option.some.inj h)
    obtain rfl := Option.some.inj hb'
    exact ⟨node, k, hb⟩
  obtain ⟨node, k, -, h⟩ := Visit.bind_eq_some h
  split at h
  · split_ifs at h
    · cases h
    · exact hread h
  · split_ifs at h
    · exact hread h
    · cases h
    · cases h
  · exact hread h

end Yaml

namespace Replay

variable {setting : Setting} {step : Step} {steps : List Step} {report : Report}
  {reports : List Report} {i : ℕ} {script : Script}

theorem onClock_of_timestamp {d : Document} {node : Yaml.Node} {left left' : ℕ} {t : Instant}
    (h : (timestamp d node).run left = some (t, left')) : t.OnClock := by
  obtain ⟨text, k, -, h⟩ := Visit.bind_eq_some h
  obtain ⟨u, hu, h⟩ := Option.bind_eq_some_iff.1 h
  obtain ⟨rfl, -⟩ := Prod.mk.inj (Option.some.inj h)
  exact Instant.onClock_of_ofTimestamp? hu

theorem onClock_of_drafts {d : Document} {start : Option Instant} {steps : List Draft}
    {left left' : ℕ} (h : (drafts d).run left = some ((start, steps), left')) :
    ∀ t ∈ start, t.OnClock := by
  -- The steps are read after the start, which stays as it is.
  have hrest {start' : Option Instant} {fields : List (String × Yaml.Node)} {k : ℕ}
      (h : (do return (start', ← (← d.items (← ← field? fields "steps")).mapM (Draft.ofNode d)) :
        Visit (Option Instant × List Draft)).run k = some ((start, steps), left')) :
      start' = start := by
    obtain ⟨steps?, _, -, h⟩ := Visit.bind_eq_some h
    obtain ⟨node, _, -, h⟩ := Visit.bind_eq_some h
    obtain ⟨items, _, -, h⟩ := Visit.bind_eq_some h
    obtain ⟨steps', _, -, h⟩ := Visit.bind_eq_some h
    exact (Prod.mk.inj (Prod.mk.inj (Option.some.inj h)).1).1
  rintro t ⟨⟩
  obtain ⟨fields, _, -, h⟩ := Visit.bind_eq_some h
  obtain ⟨node, _, -, h⟩ := Visit.bind_eq_some h
  dsimp only at h
  cases node with
  | none =>
    obtain ⟨start', _, hstart, h⟩ := Visit.bind_eq_some h
    obtain rfl := hrest h
    cases hstart
  | some node =>
    obtain ⟨start', _, hstart, h⟩ := Visit.bind_eq_some h
    obtain rfl := hrest h
    obtain ⟨node, _, hread⟩ := Document.read_of_optional hstart
    exact onClock_of_timestamp hread

/-- Scripts that are read start on the clock. -/
theorem Script.onClock_of_ofYaml {text : String} (h : Script.ofYaml text = .ok script) :
    ∀ t ∈ script.start, t.OnClock := by
  unfold Script.ofYaml at h
  split at h
  · exact absurd h (by simp)
  · rename_i start drafts hread
    obtain ⟨d, -, hvisit⟩ := Option.bind_eq_some_iff.1 hread
    obtain ⟨⟨_, left⟩, hrun, rfl⟩ := Option.map_eq_some_iff.1 hvisit
    obtain ⟨steps, -, h⟩ := exists_of_bind_eq_ok h
    obtain rfl := Except.ok.inj h
    exact onClock_of_drafts hrun

/-! ## One report a step -/

/-- The report is on this step, which has this number and counts from this start. -/
structure Report.IsOn (report : Report) (start : Instant) (number : ℕ) (step : Step) : Prop where
  number : report.number = number
  instant : step.offset.after? start = some report.instant
  operation : report.operation = step.operation.name
  expected : report.expected = step.expected

theorem Report.IsOn.onClock {start : Instant} (h : report.IsOn start i step)
    (hstart : start.OnClock) : report.instant.OnClock := by
  obtain ⟨millis, -, hadd⟩ := Option.bind_eq_some_iff.1 h.instant
  exact hstart.add? hadd

theorem State.isOn_of_step {r r' : State} (h : r.step setting i step = .ok (report, r')) :
    report.IsOn setting.start i step := by
  unfold State.step at h
  split at h
  · exact absurd h (by simp)
  · rename_i instant hinstant
    obtain ⟨performed, -, h⟩ := exists_of_bind_eq_ok h
    obtain ⟨rfl, -⟩ := Prod.mk.inj (Except.ok.inj h)
    exact ⟨rfl, hinstant, rfl, rfl⟩

theorem State.isOn_of_steps {r r' : State} (h : r.steps setting i steps = .ok (reports, r')) :
    reports.length = steps.length ∧ ∀ (k : ℕ) (report : Report) (step : Step),
      reports[k]? = some report → steps[k]? = some step →
        report.IsOn setting.start (i + k) step := by
  induction steps generalizing r i reports with
  | nil =>
    obtain ⟨rfl, -⟩ := Prod.mk.inj (Except.ok.inj h)
    exact ⟨rfl, by simp⟩
  | cons first steps ih =>
    obtain ⟨report, r₁, rest, hfirst, hrest, rfl⟩ := steps_cons_eq_ok h
    obtain ⟨hlength, hreports⟩ := ih hrest
    refine ⟨congrArg (· + 1) hlength, fun k other step hother hstep => ?_⟩
    cases k with
    | zero =>
      obtain rfl := Option.some.inj hother
      obtain rfl := Option.some.inj hstep
      exact isOn_of_step hfirst
    | succ k =>
      rw [← Nat.succ_add_eq_add_succ]
      exact hreports k other step hother hstep

/-- A run that comes to its end has one report a step, in order. -/
theorem Script.run_reports {seed : UInt64} (h : script.run setting seed = .ok reports) :
    reports.length = script.steps.length ∧ ∀ (k : ℕ) (report : Report) (step : Step),
      reports[k]? = some report → script.steps[k]? = some step →
        report.IsOn (script.start.getD setting.start) (k + 1) step := by
  obtain ⟨last, hsteps, h⟩ := exists_of_bind_eq_ok h
  obtain rfl := Except.ok.inj h
  obtain ⟨hlength, hreports⟩ := State.isOn_of_steps hsteps
  refine ⟨hlength, fun k report step hreport hstep => ?_⟩
  rw [Nat.add_comm]
  exact hreports k report step hreport hstep

/-! ## Expectations -/

theorem Report.mismatchText?_eq_none_iff :
    report.mismatchText? = none ↔ report.meetsExpectation = true := by
  unfold mismatchText? meetsExpectation
  cases report.expected with
  | none => simp
  | some expected => by_cases h : expected = report.outcome <;> simp [h]

theorem checkExpectations_eq_ok_iff :
    checkExpectations reports = .ok () ↔ ∀ report ∈ reports, report.meetsExpectation = true := by
  have hnone : reports.filterMap Report.mismatchText? = [] ↔
      ∀ report ∈ reports, report.meetsExpectation = true := by
    rw [List.filterMap_eq_nil_iff]
    exact forall₂_congr fun report _ => Report.mismatchText?_eq_none_iff
  unfold checkExpectations
  rw [← hnone]
  cases reports.filterMap Report.mismatchText? <;> simp

end Replay

/-! ## Replays -/

theorem LockError.exitCode_ne_zero (e : LockError) : e.exitCode ≠ 0 := by
  cases e <;> exact Nat.succ_ne_zero _

namespace Command

open Replay

variable {env : Environment} {config : Config} {path : String} {reports : List Report}

/-- Lines that have no line break of their own are those of the text. -/
theorem splitOn_joinLines {lines : List String} (h : ∀ line ∈ lines, '\n' ∉ line.toList) :
    (joinLines lines).toList.splitOn '\n' = lines.map String.toList ++ [[]] := by
  unfold joinLines
  rw [String.toList_join]
  induction lines with
  | nil => exact List.splitOn_nil '\n'
  | cons line rest ih =>
    obtain ⟨hline, hrest⟩ := List.forall_mem_cons.1 h
    rw [List.map_cons, List.flatMap_cons, String.toList_append, List.append_assoc]
    exact (List.splitOn_append_cons_self_of_not_mem hline _).trans
      (congrArg (line.toList :: ·) (ih hrest))

theorem Environment.run_of_replay (h : env.replay config path = .ok reports) :
    ∃ (script : Script) (setting : Setting), (∀ t ∈ script.start, t.OnClock) ∧
      setting.start = .epoch ∧
        script.run setting (config.tokenSeed.getD env.clock) = .ok reports := by
  obtain ⟨script, hscript, h⟩ := exists_of_bind_eq_ok h
  obtain ⟨timeout, -, h⟩ := exists_of_bind_eq_ok h
  refine ⟨script, _, ?_, rfl, h⟩
  unfold Environment.script at hscript
  split at hscript
  · exact Script.onClock_of_ofYaml hscript
  · cases hscript

theorem Output.exitCode_eq_zero_iff {output : Output} :
    output.exitCode = 0 ↔ output.result = .ok () := by
  obtain ⟨text, result⟩ := output
  cases result with
  | error e => exact iff_of_false e.exitCode_ne_zero (by simp)
  | ok _ => exact iff_of_true rfl rfl

theorem Action.run_replay_of_ok (h : env.replay config path = .ok reports) (json : Bool) :
    (Action.replay path json).run env config =
      ⟨joinLines (reports.map (reportLine json)), checkExpectations reports⟩ := by
  unfold Action.run
  dsimp only
  rw [h]

theorem Action.run_replay_of_error {e : LockError} (h : env.replay config path = .error e)
    (json : Bool) : (Action.replay path json).run env config = ⟨"", .error e⟩ := by
  unfold Action.run
  dsimp only
  rw [h]

/-- A replay ends well if and only if the script comes to its end, and every step has the outcome
that is expected of it. -/
theorem exitCode_replay (env : Environment) (config : Config) (path : String) (json : Bool) :
    ((Action.replay path json).run env config).exitCode = 0 ↔
      ∃ reports, env.replay config path = .ok reports ∧
        ∀ report ∈ reports, report.meetsExpectation = true := by
  rw [Output.exitCode_eq_zero_iff]
  cases hreplay : env.replay config path with
  | error e =>
    rw [Action.run_replay_of_error hreplay]
    simp
  | ok reports =>
    rw [Action.run_replay_of_ok hreplay, checkExpectations_eq_ok_iff]
    simp

/-- The records of a replay are the lines of its output. -/
theorem lines_replay (h : env.replay config path = .ok reports) :
    ((Action.replay path true).run env config).text.toList.splitOn '\n' =
      reports.map (·.toJson.render.toList) ++ [[]] := by
  rw [Action.run_replay_of_ok h, splitOn_joinLines]
  · rw [List.map_map]
    rfl
  · intro line hline
    obtain ⟨report, -, rfl⟩ := List.mem_map.1 hline
    exact (Json.printable_render report.toJson).newline_notMem

/-- The instants in the reports are read back from both forms in which they are told. -/
theorem instant_replay (h : env.replay config path = .ok reports) :
    ∀ report ∈ reports, Instant.ofTimestamp? report.instant.recordText = some report.instant ∧
      Instant.ofTimestamp? report.instant.displayText = some report.instant := by
  obtain ⟨script, setting, hclock, hepoch, hrun⟩ := Environment.run_of_replay h
  obtain ⟨hlength, hreports⟩ := Script.run_reports hrun
  intro report hreport
  obtain ⟨k, hk, rfl⟩ := List.getElem_of_mem hreport
  have hstart : (script.start.getD setting.start).OnClock := by
    cases hstart : script.start with
    | none =>
      rw [hepoch]
      unfold Instant.OnClock
      decide
    | some t => exact hclock t hstart
  have hclock := (hreports k _ _ (List.getElem?_eq_getElem hk)
    (List.getElem?_eq_getElem (hlength ▸ hk))).onClock hstart
  exact ⟨Instant.ofTimestamp?_timestamp hclock (by decide),
    Instant.ofTimestamp?_timestamp hclock (by decide)⟩

end Command

end PathLock
