import Std.Data.TreeMap
import PathLock.Config
import PathLock.Lock.Table
import PathLock.Number.Shortest
import PathLock.Replay.Report
/-!
# Running scripts

A script runs against a lock table of its own. The instants of its steps are the only time there is.

* `Setting`, `State`: what stays and what changes while a script runs.
* `State.perform`, `State.step`: one operation, and one step with its report.
* `run`: all steps.

A failing lock operation is part of the report and the script goes on. Some mistakes end the run: a
step out of the range of instants, a claim of more than two names, the release of a claim that is not
outstanding.
-/

namespace PathLock.Replay

/-- What stays the same while a script runs. -/
structure Setting where
  /-- The instant from which offsets count. -/
  start : Instant := .epoch
  /-- The timeout of locks that are given none. -/
  timeout : Timeout
  /-- The owner of locks that are given none. -/
  ownerXml : String

/-- What changes while a script runs: the lock table, and what labels stand for. -/
structure State where
  table : LockTable
  tokens : Std.TreeMap String String := ∅
  /-- The outstanding claims. -/
  claims : Std.TreeMap String Claim := ∅

/-- The `owner` element for a user on a host. -/
def ownerXml (user host : String) : String := "<D:href>" ++ user ++ "@" ++ host ++ "</D:href>"

/-- The timeout for a header that may be missing. -/
def Setting.timeoutOf (setting : Setting) : Option String → Except LockError Timeout
  | some header => Timeout.parse header
  | none => .ok setting.timeout

namespace State

/-- The token that a name in a script stands for. -/
def token (s : State) (name : String) : String := s.tokens[name]?.getD name

/-- Gives a token a label, if there is one. -/
def labelToken (s : State) (token : String) : Option String → State
  | some label => { s with tokens := s.tokens.insert label token }
  | none => s

/-- Releases a claim. -/
def release (s : State) (claim : Claim) : Except LockError Unit × State :=
  let (result, table) := s.table.release claim
  (result, { s with table })

/-- Keeps a claim under a label. The claim that had the label before is released, and a claim without
a label is released at once. A fault in the release ends the run. -/
def keep (s : State) (claim : Claim) (label : Option String) : Except LockError State :=
  let (dropped, s) := match label with
    | some label => (s.claims[label]?, { s with claims := s.claims.insert label claim })
    | none => (some claim, s)
  match dropped with
  | none => .ok s
  | some dropped =>
    match s.release dropped with
    | (.ok (), s) => .ok s
    | (.error e, _) => .error e

/-- Performs the operation of the step with the given number. The outer error ends the run, the inner
one is what the operation answers. A bad timeout fails before the table is touched. -/
def perform (s : State) (setting : Setting) (number : Nat) (now : Instant) :
    Operation → Except LockError (Except LockError Finding × State)
  | .create root timeout zeroDepth owner label =>
    match setting.timeoutOf timeout with
    | .error e => .ok (.error e, s)
    | .ok duration =>
      let details : Details :=
        { root, duration, ownerXml := owner.getD setting.ownerXml, zeroDepth }
      match s.table.create now details with
      | (.ok token, table) => .ok (.ok (.token token), { s with table }.labelToken token label)
      | (.error e, table) => .ok (.error e, { s with table })
  | .refresh name timeout =>
    match setting.timeoutOf timeout with
    | .error e => .ok (.error e, s)
    | .ok duration =>
      let (result, table) := s.table.refresh now (s.token name) duration
      .ok (result.map .details, { s with table })
  | .unlock name =>
    let (result, table) := s.table.unlock now (s.token name)
    .ok (result.map fun _ => .nothing, { s with table })
  | .confirm names tokens label =>
    if 2 < names.length then .error (.user (.tooManyNames number names.length))
    else
      let conditions := tokens.map fun name => .ofToken (s.token name)
      match s.table.confirm now (names[0]?.getD "") (names[1]?.getD "") conditions with
      | (.ok claim, table) => do
        return (.ok (.claimed claim.tokens), ← { s with table }.keep claim label)
      | (.error e, table) => .ok (.error e, { s with table })
  | .release label =>
    match s.claims[label]? with
    | none => .error (.user (.claimNotOutstanding number label))
    | some claim =>
      let (result, s) := { s with claims := s.claims.erase label }.release claim
      .ok (result.map fun _ => .nothing, s)
  | .lookup name =>
    let (result, table) := s.table.lockAt now name
    .ok (result.map .lock, { s with table })
  | .delete name => .ok (.ok .nothing, { s with table := s.table.delete now name })

/-- Runs the step with the given number. -/
def step (s : State) (setting : Setting) (number : Nat) (step : Step) :
    Except LockError (Report × State) :=
  match step.offset.after? setting.start with
  | none => .error (.user (.offsetOutOfRange number step.offset.seconds.text))
  | some instant => do
    let (result, s) ← s.perform setting number instant step.operation
    let report : Report :=
      { number, instant, operation := step.operation.name, expected := step.expected, result }
    return (report, s)

/-- Runs steps, the first with the given number. -/
def steps (s : State) (setting : Setting) : Nat → List Step → Except LockError (List Report × State)
  | _, [] => .ok ([], s)
  | number, step :: rest => do
    let (report, s) ← s.step setting number step
    let (reports, s) ← s.steps setting (number + 1) rest
    return (report :: reports, s)

end State

/-- The reports of a script in a setting, on a table whose first token follows `seed`. -/
def Script.run (script : Script) (setting : Setting) (seed : UInt64) :
    Except LockError (List Report) := do
  let setting := { setting with start := script.start.getD setting.start }
  let (reports, _) ← State.steps { table := .empty seed } setting 1 script.steps
  return reports

/-- Runs a script as a configuration says. The clock gives the seed if the configuration does not. -/
def run (config : Config) (ownerXml : String) (clock : UInt64) (script : Script) :
    Except LockError (List Report) := do
  let timeout ← Timeout.parse config.defaultTimeout
  script.run { timeout, ownerXml } (config.tokenSeed.getD clock)

end PathLock.Replay
