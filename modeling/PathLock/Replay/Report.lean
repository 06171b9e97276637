import PathLock.Lock.Record
import PathLock.Replay.Script
/-!
# Reports

What the steps of a script did, as text, as JSON records, and against what they were meant to do.

* `Finding`, `Report`: the result of an operation and of a step.
* `Report.text`, `Report.toJson`: a report in one line and as a record.
* `Report.meetsExpectation`, `checkExpectations`: whether steps had the outcomes that the script expects.
-/

namespace PathLock.Replay

/-- What a successful operation has to show. -/
inductive Finding
  | nothing
  /-- The token of a new lock. -/
  | token (token : String)
  /-- The tokens of claimed locks. -/
  | claimed (tokens : List String)
  /-- A lock with its new timeout. -/
  | details (details : Details)
  /-- The lock that covers a name. -/
  | lock (info : LockInfo)
deriving DecidableEq, Repr

/-- What a step did. Steps are numbered from 1. -/
structure Report where
  number : Nat
  instant : Instant
  /-- The name of the operation. -/
  operation : String
  /-- The outcome that the step was meant to have. -/
  expected : Option Outcome
  result : Except LockError Finding
deriving Repr

namespace Report

/-- The outcome of a step. -/
def outcome (report : Report) : Outcome :=
  match report.result with
  | .ok _ => .ok
  | .error e => .ofError e

/-- Whether a step had the outcome it was meant to have, if there was one. -/
def meetsExpectation (report : Report) : Bool :=
  match report.expected with
  | some expected => expected == report.outcome
  | none => true

/-! ## Text -/

/-- What a finding adds to the line of its step. -/
def findingText : Finding → String
  | .nothing => ""
  | .token token => " token=" ++ token
  | .claimed [] => ""
  | .claimed tokens => " claimed=" ++ ",".intercalate tokens
  | .details details => " timeout=" ++ details.duration.header
  | .lock info => " lock=" ++ info.describe

/-- What an outcome other than the expected one adds to the line of its step. -/
def expectationText (report : Report) : String :=
  match report.expected with
  | some expected => if report.meetsExpectation then "" else " (expected " ++ expected.name ++ ")"
  | none => ""

/-- The line of a step: its number in three columns, its instant, its operation in eight columns, its
outcome, and what there is to show. -/
def text (report : Report) : String :=
  "[" ++ String.ofList (report.number.repr.toList.leftpad 3 ' ') ++ "] " ++
    report.instant.displayText ++ " " ++
    String.ofList (report.operation.toList.rightpad 8 ' ') ++ " " ++ report.outcome.name ++
    (match report.result with
      | .ok finding => findingText finding
      | .error _ => "") ++
    report.expectationText

/-! ## Records -/

/-- The fields that a finding adds to the record of its step. -/
def findingFields : Finding → List (String × Json)
  | .nothing => []
  | .token token => [("token", .string token)]
  | .claimed [] => []
  | .claimed tokens => [("claimed", .array (tokens.map .string))]
  | .details details => [("details", details.toJson)]
  | .lock info => [("lock", info.toJson)]

/-- The record of a step. Fields without a value are left out. -/
def toJson (report : Report) : Json :=
  .object ([("step", .ofNat report.number), ("at", .string report.instant.recordText),
    ("op", .string report.operation), ("outcome", .string report.outcome.name)] ++
    (match report.expected with
      | some expected => [("expected", .string expected.name)]
      | none => []) ++
    match report.result with
      | .ok finding => findingFields finding
      | .error e => [("error", .string e.message)])

/-! ## Expectations -/

/-- What is said of a step with another outcome than it was meant to have. -/
def mismatchText? (report : Report) : Option String :=
  match report.expected with
  | some expected =>
    if report.meetsExpectation then none
    else some ("step " ++ report.number.repr ++ " (" ++ report.operation ++ "): expected " ++
      expected.name ++ ", got " ++ report.outcome.name)
  | none => none

end Report

/-- Fails if some step had another outcome than it was meant to have, and says which. -/
def checkExpectations (reports : List Report) : Except LockError Unit :=
  match reports.filterMap Report.mismatchText? with
  | [] => .ok ()
  | texts => .error (.expectationMismatch ("; ".intercalate texts))

end PathLock.Replay
