import PathLock.Number.Shortest
import PathLock.Replay.Script
import PathLock.Time.Rfc3339
import PathLock.Yaml.Value
/-!
# Reading scripts

A script is a YAML mapping with an optional `start`, a timestamp, and a sequence of `steps`. A step is
a mapping with the name of its operation as `op`, an optional offset `at`, an optional outcome
`expect`, and the fields of the operation. Other fields are ignored, but must have a meaning.

* `Script.ofYaml`: the script that a text holds.
-/

namespace PathLock.Replay

open Yaml

/-! ## Single places -/

/-- Reads the name of an outcome: a scalar with this text, or an empty one with this tag. -/
def Outcome.ofNode (d : Document) (node : Yaml.Node) : Visit Outcome := do
  match ← d.resolve node with
  | .scalar tag style text =>
    match tag.bind Tag.localName? with
    | none => ofName? text
    | some name =>
      if style = .plain ∧ (text = "" ∨ Plain.isNull text.toList) then ofName? name else failure
  | _ => failure

/-- Reads a timestamp. -/
def timestamp (d : Document) (node : Yaml.Node) : Visit Instant := do
  Instant.ofTimestamp? (← d.text node)

/-! ## Operations -/

/-- The value of a field that must be there. -/
def required? {α : Type} (read : Value → Option α) (fields : List (String × Value)) (name : String) :
    Option α := do
  read (← ← field? fields name)

/-- The value of a field that may be missing. -/
def defaulted? {α : Type} (default : α) (read : Value → Option α) (fields : List (String × Value))
    (name : String) : Option α := do
  match ← field? fields name with
  | some value => read value
  | none => some default

/-- A text that may be missing or null. -/
def label? (fields : List (String × Value)) (name : String) : Option (Option String) :=
  defaulted? none (Value.optional Value.asText?) fields name

/-- The name of an operation, which may be given by its number. -/
def operationName? : Value → Option String
  | .text name => some name
  | .natural n => Operation.names[n]?
  | _ => none

/-- Reads an operation from the fields of a step. -/
def Operation.ofFields? (fields : List (String × Value)) : Option Operation := do
  match ← required? operationName? fields "op" with
  | "create" =>
    return .create (← required? Value.asText? fields "root") (← label? fields "timeout")
      (← defaulted? false Value.asBool? fields "zero_depth") (← label? fields "owner")
      (← label? fields "as")
  | "refresh" =>
    return .refresh (← required? Value.asText? fields "token") (← label? fields "timeout")
  | "unlock" => return .unlock (← required? Value.asText? fields "token")
  | "confirm" =>
    return .confirm (← defaulted? [] Value.asTexts? fields "names")
      (← defaulted? [] Value.asTexts? fields "tokens") (← label? fields "as")
  | "release" => return .release (← required? Value.asText? fields "claim")
  | "lookup" => return .lookup (← required? Value.asText? fields "name")
  | "delete" => return .delete (← required? Value.asText? fields "name")
  | _ => none

/-! ## Steps -/

/-- A step as it is written, with an offset that may be no valid one. -/
structure Draft where
  seconds : Binary64
  expected : Option Outcome
  operation : Operation
deriving DecidableEq, Repr

/-- How deep the value of a field may be nested. -/
def fieldDepth : Nat := 125

/-- Whether a field belongs to the step, whatever its operation is. -/
def isStepField (name : String) : Bool := name == "at" || name == "expect"

/-- Reads a step. -/
def Draft.ofNode (d : Document) (node : Yaml.Node) : Visit Draft := do
  let fields ← d.fields (some node)
  let seconds ← match ← field? fields "at" with
    | some node => d.number node
    | none => pure .zero
  let expected ← match ← field? fields "expect" with
    | some node => d.optional (Outcome.ofNode d) node
    | none => pure none
  let others ← (fields.filter fun field => !isStepField field.1).mapM fun (name, node) => do
    return (name, ← Value.ofNode d fieldDepth node)
  return { seconds, expected, operation := ← Operation.ofFields? others }

/-- The step of a draft whose offset is valid. The number of the step is for the error. -/
def Draft.toStep (number : Nat) (draft : Draft) : Except LockError Step :=
  match Offset.ofSeconds? draft.seconds with
  | some offset => .ok { offset, expected := draft.expected, operation := draft.operation }
  | none => .error (.user (.negativeOffset number draft.seconds.text))

/-- The steps of drafts, the first with the given number. -/
def Draft.toSteps : Nat → List Draft → Except LockError (List Step)
  | _, [] => .ok []
  | number, draft :: rest => do
    return (← draft.toStep number) :: (← toSteps (number + 1) rest)

/-! ## Scripts -/

/-- Reads the start and the drafts of the steps that a document holds. -/
def drafts (d : Document) : Visit (Option Instant × List Draft) := do
  let fields ← d.fields d.root
  let start ← match ← field? fields "start" with
    | some node => d.optional (timestamp d) node
    | none => pure none
  let steps ← d.items (← ← field? fields "steps")
  return (start, ← steps.mapM (Draft.ofNode d))

/-- Reads a script. The first step with an invalid offset is reported once everything is read. -/
def Script.ofYaml (text : String) : Except LockError Script :=
  match (Document.read? text).bind fun d => d.visit? (drafts d) with
  | none => .error (.user .malformedScript)
  | some (start, drafts) => do
    return { start, steps := ← Draft.toSteps 1 drafts }

end PathLock.Replay
