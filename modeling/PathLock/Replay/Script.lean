import PathLock.Error
import PathLock.Number.Binary64
import PathLock.Time.Instant
/-!
# Scripts

A lock session written down: operations with the times at which they run and the outcomes they are
meant to have.

* `Outcome`: the result of a step by its kind, with its name.
* `Operation`, `Step`, `Script`: what is to be done, and when.
* `Offset.after?`: the instant of a step.
-/

namespace PathLock.Replay

/-! ## Outcomes -/

/-- The kind of result that a step has. -/
inductive Outcome
  | ok
  | confirmationFailed
  | forbidden
  | locked
  | noSuchLock
  | invalidTimeout
  | internal
deriving DecidableEq, Repr

namespace Outcome

/-- All kinds of results. -/
def all : List Outcome :=
  [ok, confirmationFailed, forbidden, locked, noSuchLock, invalidTimeout, internal]

/-- The name of an outcome in scripts and reports. -/
def name : Outcome → String
  | ok => "ok"
  | confirmationFailed => "confirmation_failed"
  | forbidden => "forbidden"
  | locked => "locked"
  | noSuchLock => "no_such_lock"
  | invalidTimeout => "invalid_timeout"
  | internal => "internal"

/-- The outcome with a name. -/
def ofName? (name : String) : Option Outcome := all.find? fun outcome => outcome.name == name

/-- The outcome of a step that fails with an error. Mistakes of the user have no kind of their own. -/
def ofError : LockError → Outcome
  | .confirmationFailed => confirmationFailed
  | .forbidden => forbidden
  | .locked => locked
  | .noSuchLock => noSuchLock
  | .invalidTimeout _ => invalidTimeout
  | .internal _ => internal
  | .user _ => internal
  | .expectationMismatch _ => internal

theorem ofName?_name (outcome : Outcome) : ofName? outcome.name = some outcome := by
  cases outcome <;> decide +kernel

end Outcome

/-! ## Operations -/

/-- What a step does. Tokens and claims may be given by labels of earlier steps; a token that is no
label stands for itself. -/
inductive Operation
  /-- Creates a lock, whose token gets the label. -/
  | create (root : String) (timeout : Option String) (zeroDepth : Bool) (owner : Option String)
      (label : Option String)
  /-- Gives a lock a new timeout. -/
  | refresh (token : String) (timeout : Option String)
  /-- Removes a lock. -/
  | unlock (token : String)
  /-- Claims the locks on names. The claim gets the label; without one it is released at once. -/
  | confirm (names tokens : List String) (label : Option String)
  /-- Releases a claim. -/
  | release (claim : String)
  /-- Asks for the lock that covers a name. -/
  | lookup (name : String)
  /-- Removes the lock rooted at a name. -/
  | delete (name : String)
deriving DecidableEq, Repr

namespace Operation

/-- The names of the operations, in the order by which they may also be numbered. -/
def names : List String :=
  ["create", "refresh", "unlock", "confirm", "release", "lookup", "delete"]

/-- The name of an operation. -/
def name : Operation → String
  | create _ _ _ _ _ => "create"
  | refresh _ _ => "refresh"
  | unlock _ => "unlock"
  | confirm _ _ _ => "confirm"
  | release _ => "release"
  | lookup _ => "lookup"
  | delete _ => "delete"

end Operation

/-! ## Steps -/

/-- A number of seconds after the start. -/
structure Offset where
  seconds : Binary64
  isFinite : seconds.isFinite = true
  nonnegative : seconds.isNegative = false
deriving DecidableEq, Repr

namespace Offset

/-- The offset of a number of seconds that is finite and not negative. -/
def ofSeconds? (seconds : Binary64) : Option Offset :=
  if h : seconds.isFinite = true ∧ seconds.isNegative = false then some ⟨seconds, h.1, h.2⟩ else none

/-- The offset rounded to milliseconds; none if that is out of the range of the numbers. -/
def millis? (offset : Offset) : Option Int := (offset.seconds.timesNat 1000).round?

/-- The instant that lies an offset after a start, if it is in range. -/
def after? (start : Instant) (offset : Offset) : Option Instant := do
  start.add? ((← offset.millis?) * nanosPerMilli)

end Offset

/-- A timed operation. -/
structure Step where
  offset : Offset
  /-- The outcome that the step is meant to have. -/
  expected : Option Outcome
  operation : Operation
deriving DecidableEq, Repr

/-- A lock session. Steps run in the order given, also when their offsets go back. -/
structure Script where
  /-- The instant from which offsets count; the epoch if there is none. -/
  start : Option Instant
  steps : List Step
deriving DecidableEq, Repr

end PathLock.Replay
