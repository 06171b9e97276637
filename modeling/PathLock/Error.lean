/-!
# Errors

What can go wrong, by cause, with the text, the exit code and the advice that belong to each.

* `LockError`: every failure of the library.
* `LockError.message`, `LockError.exitCode`, `LockError.isRetryable`.
-/

namespace PathLock

/-- A rule of the lock table that was found broken. -/
inductive Fault
  /-- A token is registered for a node that does not exist. -/
  | missingNode
  /-- The lock on this root was to be held but is held already. -/
  | alreadyHeld (root : String)
  /-- The lock on this root was to be let go but is not held. -/
  | notHeld (root : String)
  /-- Any other fault, by its text. -/
  | other (text : String)
deriving DecidableEq, Repr

/-- The text of a fault. -/
def Fault.message : Fault → String
  | missingNode => "token registered for a missing node"
  | alreadyHeld root => "lock on '" ++ root ++ "' is already held"
  | notHeld root => "lock on '" ++ root ++ "' is not held"
  | other text => text

/-- A mistake in what the user gave: a config, a script or a file name. -/
inductive Mistake
  /-- The config file cannot be read. -/
  | unreadableConfig (path reason : String)
  /-- The config is not a document of the expected form. -/
  | malformedConfig
  /-- The default timeout of the config is not a timeout header. -/
  | badDefaultTimeout (header : String)
  /-- The script file cannot be read. -/
  | unreadableScript (path reason : String)
  /-- The script is not a document of the expected form. -/
  | malformedScript
  /-- A step's offset is negative or no finite number. -/
  | negativeOffset (step : Nat) (offset : String)
  /-- A step's offset leads out of the range of instants. -/
  | offsetOutOfRange (step : Nat) (offset : String)
  /-- A confirm step names more than two resources. -/
  | tooManyNames (step count : Nat)
  /-- A release step names no outstanding claim. -/
  | claimNotOutstanding (step : Nat) (claim : String)
  /-- Any other mistake, by its text. -/
  | other (text : String)
deriving DecidableEq, Repr

/-- A failure of the library. -/
inductive LockError
  /-- The presented conditions claim nothing for some name. -/
  | confirmationFailed
  /-- The caller may not do this. -/
  | forbidden
  /-- The resource, or the lock itself, is locked. -/
  | locked
  /-- No lock has this token or covers this resource. -/
  | noSuchLock
  /-- The text is not a timeout header. -/
  | invalidTimeout (header : String)
  /-- The lock table broke one of its rules. -/
  | internal (fault : Fault)
  /-- The user made a mistake. -/
  | user (mistake : Mistake)
  /-- Some replayed steps had other outcomes than they declared. -/
  | expectationMismatch (text : String)
deriving DecidableEq, Repr

/-- The text for a header that is not a timeout. -/
def invalidTimeoutText (header : String) : String := "invalid timeout: " ++ header

/-- The text of a mistake. -/
def Mistake.message : Mistake → String
  | unreadableConfig path reason => "failed to read config file '" ++ path ++ "': " ++ reason
  | malformedConfig => "failed to parse config YAML"
  | badDefaultTimeout header =>
    "config validation failed: default_timeout: " ++ invalidTimeoutText header
  | unreadableScript path reason => "failed to read replay script '" ++ path ++ "': " ++ reason
  | malformedScript => "failed to parse replay script"
  | negativeOffset step offset =>
    "step " ++ step.repr ++ ": 'at' must be a non-negative number of seconds (found " ++ offset ++ ")"
  | offsetOutOfRange step offset =>
    "step " ++ step.repr ++ ": 'at' offset " ++ offset ++ " is out of range"
  | tooManyNames step count =>
    "step " ++ step.repr ++ ": confirm takes at most two names (found " ++ count.repr ++ ")"
  | claimNotOutstanding step claim =>
    "step " ++ step.repr ++ ": claim '" ++ claim ++ "' is not outstanding"
  | other text => text

namespace LockError

/-- The text of an error. -/
def message : LockError → String
  | confirmationFailed => "confirmation failed"
  | forbidden => "forbidden"
  | locked => "locked"
  | noSuchLock => "no such lock"
  | invalidTimeout header => invalidTimeoutText header
  | internal fault => "internal lock manager fault: " ++ fault.message
  | user mistake => mistake.message
  | expectationMismatch text => "replay expectation failed: " ++ text

/-- The exit code of a program that ends with this error. Success is 0. -/
def exitCode : LockError → Nat
  | user _ => 1
  | invalidTimeout _ => 1
  | confirmationFailed => 2
  | forbidden => 3
  | locked => 4
  | noSuchLock => 5
  | internal _ => 6
  | expectationMismatch _ => 7

/-- Whether the caller may try again with other conditions. -/
def isRetryable : LockError → Bool
  | confirmationFailed => true
  | _ => false

end LockError

end PathLock
