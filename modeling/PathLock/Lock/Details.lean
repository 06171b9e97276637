import PathLock.Timeout
import PathLock.Time.Rfc3339
/-!
# Locks as callers see them

* `Details`: what a lock is, as given when it is created.
* `Condition`: a claim presented by a caller; only its token takes part in matching.
* `LockInfo`: a lock found by name, and its description in one line.
-/

namespace PathLock

/-- What a lock is. A zero-depth lock covers its root alone, any other the whole subtree. -/
structure Details where
  root : String
  duration : Timeout
  /-- The `owner` element of the request, as it was given. -/
  ownerXml : String := ""
  zeroDepth : Bool := false
deriving DecidableEq, Repr

/-- The details of a node that is there only because something below it is locked. -/
def Details.anchor (root : String) : Details := { root, duration := .infinite }

/-- A condition of a request, which presents a lock token. -/
structure Condition where
  negated : Bool := false
  token : String := ""
  etag : String := ""
deriving DecidableEq, Repr

/-- The condition that presents a token and nothing else. -/
def Condition.ofToken (token : String) : Condition := { token }

/-- A lock found by name. -/
structure LockInfo where
  token : String
  expiry : Option Instant
  details : Details
deriving DecidableEq, Repr

/-- The description of a lock: root, token, depth, timeout and, if it has one, expiry. -/
def LockInfo.describe (info : LockInfo) : String :=
  info.details.root ++ " (token: " ++ info.token ++ ", depth: " ++
    (if info.details.zeroDepth then "0" else "infinity") ++ ", timeout: " ++
    info.details.duration.header ++
    (match info.expiry with
      | some instant => ", expires: " ++ instant.displayText
      | none => "") ++ ")"

end PathLock
