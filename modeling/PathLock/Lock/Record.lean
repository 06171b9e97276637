import PathLock.Json
import PathLock.Lock.Details
/-!
# Locks as JSON records

Timeouts are written as headers, details and conditions as objects. Objects are read with any further
fields ignored; an array holds the values of the fields in order, and may leave out fields at its end
that have a default.
-/

namespace PathLock

/-! ## Timeouts -/

/-- The header of a timeout as a value. -/
def Timeout.toJson (timeout : Timeout) : Json := .string timeout.header

/-- Reads a timeout from a string that is a header. -/
def Timeout.ofJson? (value : Json) : Option Timeout := do
  Timeout.ofHeaderChars? (← value.asString?).toList

/-! ## Details -/

/-- The record of details. -/
def Details.toJson (details : Details) : Json :=
  .object [("root", .string details.root), ("duration", details.duration.toJson),
    ("owner_xml", .string details.ownerXml), ("zero_depth", .bool details.zeroDepth)]

/-- Details from the values of their fields. Root and duration must be there. -/
def Details.ofFields? (root duration ownerXml zeroDepth : Option Json) : Option Details := do
  return {
    root := ← (← root).asString?
    duration := ← Timeout.ofJson? (← duration)
    ownerXml := ← Json.orDefault "" Json.asString? ownerXml
    zeroDepth := ← Json.orDefault false Json.asBool? zeroDepth }

/-- Reads details from an object or an array. -/
def Details.ofJson? : Json → Option Details
  | .object fields => do
    Details.ofFields? (← Json.field? fields "root") (← Json.field? fields "duration")
      (← Json.field? fields "owner_xml") (← Json.field? fields "zero_depth")
  | .array items =>
    if items.length ≤ 4 then Details.ofFields? items[0]? items[1]? items[2]? items[3]? else none
  | _ => none

/-! ## Conditions -/

/-- The record of a condition. -/
def Condition.toJson (condition : Condition) : Json :=
  .object [("not", .bool condition.negated), ("token", .string condition.token),
    ("etag", .string condition.etag)]

/-- A condition from the values of its fields, all of which may be missing. -/
def Condition.ofFields? (negated token etag : Option Json) : Option Condition := do
  return {
    negated := ← Json.orDefault false Json.asBool? negated
    token := ← Json.orDefault "" Json.asString? token
    etag := ← Json.orDefault "" Json.asString? etag }

/-- Reads a condition from an object or an array. -/
def Condition.ofJson? : Json → Option Condition
  | .object fields => do
    Condition.ofFields? (← Json.field? fields "not") (← Json.field? fields "token")
      (← Json.field? fields "etag")
  | .array items =>
    if items.length ≤ 3 then Condition.ofFields? items[0]? items[1]? items[2]? else none
  | _ => none

/-! ## Locks found by name -/

/-- The record of a lock found by name. -/
def LockInfo.toJson (info : LockInfo) : Json :=
  .object [("token", .string info.token),
    ("expiry", Json.ofString? (info.expiry.map Instant.recordText)),
    ("details", info.details.toJson)]

end PathLock
