import PathLock.Lock.Table
/-!
# Sessions

A run of one lock table, call by call, with the claims that are outstanding.

* `Call`, `Answer`: a call with all it is given, and what it is answered.
* `Session.step`, `Session.run`: one call, and a list of calls.
-/

namespace PathLock

/-- A call. Claims are known by number, in the order in which they were made, from 0. -/
inductive Call
  | create (now : Instant) (details : Details)
  | refresh (now : Instant) (token : String) (duration : Timeout)
  | unlock (now : Instant) (token : String)
  | confirm (now : Instant) (name₀ name₁ : String) (conditions : List Condition)
  /-- Confirms, and leaves the claim to a guard. -/
  | guard (now : Instant) (name₀ name₁ : String) (conditions : List Condition)
  /-- Releases a claim, or the claim of a guard. -/
  | release (number : Nat)
  /-- Lets a guard go, which releases its claim and keeps the result to itself. -/
  | dropGuard (number : Nat)
  | lockAt (now : Instant) (name : String)
  | delete (now : Instant) (name : String)
  | countAt (now : Instant)
  | size
  | isEmpty
deriving DecidableEq, Repr

/-- What a call is answered. -/
inductive Answer
  | done
  | token (token : String)
  | details (details : Details)
  | claim (number : Nat) (tokens : List String)
  | lock (info : LockInfo)
  | count (n : Nat)
  | truth (b : Bool)
  /-- There is no outstanding claim with the number. -/
  | noClaim
  | failed (error : LockError)
deriving DecidableEq, Repr

/-- The answer for a result: its value under `f`, or the error. -/
def Answer.ofResult {α : Type} (f : α → Answer) : Except LockError α → Answer
  | .ok a => f a
  | .error e => .failed e

/-- A lock table, the number of claims made so far and those not yet released. -/
structure Session where
  table : LockTable
  claimsMade : Nat := 0
  outstanding : List (Nat × Claim) := []

namespace Session

/-- The session whose first token follows `seed`. -/
def start (seed : UInt64) : Session := { table := .empty seed }

/-- Claims locks. The claim is outstanding under the next number. -/
def claim (s : Session) (now : Instant) (name₀ name₁ : String) (conditions : List Condition) :
    Answer × Session :=
  match s.table.confirm now name₀ name₁ conditions with
  | (.ok claim, table) =>
    (.claim s.claimsMade claim.tokens,
      { table, claimsMade := s.claimsMade + 1,
        outstanding := (s.claimsMade, claim) :: s.outstanding })
  | (.error e, table) => (.failed e, { s with table })

/-- Releases the outstanding claim with this number, and answers with what `told` makes of the
result. -/
def release (s : Session) (number : Nat) (told : Except LockError Unit → Answer) :
    Answer × Session :=
  match s.outstanding.lookup number with
  | none => (.noClaim, s)
  | some claim =>
    let (result, table) := s.table.release claim
    (told result,
      { s with table, outstanding := s.outstanding.filter fun entry => entry.1 ≠ number })

/-- Makes one call. -/
def step (s : Session) : Call → Answer × Session
  | .create now details =>
    let (result, table) := s.table.create now details
    (.ofResult .token result, { s with table })
  | .refresh now token duration =>
    let (result, table) := s.table.refresh now token duration
    (.ofResult .details result, { s with table })
  | .unlock now token =>
    let (result, table) := s.table.unlock now token
    (.ofResult (fun _ => .done) result, { s with table })
  | .confirm now name₀ name₁ conditions => s.claim now name₀ name₁ conditions
  | .guard now name₀ name₁ conditions => s.claim now name₀ name₁ conditions
  | .release number => s.release number (.ofResult fun _ => .done)
  | .dropGuard number => s.release number fun _ => .done
  | .lockAt now name =>
    let (result, table) := s.table.lockAt now name
    (.ofResult .lock result, { s with table })
  | .delete now name => (.done, { s with table := s.table.delete now name })
  | .countAt now =>
    let (n, table) := s.table.countAt now
    (.count n, { s with table })
  | .size => (.count s.table.size, s)
  | .isEmpty => (.truth s.table.isEmpty, s)

/-- Makes calls in order and collects the answers. -/
def run (s : Session) : List Call → List Answer × Session
  | [] => ([], s)
  | call :: rest =>
    let (answer, s) := s.step call
    let (answers, s) := s.run rest
    (answer :: answers, s)

end Session

end PathLock
