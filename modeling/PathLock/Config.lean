import PathLock.Timeout
/-!
# Configuration

What a lock table and the replay of scripts can be configured with.
-/

namespace PathLock

/-- A configuration. -/
structure Config where
  /-- The number before the first token. Without it the clock decides. -/
  tokenSeed : Option UInt64 := none
  /-- The header of the timeout for scripted locks that are given none. -/
  defaultTimeout : String := "Infinite"
deriving DecidableEq, Repr

namespace Config

/-- The timeout for locks that are given none, if the configuration is valid. -/
def timeout? (config : Config) : Option Timeout :=
  Timeout.ofHeaderChars? config.defaultTimeout.toList

/-- Checks that the default timeout is a timeout header. -/
def validate (config : Config) : Except LockError Unit :=
  if config.timeout?.isSome then .ok ()
  else .error (.user (.badDefaultTimeout config.defaultTimeout))

end Config

end PathLock
