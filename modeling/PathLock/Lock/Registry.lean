import Std.Data.TreeMap
import PathLock.Lock.Slots
/-!
# Lock tokens

Tokens are the decimal numerals of a 64-bit counter, and lead to the nodes they lock.
-/

namespace PathLock

/-- The counter behind the tokens, and the nodes of the tokens in use. -/
structure Registry where
  counter : UInt64
  byToken : Std.TreeMap String Handle := {}

namespace Registry

/-- The text of a counter as a token. -/
def tokenText (counter : UInt64) : String := counter.toNat.repr

/-- Counts on, wrapping round at the end, and issues the next token. -/
def issue (registry : Registry) : String × Registry :=
  let counter := registry.counter + 1
  (tokenText counter, { registry with counter })

/-- Lets a token lead to a node. -/
def register (registry : Registry) (token : String) (id : Handle) : Registry :=
  { registry with byToken := registry.byToken.insert token id }

/-- The node that a token leads to. -/
def find? (registry : Registry) (token : String) : Option Handle := registry.byToken[token]?

/-- Forgets a token. -/
def erase (registry : Registry) (token : String) : Registry :=
  { registry with byToken := registry.byToken.erase token }

/-- The number of tokens in use. -/
def size (registry : Registry) : Nat := registry.byToken.size

end Registry

end PathLock
