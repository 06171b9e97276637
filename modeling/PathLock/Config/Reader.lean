import PathLock.Config
import PathLock.Yaml.Visit
/-!
# Reading configurations

A configuration is a YAML mapping with the optional fields `token_seed` and `default_timeout`. An
empty document stands for the mapping without fields. Other fields are ignored.
-/

namespace PathLock.Config

/-- The name of the field for the token seed. -/
def seedField : String := "token_seed"

/-- The name of the field for the default timeout. -/
def timeoutField : String := "default_timeout"

/-- Reads a token seed, which 64 bits must hold. -/
def seed (d : Yaml.Document) (node : Yaml.Node) : Yaml.Visit UInt64 := do
  let n ← d.natural node
  if n < UInt64.size then return UInt64.ofNat n else failure

/-- Reads the configuration that a document holds. -/
def read (d : Yaml.Document) : Yaml.Visit Config := do
  let fields ← d.fields d.root
  let seed ← match ← Yaml.field? fields seedField with
    | some node => d.optional (seed d) node
    | none => pure none
  let timeout ← match ← Yaml.field? fields timeoutField with
    | some node => d.text node
    | none => pure "Infinite"
  return { tokenSeed := seed, defaultTimeout := timeout }

/-- The configuration that a document holds. -/
def ofDocument? (d : Yaml.Document) : Option Config := d.visit? (read d)

/-- Reads and validates a configuration. -/
def ofYaml (text : String) : Except LockError Config :=
  match (Yaml.Document.read? text).bind ofDocument? with
  | none => .error (.user .malformedConfig)
  | some config => do
    config.validate
    return config

end PathLock.Config
