import PathLock.Config.Reader
import PathLock.Yaml.Writer
/-!
# Writing configurations

A configuration is written as a YAML mapping, one field after the other. A missing token seed is left
out.
-/

namespace PathLock.Config

/-- The line of the token seed, if there is one. -/
def seedLine : Option UInt64 → List Char
  | some seed => seedField.toList ++ ':' :: ' ' :: (seed.toNat.repr.toList ++ ['\n'])
  | none => []

/-- The YAML text of a configuration. -/
def toYaml (config : Config) : String :=
  String.ofList (seedLine config.tokenSeed ++
    Yaml.Scalar.writtenAt timeoutField.toList config.defaultTimeout.toList)

end PathLock.Config
