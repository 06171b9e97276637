import PathLock.Command.Arguments
import PathLock.Config.Reader
import PathLock.Replay.Run
import PathLock.Replay.Script.Reader
/-!
# Commands

* `Environment`: what a command may ask of its surroundings.
* `Invocation.run`: what a command prints and how it ends.
-/

namespace PathLock.Command

/-- What a command may ask of its surroundings. -/
structure Environment where
  /-- The name of the user, in the owner of scripted locks. -/
  user : String
  /-- The name of the host, in the owner of scripted locks. -/
  host : String
  /-- The seconds since 1970, the seed of tokens where the configuration has none. -/
  clock : UInt64
  /-- The text at a path, or the reason why it cannot be read. -/
  read : String → Except String String

/-- What a command prints, and how it ends. -/
structure Output where
  text : String
  result : Except LockError Unit
deriving Repr

/-- The exit code of a program with this output. -/
def Output.exitCode (output : Output) : Nat :=
  match output.result with
  | .ok () => 0
  | .error e => e.exitCode

namespace Environment

/-- The configuration at a path, or the one that stands for none. -/
def config (env : Environment) : Option String → Except LockError Config
  | none => .ok {}
  | some path =>
    match env.read path with
    | .ok text => Config.ofYaml text
    | .error reason => .error (.user (.unreadableConfig path reason))

/-- The script at a path. -/
def script (env : Environment) (path : String) : Except LockError Replay.Script :=
  match env.read path with
  | .ok text => Replay.Script.ofYaml text
  | .error reason => .error (.user (.unreadableScript path reason))

/-- The reports of the script at a path. -/
def replay (env : Environment) (config : Config) (path : String) :
    Except LockError (List Replay.Report) := do
  Replay.run config (Replay.ownerXml env.user env.host) env.clock (← env.script path)

end Environment

/-- Text in lines, each with its end. -/
def joinLines (lines : List String) : String := String.join (lines.map fun line => line ++ "\n")

/-- The line of a report, or its record in compact form. -/
def reportLine (json : Bool) (report : Replay.Report) : String :=
  if json then report.toJson.render else report.text

/-- Does what is asked for. -/
def Action.run (env : Environment) (config : Config) : Action → Output
  | .timeout header =>
    match Timeout.normalize header with
    | .ok text => { text := joinLines [text], result := .ok () }
    | .error e => { text := "", result := .error e }
  | .replay path json =>
    match env.replay config path with
    | .ok reports =>
      { text := joinLines (reports.map (reportLine json))
        result := Replay.checkExpectations reports }
    | .error e => { text := "", result := .error e }

/-- Reads the configuration and does what is asked for. -/
def Invocation.run (env : Environment) (invocation : Invocation) : Output :=
  match env.config invocation.options.config with
  | .ok config => invocation.action.run env config
  | .error e => { text := "", result := .error e }

/-- The paths that a command may read. -/
def Invocation.paths (invocation : Invocation) : List String :=
  invocation.options.config.toList ++
    match invocation.action with
    | .timeout _ => []
    | .replay path _ => [path]

end PathLock.Command
