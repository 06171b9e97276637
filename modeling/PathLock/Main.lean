import Std.Time.DateTime.Timestamp
import PathLock.Command.Run
/-!
# The program

Asks the surroundings for what a command needs, runs the command, and prints what it answers.
-/

namespace PathLock.Command

/-- What is said about the use of the program. -/
def usage : String :=
  joinLines ["Usage: pathlock [OPTIONS] <COMMAND>", "",
    "Commands:",
    "  timeout HEADER          print a Timeout header in its normal form",
    "  replay SCRIPT [--json]  run a scripted lock session",
    "  help [COMMAND]          print this text", "",
    "Options:",
    "  --config PATH           read a YAML configuration",
    "  --log-level FILTER      filter diagnostics",
    "  -h, --help              print this text",
    "  -V, --version           print the version"]

/-- The name and the version of the program. -/
def version : String := "pathlock 0.1.0"

/-- The number that the operating system gives a failure. It may be reported with its sign changed. -/
def failureNumber (code : UInt32) : Nat := min code.toNat (UInt32.size - code.toNat)

/-- A reason with the number of the failure. -/
def numbered (code : UInt32) (reason : String) : String :=
  reason ++ " (os error " ++ (failureNumber code).repr ++ ")"

/-- The reason why a file cannot be read. -/
def readFailure : IO.Error → String
  | .noFileOrDirectory _ code _ => numbered code "No such file or directory"
  | .permissionDenied _ code _ => numbered code "Permission denied"
  | .inappropriateType _ code _ =>
    numbered code (if failureNumber code = 20 then "Not a directory" else "Is a directory")
  | .invalidArgument _ code _ =>
    numbered code (if failureNumber code = 36 then "File name too long" else "Invalid argument")
  | .userError _ => "stream did not contain valid UTF-8"
  | e => toString e

/-- The text at a path, or the reason why it cannot be read. -/
def readText (path : String) : IO (Except String String) := do
  try return .ok (← IO.FS.readFile path)
  catch e => return .error (readFailure e)

/-- The name of the user, from the variables that hold it. -/
def userName : IO String := do
  match ← IO.getEnv "USER", ← IO.getEnv "USERNAME" with
  | some user, _ => return user
  | none, some user => return user
  | none, none => return "unknown"

/-- The name of the host. -/
def hostName : IO String := do
  match ← readText "/proc/sys/kernel/hostname" with
  | .ok name => return String.ofList (name.toList.filter (· ≠ '\n'))
  | .error _ => return "unknown"

/-- The seconds since 1970, 0 before that. -/
def clock : IO UInt64 := do
  return UInt64.ofNat (← Std.Time.Timestamp.now).toSecondsSinceUnixEpoch.val.toNat

/-- The surroundings of a command that reads these paths. -/
def environment (paths : List String) : IO Environment := do
  let texts ← paths.mapM fun path => do return (path, ← readText path)
  return {
    user := ← userName
    host := ← hostName
    clock := ← clock
    read := fun path => (texts.lookup path).getD (.error "not read") }

/-- Runs a command and prints what it answers. -/
def execute (invocation : Invocation) : IO UInt32 := do
  let output := invocation.run (← environment invocation.paths)
  IO.print output.text
  if let .error e := output.result then IO.eprintln ("Error: " ++ e.message)
  return UInt32.ofNat output.exitCode

/-- Says why there is nothing to do. -/
def halt (stop : Stop) : IO UInt32 := do
  match stop with
  | .help => IO.print usage
  | .version => IO.println version
  | .refused => IO.eprint usage
  return UInt32.ofNat stop.exitCode

end PathLock.Command

/-- The program. -/
def main (arguments : List String) : IO UInt32 :=
  match PathLock.Command.Invocation.ofArguments arguments with
  | .ok invocation => PathLock.Command.execute invocation
  | .error stop => PathLock.Command.halt stop
