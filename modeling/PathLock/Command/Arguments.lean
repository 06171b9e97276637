/-!
# Command lines

Which arguments a command line may have, and what they ask for:

    [OPTIONS] timeout HEADER
    [OPTIONS] replay SCRIPT [--json]
    [OPTIONS] help [COMMAND]

The options `--config PATH` and `--log-level FILTER` may stand before and after the command, with the
value behind `=` or as the next argument. `--help`, `-h`, `--version` and `-V` may stand anywhere. After
`--` every argument is an operand.

* `Invocation`, `Stop`: what is to be done, and why nothing is.
* `Item.read`: one argument by its form.
* `Given.accept`: what an argument adds to those before it.
* `Invocation.ofArguments`: a whole command line.
-/

namespace PathLock.Command

/-! ## Requests -/

/-- What the program is to do. -/
inductive Action
  /-- Prints a timeout header in its normal form. -/
  | timeout (header : String)
  /-- Runs the script at a path and prints the reports, as records if `json` is set. -/
  | replay (script : String) (json : Bool)
deriving DecidableEq, Repr

/-- The options of every command. -/
structure Options where
  /-- The path of a configuration. -/
  config : Option String := none
  /-- A filter for diagnostics. It changes nothing of what the program answers. -/
  logLevel : Option String := none
deriving DecidableEq, Repr

/-- A complete request. -/
structure Invocation where
  options : Options
  action : Action
deriving DecidableEq, Repr

/-- Why there is nothing to do. -/
inductive Stop
  /-- The arguments are not a command line. -/
  | refused
  /-- Help was asked for. -/
  | help
  /-- The version was asked for. -/
  | version
deriving DecidableEq, Repr

/-- The exit code of a program that has nothing to do. -/
def Stop.exitCode : Stop → Nat
  | refused => 2
  | help => 0
  | version => 0

/-! ## Single arguments -/

/-- Where an argument stands: before the command, or behind it. -/
inductive Place
  | top
  | timeout
  | replay
deriving DecidableEq, Repr

/-- The place behind a command. -/
def Place.ofCommand? (name : String) : Option Place :=
  if name = "timeout" then some timeout else if name = "replay" then some replay else none

/-- A switch without a value. -/
inductive Flag
  | help
  | version
  | json
deriving DecidableEq, Repr

/-- The name of an option with a value. -/
inductive OptionName
  | config
  | logLevel
deriving DecidableEq, Repr

/-- The switch that a letter stands for. -/
def Flag.ofLetter? (c : Char) : Option Flag :=
  if c = 'h' then some help else if c = 'V' then some version else none

/-- The switch with a long name. -/
def Flag.ofName? (place : Place) (name : String) : Option Flag :=
  if name = "help" then some help
  else if name = "version" then some version
  else if name = "json" ∧ place = .replay then some json
  else none

/-- The option with a long name. -/
def OptionName.ofName? (name : String) : Option OptionName :=
  if name = "config" then some config
  else if name = "log-level" then some logLevel
  else none

/-- An argument by its form. -/
inductive Item
  /-- A value, an operand or a command. -/
  | word (text : String)
  /-- The mark after which all arguments are operands. -/
  | mark
  | flag (flag : Flag)
  /-- An option, with its value if that is part of the argument. -/
  | option (name : OptionName) (value : Option String)
  /-- Anything else. -/
  | unknown
deriving DecidableEq, Repr

/-- An argument that begins with two hyphens. -/
def Item.ofLong (place : Place) (other : Item) (body : List Char) : Item :=
  let name := String.ofList (body.takeWhile (· ≠ '='))
  let value := match body.dropWhile (· ≠ '=') with
    | [] => none
    | _ :: value => some (String.ofList value)
  match Flag.ofName? place name, OptionName.ofName? name with
  | some found, _ => if value.isNone then .flag found else .unknown
  | none, some found => .option found value
  | none, none => other

/-- An argument that begins with one hyphen: letters that are switches, of which the first ends all. -/
def Item.ofLetters (first : Char) : Item :=
  match Flag.ofLetter? first with
  | some found => .flag found
  | none => .unknown

/-- The form of an argument. If `free` is set, hyphens may also begin words, unless all that follows
them is known. -/
def Item.read (place : Place) (free : Bool) (text : String) : Item :=
  match text.toList with
  | ['-', '-'] => .mark
  | '-' :: '-' :: body => Item.ofLong place (if free then .word text else .unknown) body
  | '-' :: first :: rest =>
    if free && (first :: rest).any fun c => (Flag.ofLetter? c).isNone then .word text
    else Item.ofLetters first
  | _ => .word text

/-! ## Arguments in turn -/

/-- Gives an option a value. No option may be given twice, and a path may not be empty. -/
def Options.assign (options : Options) (value : String) : OptionName → Except Stop Options
  | .config =>
    if options.config.isSome ∨ value = "" then .error .refused
    else .ok { options with config := some value }
  | .logLevel =>
    if options.logLevel.isSome then .error .refused
    else .ok { options with logLevel := some value }

/-- The options of a command line from those behind the command, which win, and those before it. -/
def Options.over (inner outer : Options) : Options :=
  { config := inner.config <|> outer.config, logLevel := inner.logLevel <|> outer.logLevel }

/-- What the arguments at one place have given so far. -/
structure Given where
  options : Options := {}
  operand : Option String := none
  json : Bool := false
  /-- Whether only operands may follow. -/
  marked : Bool := false
  /-- An option that still lacks its value, or one whose value is an argument of its own. Such a value
  is checked when the next argument at this place has been read, so that help for a command is shown
  whatever the value before the command. -/
  pending : Option (OptionName × Option String) := none
deriving DecidableEq, Repr

namespace Given

/-- Whether an option still lacks its value. -/
def isAwaiting (g : Given) : Bool :=
  match g.pending with
  | some (_, none) => true
  | _ => false

/-- Checks the option that is pending. -/
def settle (g : Given) : Except Stop Given :=
  match g.pending with
  | none => .ok g
  | some (_, none) => .error .refused
  | some (name, some value) => do
    return { g with options := ← g.options.assign value name, pending := none }

/-- Adds an operand. A command has exactly one, and a path may not be empty. -/
def addOperand (place : Place) (g : Given) (text : String) : Except Stop Given :=
  if place = .top ∨ g.operand.isSome ∨ (place = .replay ∧ text = "") then .error .refused
  else .ok { g with operand := some text }

/-- Sets a switch. No switch may be given twice. -/
def raise (g : Given) : Flag → Except Stop Given
  | .help => .error .help
  | .version => .error .version
  | .json => if g.json then .error .refused else .ok { g with json := true }

/-- Adds an argument. -/
def accept (place : Place) (g : Given) : Item → Except Stop Given
  | .word text =>
    match g.pending with
    | some (name, none) => .ok { g with pending := some (name, some text) }
    | _ => do (← g.settle).addOperand place text
  | .mark => do return { ← g.settle with marked := true }
  | .flag flag => do (← g.settle).raise flag
  | .option name none => do return { ← g.settle with pending := some (name, none) }
  | .option name (some value) => do
    let g ← g.settle
    return { g with options := ← g.options.assign value name }
  | .unknown => .error .refused

/-- Reads and adds an argument. A timeout header may begin with hyphens. -/
def take (place : Place) (g : Given) (text : String) : Except Stop Given :=
  g.accept place
    (if g.marked then .word text
    else Item.read place (place = .timeout ∧ g.operand.isNone) text)

end Given

/-! ## Whole command lines -/

/-- What the arguments behind a command ask for. -/
def readCommand (place : Place) (arguments : List String) : Except Stop Invocation := do
  let g ← (← arguments.foldlM (Given.take place) {}).settle
  match place, g.operand with
  | .timeout, some header => return { options := g.options, action := .timeout header }
  | .replay, some script => return { options := g.options, action := .replay script g.json }
  | _, _ => .error .refused

/-- What the command `help` answers. It can be asked about a command. -/
def helpOn : List String → Stop
  | [] => .help
  | [topic] => if topic ∈ ["timeout", "replay", "help"] then .help else .refused
  | _ => .refused

/-- Reads arguments up to the command and those behind it. -/
def readFrom (g : Given) : List String → Except Stop Invocation
  | [] => .error .refused
  | text :: rest => do
    if g.marked || g.isAwaiting then readFrom (← g.take .top text) rest
    else if text = "help" then .error (helpOn rest)
    else
      match Place.ofCommand? text with
      | some place =>
        let inner ← readCommand place rest
        let outer ← g.settle
        return { inner with options := inner.options.over outer.options }
      | none => readFrom (← g.take .top text) rest

/-- What a command line asks for. -/
def Invocation.ofArguments (arguments : List String) : Except Stop Invocation :=
  readFrom {} arguments

end PathLock.Command
