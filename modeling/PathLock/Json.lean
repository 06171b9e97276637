import PathLock.Text.Numeral
/-!
# JSON

* `Json`: values, with the fields of an object in the order in which they are written.
* `Json.render`: the compact text of a value.
* `Json.field?`: looks a field up in an object and refuses one that is given twice.
-/

namespace PathLock

/-- A JSON value. A number is a whole number over a power of ten. -/
inductive Json
  | null
  | bool (b : Bool)
  | number (digits : Int) (places : Nat)
  | string (text : String)
  | array (items : List Json)
  | object (fields : List (String × Json))
deriving Repr, Inhabited

namespace Json

/-- A natural number as a value. -/
def ofNat (n : Nat) : Json := number n 0

/-- A string, or null for none. -/
def ofString? : Option String → Json
  | some text => string text
  | none => null

/-! ## Writing -/

/-- The lower case hexadecimal digit of a number below sixteen. -/
def hexDigit (n : Nat) : Char := Nat.digitChar n

/-- A character inside a string: quotes, backslashes and control characters are escaped, everything
else is written as it is. -/
def escape (c : Char) : List Char :=
  match c with
  | '"' => ['\\', '"']
  | '\\' => ['\\', '\\']
  | '\x08' => ['\\', 'b']
  | '\x0c' => ['\\', 'f']
  | '\n' => ['\\', 'n']
  | '\r' => ['\\', 'r']
  | '\t' => ['\\', 't']
  | c =>
    if c.toNat < 0x20 then ['\\', 'u', '0', '0', hexDigit (c.toNat / 16), hexDigit (c.toNat % 16)]
    else [c]

/-- A string between quotes. -/
def quoted (text : String) : String :=
  String.ofList (['"'] ++ text.toList.flatMap escape ++ ['"'])

/-- A number in plain decimal notation. -/
def numeral (digits : Int) (places : Nat) : String :=
  let sign := if digits < 0 then "-" else ""
  let whole := (digits.natAbs / Nat.pow 10 places).repr
  if places = 0 then sign ++ whole
  else sign ++ whole ++ "." ++ Text.zeroPadded places (digits.natAbs % Nat.pow 10 places)

mutual

/-- The compact text of a value. -/
def render : Json → String
  | null => "null"
  | bool true => "true"
  | bool false => "false"
  | number digits places => numeral digits places
  | string text => quoted text
  | array items => "[" ++ ",".intercalate (renderItems items) ++ "]"
  | object fields => "\x7b" ++ ",".intercalate (renderFields fields) ++ "\x7d"

/-- The texts of the items of an array. -/
def renderItems : List Json → List String
  | [] => []
  | item :: rest => render item :: renderItems rest

/-- The texts of the fields of an object. -/
def renderFields : List (String × Json) → List String
  | [] => []
  | (name, value) :: rest => (quoted name ++ ":" ++ render value) :: renderFields rest

end

/-! ## Reading -/

/-- The field with a name, if it is there; refuses a field that is given twice. -/
def field? (fields : List (String × Json)) (name : String) : Option (Option Json) :=
  match fields.filter fun field => field.1 == name with
  | [] => some none
  | [(_, value)] => some (some value)
  | _ => none

/-- A string value. -/
def asString? : Json → Option String
  | string text => some text
  | _ => none

/-- A truth value. -/
def asBool? : Json → Option Bool
  | bool b => some b
  | _ => none

/-- Reads an optional value, with a default for a missing one. -/
def orDefault {α : Type} (default : α) (read : Json → Option α) : Option Json → Option α
  | some value => read value
  | none => some default

end Json

end PathLock
