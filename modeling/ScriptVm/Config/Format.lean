import ScriptVm.Config.Ini
import ScriptVm.Config.Json5
import ScriptVm.Config.Ron
import ScriptVm.Config.Setting
import ScriptVm.Config.Yaml
import ScriptVm.Json.Number
import ScriptVm.Json.Parser
import ScriptVm.Toml.Parser

/-!
# Configuration files

The extension of a configuration file's name tells its format.  Whatever the
format, a file holds settings by name.
-/

namespace ScriptVm.Config

/-! ### TOML -/

/-- A table whose first name is this one stands for a moment, given as a text. -/
def momentName : String := "$__toml_private_datetime"

/-- Whether a table stands for a moment. -/
def isMomentTable : Toml.Members → Bool
  | (name, _) :: _ => name = momentName
  | [] => false

/-- The moment that a table stands for. -/
def moment? : Toml.Members → Option Setting
  | (_, .text s) :: _ => if Toml.isMomentText s.toList then some (.text s) else none
  | _ => none

mutual

/-- The setting of a TOML value. -/
def ofToml? : Toml → Option Setting
  | .text s => some (.text s)
  | .integer n => some (.integer n)
  | .float bits => some (.float bits)
  | .boolean b => some (.boolean b)
  | .moment => some (.text "moment")
  | .array items => (ofTomlItems? items).map .ofList
  | .table _ members =>
    if isMomentTable members then moment? members else (ofTomlMembers? members).map .group
  | .tables elements => (ofTomlElements? elements).map .ofList

/-- The settings of the items of an array. -/
def ofTomlItems? : List Toml → Option (List Setting)
  | [] => some []
  | x :: rest => do
    return (← ofToml? x) :: (← ofTomlItems? rest)

/-- The settings of the members of a table. -/
def ofTomlMembers? : List (String × Toml) → Option Members
  | [] => some []
  | (name, x) :: rest => do
    return (name, ← ofToml? x) :: (← ofTomlMembers? rest)

/-- The settings of the elements of an array of tables. -/
def ofTomlElements? : List (List (String × Toml)) → Option (List Setting)
  | [] => some []
  | members :: rest => do
    let x ← if isMomentTable members then moment? members
      else (ofTomlMembers? members).map .group
    return x :: (← ofTomlElements? rest)

end

/-- The settings that a TOML text holds. -/
def ofTomlText? (text : String) : Option Members :=
  (Toml.parse? text).bind fun members => (ofToml? (.table .header members)).bind root?

/-! ### JSON -/

/-- The setting of a JSON number: an integer of 64 bits, or else a float. -/
def ofNumber? (literal : List Char) : Option Setting :=
  match (Decimal.integer? literal).filter Decimal.inInt64 with
  | some n => some (if literal = ['-', '0'] then .float (-0.0 : Float).toBits else .integer n)
  | none => (Json.float? literal).map fun x => .float x.toBits

mutual

/-- The setting of a JSON value in which arrays and objects are nested no deeper than `depth`. -/
def ofJson? (depth : Nat) : Json → Option Setting
  | .null => some .null
  | .bool b => some (.boolean b)
  | .number literal => ofNumber? literal
  | .string lexeme => (Json.unescape? lexeme).map .text
  | .array items =>
    match depth with
    | 0 => none
    | depth + 1 => (ofJsonItems? depth items).map .ofList
  | .object members =>
    match depth with
    | 0 => none
    | depth + 1 => (ofJsonMembers? depth members).map fun members => .group members.unique

/-- The settings of the items of an array. -/
def ofJsonItems? (depth : Nat) : List Json → Option (List Setting)
  | [] => some []
  | x :: rest => do
    return (← ofJson? depth x) :: (← ofJsonItems? depth rest)

/-- The settings of the members of an object. -/
def ofJsonMembers? (depth : Nat) : List (List Char × Json) → Option Members
  | [] => some []
  | (name, x) :: rest => do
    return (← Json.unescape? name, ← ofJson? depth x) :: (← ofJsonMembers? depth rest)

end

/-- How deeply arrays and objects may be nested in a JSON file. -/
def jsonDepth : Nat := 127

/-- The settings that a JSON text holds. -/
def ofJsonText? (text : String) : Option Members :=
  (Json.parse? text).bind fun document => (ofJson? jsonDepth document).bind root?

/-! ### Formats -/

/-- The formats of configuration files. -/
inductive Format
  | toml
  | json
  | yaml
  | ini
  | ron
  | json5
  deriving DecidableEq, Repr

namespace Format

/-- The extensions that names of such files have. -/
def extensions : Format → List String
  | toml => ["toml"]
  | json => ["json"]
  | yaml => ["yaml", "yml"]
  | ini => ["ini"]
  | ron => ["ron"]
  | json5 => ["json5"]

/-- All formats, in the order in which files are looked for. -/
def all : List Format := [toml, json, yaml, ini, ron, json5]

/-- The settings that a text of this format holds. -/
def parse : Format → String → Except ReadError Members
  | toml, text => orMalformed (ofTomlText? text)
  | json, text => orMalformed (ofJsonText? text)
  | yaml, text => ofYamlText text
  | ini, text => orMalformed (Ini.parse? text)
  | ron, text => orMalformed ((Ron.parse? text).bind root?)
  | json5, text => orMalformed ((Json5.parse? text).bind root?)

end Format

/-- The last part of a path. -/
def fileName (path : String) : String :=
  ((path.splitOn "/").getLast?).getD path

/-- The extension of a file's name; a point at its start does not count. -/
def extension? (path : String) : Option String :=
  match (fileName path).splitOn "." with
  | [] | [_] | ["", _] => none
  | parts => parts.getLast?

/-- The format that the name of a file tells. -/
def Format.ofPath? (path : String) : Option Format :=
  Format.all.find? fun f => (extension? path).any f.extensions.contains

end ScriptVm.Config
