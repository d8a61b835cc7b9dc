import ScriptVm.Config.Setting
import ScriptVm.Fault

/-!
# Settings from the environment

A variable whose name starts with `GLOS__` gives a setting.  The rest of its name
is the setting's path, with two underscores between its parts.  A value that
spells a boolean or a number is one; every other value is a text.
-/

namespace ScriptVm.Config

/-- Environment variables, by name. -/
abbrev Environment := List (String × String)

namespace Environment

/-- The start of the names that give settings, in lower case. -/
def mark : String := "glos__"

/-- The separator of the parts of a path. -/
def separator : String := "__"

/-- The setting that a value spells. -/
def setting (value : String) : Setting :=
  let lower := value.toLower
  if lower = "true" then .boolean true
  else if lower = "false" then .boolean false
  else
    match (Decimal.integer? value.toList).filter Decimal.inInt64 with
    | some n => .integer n
    | none =>
      match Decimal.float? value.toList with
      | some x => .float x.toBits
      | none => .text value

/-- The setting that a variable gives, under its path. -/
def entry? : String × String → Option (String × Setting)
  | (name, value) =>
    let lower := lower name
    if mark.toList.isPrefixOf lower.toList then
      let path := String.ofList (lower.toList.drop mark.length)
      some (path.replace separator ".", setting value)
    else none

/-- The settings that the environment gives. -/
def source (env : Environment) : Members :=
  env.filterMap entry?

/-- The value of a variable.  The environment is a list of texts `NAME=value`, and what is looked
for is the first one that starts with the name and an equals sign. -/
def value? (env : Environment) (name : String) : Option String :=
  let start := name.toList ++ ['=']
  if name.isEmpty then none
  else env.findSome? fun (other, value) =>
    let entry := other.toList ++ '=' :: value.toList
    if start.isPrefixOf entry then some (String.ofList (entry.drop start.length)) else none

/-- The environment with a variable set, unless it is set already.  No value can hold a zero
byte. -/
def supply (env : Environment) (name value : String) : Except Defect Environment :=
  if (env.value? name).isSome then .ok env
  else if '\x00' ∈ value.toList then .error .unrepresentable
  else .ok (env ++ [(name, value)])

end Environment

end ScriptVm.Config
