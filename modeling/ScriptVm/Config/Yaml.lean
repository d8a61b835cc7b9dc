import ScriptVm.Config.Setting
import ScriptVm.Yaml.Parser

/-!
# Settings from YAML files

A file holds at most one document, which is a mapping; a file without any holds no
settings.  The names in a mapping are texts or integers, and no others can be
worked with.
-/

namespace ScriptVm.Config

/-- The name of a setting. -/
def ofYamlName? : Yaml → Option String
  | .text s => some s
  | .integer n => some (toString n)
  | _ => none

mutual

/-- The setting of a node.  A real has to be finite. -/
def ofYaml : Yaml → Except ReadError Setting
  | .null | .bad => .ok .null
  | .boolean b => .ok (.boolean b)
  | .integer n => .ok (.integer n)
  | .real literal =>
    match Decimal.float? literal.toList with
    | some x => .ok (.float x.toBits)
    | none => .error .malformed
  | .text s => .ok (.text s)
  | .sequence items => do
    return .ofList (← ofYamlItems items)
  | .mapping members => do
    return .group (Members.unique (← ofYamlMembers members))

/-- The settings of the items of a sequence. -/
def ofYamlItems : List Yaml → Except ReadError (List Setting)
  | [] => .ok []
  | x :: rest => do
    return (← ofYaml x) :: (← ofYamlItems rest)

/-- The settings of the members of a mapping. -/
def ofYamlMembers : List (Yaml × Yaml) → Except ReadError Members
  | [] => .ok []
  | (name, x) :: rest =>
    match ofYamlName? name with
    | none => .error (.defect .unrepresentable)
    | some name => do
      return (name, ← ofYaml x) :: (← ofYamlMembers rest)

end

/-- The settings that a YAML text holds. -/
def ofYamlText (text : String) : Except ReadError Members :=
  match Yaml.parse? text with
  | none => .error .malformed
  | some none => .ok []
  | some (some document) => ofYaml document >>= fun x => orMalformed (root? x)

end ScriptVm.Config
