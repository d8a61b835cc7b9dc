import ScriptVm.CodeUnit.Binary
import ScriptVm.CodeUnit.Json

/-!
# Loading units

A unit file is binary or JSON.  The magic number in front tells them apart.
-/

namespace ScriptVm.CodeUnit

/-- Why a unit cannot be loaded. -/
inductive LoadError
  /-- It is marked as binary but cannot be read as such. -/
  | binary (e : UnitFileError)
  /-- It is not marked as binary and is no unit in JSON. -/
  | json
  deriving DecidableEq, Repr

/-- The unit that a JSON file holds.  Bytes that belong to no character may only stand in texts that
are skipped. -/
def ofJsonBytes? (bytes : Bytes) : Option CodeUnit :=
  match Bytes.toString? bytes with
  | some text => ofJsonText? text
  | none =>
    if 0 ∈ bytes.toList then none
    else (Json.document? (Bytes.chars Json.undecodable 0 bytes.toList)).bind ofJson?

/-- The unit that a file holds. -/
def load (bytes : Bytes) : Except LoadError CodeUnit :=
  if isBinary bytes then
    match ofBinary bytes with
    | .ok u => .ok u
    | .error e => .error (.binary e)
  else
    match ofJsonBytes? bytes with
    | some u => .ok u
    | none => .error .json

end ScriptVm.CodeUnit
