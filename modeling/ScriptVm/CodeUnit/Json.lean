import ScriptVm.CodeUnit
import ScriptVm.Json.Parser

/-!
# Units as JSON

A unit is an object with the members `prototypes`, `strings` and `entry`, a
prototype one with `name`, `code`, `local_variable_size` and
`variables_in_context`.  The last of these may be missing, every other member is
required.  Members of other names are skipped, a known name may come only once,
and either object may also be written as the array of its members in order.
Numbers are natural and below `2 ^ 64`, bytes of code below 256.
-/

namespace ScriptVm

namespace Json

/-- The list behind an array whose items can all be read. -/
def list? {α : Type} (read : Json → Option α) : Json → Option (List α)
  | array items => items.mapM read
  | _ => none

/-- The text behind a string. -/
def text? : Json → Option String
  | string lexeme => unescape? lexeme
  | _ => none

/-- The natural number below `bound`. -/
def natBelow? (bound : Nat) : Json → Option Nat
  | number literal => (natural? literal).filter (· < bound)
  | _ => none

/-- The bound of a size. -/
def sizeBound : Nat := UInt64.size

/-- A size. -/
def size? (j : Json) : Option Nat :=
  natBelow? sizeBound j

/-- A byte. -/
def byte? (j : Json) : Option UInt8 :=
  (natBelow? 256 j).map UInt8.ofNat

/-- The members of an object with their names read. -/
def named? (members : List (List Char × Json)) : Option (List (String × Json)) :=
  members.mapM fun (name, x) => (unescape? name).map fun name => (name, x)

/-- The member of a name, if there is one; two of them are refused. -/
def member? (members : List (String × Json)) (name : String) : Option (Option Json) :=
  match members.filter fun m => m.1 == name with
  | [] => some none
  | [m] => some (some m.2)
  | _ => none

/-- The member of a name that has to be there. -/
def required? (members : List (String × Json)) (name : String) : Option Json :=
  (member? members name).join

end Json

namespace Prototype

open Json

/-- The document of a prototype. -/
def toJson (p : Prototype) : Json :=
  .object [
    (escape "name", .ofString p.name),
    (escape "code", .array (p.code.toList.map fun b => .ofNat b.toNat)),
    (escape "local_variable_size", .ofNat p.locals),
    (escape "variables_in_context", .array (p.declared.map .ofString))]

/-- A prototype from the documents of its members. -/
def ofMembers? (name code locals : Json) (declared : Option Json) : Option Prototype := do
  let name ← name.text?
  let code ← code.list? byte?
  let locals ← locals.size?
  let declared ← match declared with
    | some names => names.list? text?
    | none => some []
  return ⟨name, code.toArray, locals, declared⟩

/-- The prototype that a document describes. -/
def ofJson? : Json → Option Prototype
  | .object members => do
    let members ← named? members
    let name ← required? members "name"
    let code ← required? members "code"
    let locals ← required? members "local_variable_size"
    let declared ← member? members "variables_in_context"
    ofMembers? name code locals declared
  | .array [name, code, locals] => ofMembers? name code locals none
  | .array [name, code, locals, declared] => ofMembers? name code locals (some declared)
  | _ => none

end Prototype

namespace CodeUnit

open Json

/-- The document of a unit. -/
def toJson (u : CodeUnit) : Json :=
  .object [
    (escape "prototypes", .array (u.prototypes.toList.map Prototype.toJson)),
    (escape "strings", .array (u.strings.toList.map .ofString)),
    (escape "entry", .ofNat u.entry)]

/-- The JSON text of a unit. -/
def toJsonText (u : CodeUnit) : String :=
  String.ofList u.toJson.print

/-- A unit from the documents of its members. -/
def ofMembers? (prototypes strings entry : Json) : Option CodeUnit := do
  let prototypes ← prototypes.list? Prototype.ofJson?
  let strings ← strings.list? text?
  let entry ← entry.size?
  return ⟨prototypes.toArray, strings.toArray, entry⟩

/-- The unit that a document describes. -/
def ofJson? : Json → Option CodeUnit
  | .object members => do
    let members ← named? members
    let prototypes ← required? members "prototypes"
    let strings ← required? members "strings"
    let entry ← required? members "entry"
    ofMembers? prototypes strings entry
  | .array [prototypes, strings, entry] => ofMembers? prototypes strings entry
  | _ => none

/-- The unit that a JSON text describes. -/
def ofJsonText? (text : String) : Option CodeUnit :=
  (parse? text).bind ofJson?

end CodeUnit

end ScriptVm
