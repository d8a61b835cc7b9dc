import ScriptVm.Assoc
import ScriptVm.Config
import ScriptVm.Decimal.Reading
import ScriptVm.Fault

/-!
# Settings

A source of configuration gives a tree of settings, and the four capacities are
read off the tree that all sources make together.

A setting may be of any type that a capacity can be made of: a number that is
not negative, a boolean, or a text that spells one of them.  Names do not
distinguish upper and lower case.
-/

namespace ScriptVm.Config

/-- A tree of settings. -/
inductive Setting
  | null
  | integer (n : Int)
  /-- A float, by its bit pattern. -/
  | float (bits : UInt64)
  | boolean (b : Bool)
  | text (s : String)
  /-- A list, by its length and the items that were given, with their positions. -/
  | list (length : Nat) (items : List (Nat × Setting))
  /-- Further settings by name. -/
  | group (members : List (String × Setting))
  deriving Repr

/-- Settings by name. -/
abbrev Members := List (String × Setting)

/-- Why a text cannot be read. -/
inductive ReadError
  | malformed
  | defect (d : Defect)
  deriving DecidableEq, Repr

/-- The settings of a document, which has to be a group. -/
def root? : Setting → Option Members
  | .group members => some members
  | _ => none

/-- Settings that are there, or a malformed text. -/
def orMalformed : Option Members → Except ReadError Members
  | some members => .ok members
  | none => .error .malformed

/-! ### Names -/

/-- A letter in lower case.  Of the letters beyond ASCII only the sign for kelvin has a lower case
within ASCII. -/
def lowerChar (c : Char) : Char :=
  if c = '\u212a' then 'k' else c.toLower

/-- A name in lower case. -/
def lower (name : String) : String :=
  name.map lowerChar

/-- The members in which of several of one name only the last one counts. -/
def Members.unique (members : Members) : Members :=
  (members.foldl (fun found (name, x) => Assoc.insert found name x) Assoc.empty).toList

namespace Setting

/-- The members of a group; every other setting has none. -/
def members : Setting → Members
  | group members => members
  | _ => []

/-- The length and the items of a list; every other setting counts as an empty one. -/
def items : Setting → Nat × List (Nat × Setting)
  | list length items => (length, items)
  | _ => (0, [])

/-- A list of settings. -/
def ofList (items : List Setting) : Setting :=
  .list items.length (items.zipIdx.map fun (x, i) => (i, x))

/-! ### Capacities -/

/-- A natural number of 64 bits, written in decimal with an optional plus sign. -/
def word? (s : String) : Option Nat :=
  let digits := match s.toList with
    | '+' :: rest => rest
    | cs => cs
  (Decimal.natural? digits).filter (· < UInt64.size)

/-- The capacity a text stands for. -/
def ofText? (s : String) : Option Nat :=
  let lower := s.toLower
  if lower ∈ ["true", "on", "yes"] then some 1
  else if lower ∈ ["false", "off", "no"] then some 0
  else word? s

/-- The capacity a setting stands for.  A float is rounded, halves away from zero, and brought into
the range of 64 bits. -/
def capacity? : Setting → Option Nat
  | integer n => if 0 ≤ n then some n.toNat else none
  | float bits => some (Float.ofBits bits).round.toUInt64.toNat
  | boolean b => some (if b then 1 else 0)
  | text s => ofText? s
  | null | list _ _ | group _ => none

end Setting

/-- The names of the four capacities. -/
def names : List String :=
  ["value_stack_capacity", "call_stack_capacity", "delimiter_stack_capacity", "vector_capacity"]

/-- The capacities in the order of their names. -/
def toList (c : Config) : List Nat :=
  [c.valueStack, c.callStack, c.delimiterStack, c.vector]

/-- A configuration as a tree of settings. -/
def toSetting (c : Config) : Setting :=
  .group (names.zip (c.toList.map fun n : Nat => .integer n))

/-- The configuration that a tree of settings spells out; each capacity has to be there. -/
def ofSetting? (x : Setting) : Option Config := do
  let capacity (name : String) : Option Nat := x.members.lookup name >>= Setting.capacity?
  let valueStack ← capacity "value_stack_capacity"
  let callStack ← capacity "call_stack_capacity"
  let delimiterStack ← capacity "delimiter_stack_capacity"
  let vector ← capacity "vector_capacity"
  return { valueStack, callStack, delimiterStack, vector }

/-- The numbers that configuration files can hold lie below this one, which needs 64 bits. -/
def largestCount : Nat := 0x8000000000000000

/-- A configuration in the form that configuration files have; numbers beyond 63 bits have none. -/
def toToml? (c : Config) : Option String :=
  if c.toList.all (· < largestCount) then
    some (String.join ((names.zip c.toList).map fun (name, n) =>
      name ++ " = " ++ toString n ++ "\n"))
  else none

end ScriptVm.Config
