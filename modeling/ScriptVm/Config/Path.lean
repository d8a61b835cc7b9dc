import ScriptVm.Config.Setting
import ScriptVm.Sizes

/-!
# Paths of settings

The name under which a source gives a setting may be a path: a name, then further
names behind points and positions in brackets.  A text that is no path is a name
as it stands.

Laying a setting under a path makes groups and lists of whatever is on the way.
A group is laid over another one member by member; everything else replaces what
was there.  A negative position counts from the end of the list, and has to exist;
a position behind the end makes the list longer.
-/

namespace ScriptVm.Config

/-- A step from a setting to one inside it. -/
inductive Step
  | name (name : String)
  | position (i : Int)
  deriving DecidableEq, Repr

/-- A path: a name and the steps behind it. -/
structure Path where
  /-- The first name. -/
  first : String
  /-- The steps behind it. -/
  rest : List Step
  deriving DecidableEq, Repr

namespace Path

/-! ### Reading paths -/

/-- Whether a character may stand in a name of a path. -/
def isNameChar (c : Char) : Bool :=
  c.isAlphanum || c = ' ' || c = '_' || c = '-'

/-- A name, and the text behind it. -/
def name? (cs : List Char) : Option (String × List Char) :=
  let name := cs.takeWhile isNameChar
  if name.isEmpty then none else some (String.ofList name, cs.dropWhile isNameChar)

/-- The text behind blanks. -/
def skipBlanks (cs : List Char) : List Char :=
  cs.dropWhile fun c => c = ' ' || c = '\t'

/-- The digits of a position with their sign, and the text behind them. -/
def digits (cs : List Char) : List Char × List Char :=
  match cs with
  | '-' :: rest => ('-' :: rest.takeWhile Char.isDigit, rest.dropWhile Char.isDigit)
  | _ => (cs.takeWhile Char.isDigit, cs.dropWhile Char.isDigit)

/-- A position up to and with its closing bracket, and the text behind it. -/
def position? (cs : List Char) : Option (Int × List Char) := do
  let (literal, rest) := digits (skipBlanks cs)
  let i ← (Decimal.integer? literal).filter Decimal.inInt64
  match skipBlanks rest with
  | ']' :: rest => return (i, rest)
  | _ => none

/-- The steps that a text spells. -/
def steps? : (fuel : Nat) → List Char → Option (List Step)
  | _, [] => some []
  | 0, _ => none
  | fuel + 1, '.' :: rest => do
    let (name, rest) ← name? rest
    return .name name :: (← steps? fuel rest)
  | fuel + 1, '[' :: rest => do
    let (i, rest) ← position? rest
    return .position i :: (← steps? fuel rest)
  | _, _ => none

/-- The path that a text spells. -/
def parse? (text : String) : Option Path := do
  let (first, rest) ← name? text.toList
  return ⟨first, ← steps? rest.length rest⟩

/-- The path that a text spells, or else the text as a name. -/
def ofText (text : String) : Path :=
  (parse? text).getD ⟨text, []⟩

end Path

/-! ### Laying settings -/

mutual

/-- The members with a setting laid over the one of a name. -/
def layMember (members : Members) (name : String) : (x : Setting) → Members
  | .group inner =>
    let target := (members.lookup (lower name)).getD (.group [])
    Assoc.insertInto (lower name) (layMembers target inner) members
  | .null => Assoc.insertInto (lower name) .null members
  | .integer n => Assoc.insertInto (lower name) (.integer n) members
  | .float bits => Assoc.insertInto (lower name) (.float bits) members
  | .boolean b => Assoc.insertInto (lower name) (.boolean b) members
  | .text s => Assoc.insertInto (lower name) (.text s) members
  | .list length items => Assoc.insertInto (lower name) (.list length items) members

/-- A setting with the members of a group laid over it.  A group without members changes nothing. -/
def layMembers (target : Setting) : Members → Setting
  | [] => target
  | (name, x) :: rest => layMembers (.group (layMember target.members name x)) rest

end

/-- The bytes of an item of a list. -/
def itemBytes : Nat := 96

/-- The place of a position in a list of some length. -/
def place (length : Nat) (i : Int) : Except Defect Nat := do
  if i < 0 then
    if i.natAbs ≤ length then return length - i.natAbs else throw .sizeOverflow
  else
    Sizes.word64.reserve itemBytes (i.toNat + 1)
    return i.toNat

/-- Items with the one at a place replaced. -/
def putItem (items : List (Nat × Setting)) (i : Nat) (x : Setting) : List (Nat × Setting) :=
  (i, x) :: items.filter fun item => item.1 ≠ i

/-- A setting with another one laid under some steps: the innermost step lays it, the others lead
there. -/
def laySteps (x : Setting) : Setting → List Step → Except Defect Setting
  | _, [] => .ok x
  | target, [.name name] => .ok (.group (layMember target.members name x))
  | target, .name name :: rest => do
    let inner ← laySteps x ((target.members.lookup (lower name)).getD .null) rest
    return .group (Assoc.insertInto (lower name) inner target.members)
  | target, .position i :: rest => do
    let (length, items) := target.items
    let i ← place length i
    let inner ← laySteps x ((items.lookup i).getD .null) rest
    return .list (max length (i + 1)) (putItem items i inner)

/-- A setting with another one laid over it under a path. -/
def lay (target : Setting) (path : Path) (x : Setting) : Except Defect Setting :=
  laySteps x target (.name path.first :: path.rest)

/-- A setting with the settings of a source laid over it, each under the path that its name
spells. -/
def laySource (target : Setting) : Members → Except Defect Setting
  | [] => .ok target
  | (name, x) :: rest => do
    laySource (← lay target (.ofText name) x) rest

end ScriptVm.Config
