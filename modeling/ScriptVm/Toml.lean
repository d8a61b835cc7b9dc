/-!
# TOML documents

The tree of a TOML document and the rules by which keys and table headers build
it.  A table remembers how it came about, because that decides who may still add
to it:

* one written in braces is closed;
* one with a header of its own is defined, and no second header may name it;
* one that only lies on the way to another header is implied, and may still get
  its own header;
* one made by a dotted key may be extended by dotted keys of the same table.

`Tree.addKey`, `Tree.openTable` and `Tree.close` are the three moves of a
document; each answers `none` where the document is in error.
-/

namespace ScriptVm

/-- How a table came about. -/
inductive Toml.Origin
  | braces
  | header
  | implied
  | dotted
  deriving DecidableEq, Repr

/-- A TOML value. -/
inductive Toml
  | text (s : String)
  | integer (n : Int)
  /-- A float, by its bit pattern. -/
  | float (bits : UInt64)
  | boolean (b : Bool)
  /-- A date, a time of day, or both. -/
  | moment
  | array (items : List Toml)
  | table (origin : Toml.Origin) (members : List (String × Toml))
  /-- An array of tables that have headers, the latest last. -/
  | tables (elements : List (List (String × Toml)))
  deriving Repr

namespace Toml

/-- The members of a table, in order. -/
abbrev Members := List (String × Toml)

namespace Members

/-- The members with one put under a name, in the place of what was there. -/
def put : Members → String → Toml → Members
  | [], name, x => [(name, x)]
  | (other, y) :: rest, name, x =>
    if other = name then (name, x) :: rest else (other, y) :: put rest name x

/-- The members without one name. -/
def drop (members : Members) (name : String) : Members :=
  members.filter fun m => m.1 ≠ name

end Members

/-- Whether a path may go on through a table; a dotted key goes only through tables that no header
defines. -/
def Origin.passable (dotted : Bool) : Origin → Bool
  | braces => false
  | header => !dotted
  | implied | Origin.dotted => true

/-- Change the table at the end of a path, making the tables on the way that do not exist yet.  An
array of tables stands for its latest element. -/
def descend (dotted : Bool) (finish : Origin → Members → Option Members) :
    (path : List String) → Origin → Members → Option Members
  | [], origin, members => finish origin members
  | name :: path, _, members => do
    match members.lookup name with
    | none =>
      let made := if dotted then Origin.dotted else .implied
      let inner ← descend dotted finish path made []
      return members.put name (.table made inner)
    | some (.table origin inner) =>
      if origin.passable dotted then
        let inner ← descend dotted finish path origin inner
        return members.put name (.table origin inner)
      else none
    | some (.tables elements) =>
      let inner ← descend dotted finish path .header (elements.getLast?.getD [])
      return members.put name (.tables (elements.dropLast ++ [inner]))
    | some _ => none

/-- The members with a value under a dotted key, given as the path and the last name.  A name can be
given once; a dotted key adds only to tables that dotted keys made. -/
def addKey (origin : Origin) (members : Members) (path : List String) (name : String) (x : Toml) :
    Option Members :=
  let finish (origin : Origin) (members : Members) : Option Members :=
    if (origin == .dotted) == path.isEmpty then none
    else if (members.lookup name).isSome then none
    else some (members ++ [(name, x)])
  descend true finish path origin members

/-- A document under construction: what is closed, and the table whose header came last. -/
structure Tree where
  /-- The root without the present table. -/
  root : Members
  /-- The members of the present table. -/
  current : Members
  /-- The path of the present table, empty for the root itself. -/
  path : List String
  /-- Whether the present table is an element of an array. -/
  isElement : Bool

namespace Tree

/-- Nothing read yet. -/
def empty : Tree := ⟨[], [], [], false⟩

/-- Add a key to the present table. -/
def addKey (t : Tree) (path : List String) (name : String) (x : Toml) : Option Tree := do
  let current ← Toml.addKey .header t.current path name x
  return { t with current }

/-- Put the present table in its place. -/
def close (t : Tree) : Option Members :=
  match t.path.getLast? with
  | none => some t.current
  | some name =>
    let finish (_ : Origin) (members : Members) : Option Members :=
      if t.isElement then
        match members.lookup name with
        | none => some (members.put name (.tables [t.current]))
        | some (.tables elements) => some (members.put name (.tables (elements ++ [t.current])))
        | some _ => none
      else some (members.put name (.table .header t.current))
    descend false finish t.path.dropLast .header t.root

/-- The members of the table at a path, if it was only implied so far, and none if it is new. -/
def reopened? (root : Members) : (path : List String) → Option Members
  | [] => none
  | [name] =>
    match root.lookup name with
    | none => some []
    | some (.table .implied members) => some members
    | some _ => none
  | name :: path =>
    match root.lookup name with
    | none => some []
    | some (.table _ members) => reopened? members path
    | some (.tables elements) => reopened? (elements.getLast?.getD []) path
    | some _ => none

/-- Start a table with a header of its own. -/
def openTable (t : Tree) (path : List String) : Option Tree := do
  let root ← t.close
  let name ← path.getLast?
  let current ← reopened? root path
  let root ← descend false (fun _ members => some (members.drop name)) path.dropLast .header root
  return ⟨root, current, path, false⟩

/-- Start another element of an array of tables. -/
def openElement (t : Tree) (path : List String) : Option Tree := do
  let root ← t.close
  return ⟨root, [], path, true⟩

end Tree

end Toml

end ScriptVm
