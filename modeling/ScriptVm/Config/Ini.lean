import ScriptVm.Config.Setting
import ScriptVm.Json
import ScriptVm.Text.White

/-!
# Settings from INI files

A file of lines `name = value` or `name: value`, the later of them under headers
in brackets.  Names before the first header are settings, and a header makes a
group of the names behind it.  Every value is a text; it may be quoted, and a
backslash starts an escape.  A comment stands on a line of its own, and its mark is
the first character of that line.
-/

namespace ScriptVm.Config.Ini

open Text (isWhite trim)

/-! ### Characters -/

/-- The character that an escape of one letter stands for. -/
def escaped (c : Char) : Char :=
  if c = '0' then '\x00'
  else if c = 'a' then '\x07'
  else if c = 'b' then '\x08'
  else if c = 't' then '\t'
  else if c = 'r' then '\r'
  else if c = 'n' then '\n'
  else c

/-- The character that four hexadecimal digits name. -/
def named? (a b c d : Char) : Option Char := do
  let n ← Json.hexUnit? a b c d
  if n.isValidChar then some (Char.ofNat n) else none

/-- The text up to a character at which it stops, with escapes resolved, and the text from there on.
Only some texts may stop at the end of the file. -/
def until? (stops : Char → Bool) (mayEnd : Bool) : List Char → Option (List Char × List Char)
  | [] => if mayEnd then some ([], []) else none
  | '\\' :: 'x' :: a :: b :: c :: d :: rest => do
    let x ← named? a b c d
    let (text, rest) ← until? stops mayEnd rest
    return (x :: text, rest)
  | '\\' :: '\n' :: rest => until? stops mayEnd rest
  | '\\' :: c :: rest => do
    if c = 'x' then none
    let (text, rest) ← until? stops mayEnd rest
    return (escaped c :: text, rest)
  | c :: rest => do
    if stops c then return ([], c :: rest)
    if c = '\\' then none
    let (text, rest) ← until? stops mayEnd rest
    return (c :: text, rest)

/-- Whether a character ends a line. -/
def endsLine (c : Char) : Bool :=
  c = '\n' || c = '\r'

/-- Whether a character ends a name. -/
def endsName (c : Char) : Bool :=
  c = '=' || c = ':'

/-! ### Values -/

/-- The parts of a value: quoted ones as they are, and what is left of the line without white space
around it. -/
def value? : (fuel : Nat) → List Char → Option (List Char × List Char)
  | 0, _ => none
  | _, [] => some ([], [])
  | fuel + 1, c :: rest =>
    if c = '"' ∨ c = '\'' then do
      let (quoted, rest) ← until? (· = c) false rest
      let (more, rest) ← value? fuel (rest.drop 1)
      return (quoted ++ more, rest)
    else do
      let (text, rest) ← until? endsLine true (c :: rest)
      return (trim text, rest)

/-- The text behind blanks within a line. -/
def skipBlanks (cs : List Char) : List Char :=
  cs.dropWhile fun c => isWhite c && !endsLine c

/-! ### Files -/

/-- What has been read so far. -/
structure State where
  /-- The settings before the first header. -/
  general : Members
  /-- The groups, the latest first. -/
  groups : List (String × Members)
  /-- A name that waits for its value. -/
  name : String

namespace State

/-- Nothing read yet. -/
def empty : State := ⟨[], [], ""⟩

/-- Give the name that waits its value, in the group whose header came last. -/
def assign (s : State) (value : String) : State :=
  match s.groups with
  | [] => { s with general := s.general ++ [(s.name, .text value)], name := "" }
  | (header, members) :: rest =>
    { s with groups := (header, members ++ [(s.name, .text value)]) :: rest, name := "" }

/-- The settings of the whole file. -/
def settings (s : State) : Members :=
  Members.unique (s.general
    ++ s.groups.reverse.map fun (header, members) => (header, .group members.unique))

end State

/-- The text behind white space, and whether a line starts there. -/
def skipWhite (fresh : Bool) : List Char → Bool × List Char
  | [] => (fresh, [])
  | c :: rest => if isWhite c then skipWhite (c = '\n') rest else (fresh, c :: rest)

/-- The file of which a part has been read; `fresh` says whether a line starts here. -/
def read? : (fuel : Nat) → State → (fresh : Bool) → List Char → Option State
  | 0, _, _, _ => none
  | fuel + 1, s, fresh, cs => do
    match skipWhite fresh cs with
    | (_, []) => return s
    | (fresh, c :: rest) =>
      if c = ';' ∨ c = '#' then
        if fresh then read? fuel s true ((rest.dropWhile (· ≠ '\n')).drop 1) else none
      else if c = '[' then
        let (header, rest) ← until? (· = ']') false rest
        let header := String.ofList (trim header)
        read? fuel { s with groups := (header, []) :: s.groups } false (rest.drop 1)
      else if endsName c then
        if s.name.isEmpty then none
        let (value, rest) ← value? rest.length.succ (skipBlanks rest)
        read? fuel (s.assign (String.ofList value)) false rest
      else
        let (name, rest) ← until? endsName false (c :: rest)
        read? fuel { s with name := String.ofList (trim name) } false rest

/-- The settings that a text holds. -/
def parse? (text : String) : Option Members :=
  (read? (2 * text.length + 2) .empty true text.toList).map State.settings

end ScriptVm.Config.Ini
