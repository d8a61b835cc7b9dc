import ScriptVm.Bytes
import ScriptVm.Config.Environment
import ScriptVm.Text.Alphanumeric
import ScriptVm.Text.White

/-!
# Files of environment variables

A file of lines `NAME=value` supplies variables that are not set.  A value may
be quoted, strongly with apostrophes or weakly with double quotes, and a quoted
value may go over several lines.  Behind a blank a number sign starts a comment.
Outside strong quotes `$NAME` and the form with braces stand for the value of a
variable, and a backslash takes away the meaning of what follows.

Reading stops at the first line that is in error; what came before it counts.
-/

namespace ScriptVm.Config.DotEnv

open Text (isWhite trimStart trimEnd)

/-! ### Lines -/

/-- Where a scan for the end of a line is. -/
inductive Scan
  | plain
  /-- Behind a blank, where a comment may start. -/
  | blank
  | escape
  | weak
  | weakEscape
  | strong
  | strongEscape
  deriving DecidableEq, Repr

/-- The scan behind a character outside quotes. -/
def Scan.outside (c : Char) : Scan :=
  if c = '\\' then .escape
  else if c = '"' then .weak
  else if c = '\'' then .strong
  else .plain

/-- The scan behind a character. -/
def Scan.next : Scan → Char → Scan
  | plain, c => if isWhite c ∧ c ≠ '\n' ∧ c ≠ '\r' then blank else outside c
  | blank, c => outside c
  | escape, _ => plain
  | weak, c => if c = '\\' then weakEscape else if c = '"' then plain else weak
  | weakEscape, _ => weak
  | strong, c => if c = '\\' then strongEscape else if c = '\'' then plain else strong
  | strongEscape, _ => strong

/-- Scan a line: what stands before a comment, and the scan at the end or none where a comment
starts. -/
def scanLine : Scan → List Char → List Char × Option Scan
  | s, [] => ([], some s)
  | s, c :: rest =>
    if s = .blank ∧ c = '#' then ([], none)
    else
      let (kept, final) := scanLine (s.next c) rest
      (c :: kept, final)

/-- Bytes cut behind their line ends. -/
def rawLines : List UInt8 → List (List UInt8)
  | [] => []
  | b :: rest =>
    if b = 0x0a then [b] :: rawLines rest
    else
      match rawLines rest with
      | [] => [[b]]
      | line :: more => (b :: line) :: more

/-- The text of a line, if it is one. -/
def lineText? (line : List UInt8) : Option (List Char) :=
  (Bytes.toString? line.toArray).map String.toList

/-- A line without its line end. -/
def chomp (line : List Char) : List Char :=
  match line.reverse with
  | '\n' :: '\r' :: rest => rest.reverse
  | '\n' :: rest => rest.reverse
  | _ => line

/-- The lines of a file, with lines joined while a quote is open; none stands for a line that is no
text, or for an open quote at the end. -/
def joinLines (buffer : List Char) (s : Scan) : List (Option (List Char)) →
    List (Option (List Char))
  | [] => if s = .plain then [] else [none]
  | none :: _ => [none]
  | some line :: rest =>
    let whole := buffer ++ line
    if (trimStart whole).head? = some '#' then joinLines [] .plain rest
    else
      match scanLine s line with
      | (kept, none) => some (buffer ++ kept) :: joinLines [] .plain rest
      | (_, some .plain) => some (chomp whole) :: joinLines [] .plain rest
      | (_, some open_) => joinLines whole open_ rest

/-! ### Values -/

/-- A reference to a variable under way. -/
inductive Reference
  | none
  /-- Behind a dollar sign, with the name read so far. -/
  | bare (name : List Char)
  /-- Inside braces, with the name read so far. -/
  | braced (name : List Char)
  deriving DecidableEq, Repr

/-- Where the reading of a value is. -/
structure Reading where
  /-- Inside strong quotes. -/
  strong : Bool
  /-- Inside weak quotes. -/
  weak : Bool
  /-- Behind a backslash. -/
  escaped : Bool
  /-- Behind a blank, where only a comment may follow. -/
  ending : Bool
  /-- A reference under way. -/
  reference : Reference

/-- At the start of a value. -/
def Reading.start : Reading := ⟨false, false, false, false, .none⟩

/-- The value of a variable; nothing if it is not set. -/
def valueOf (env : Environment) (name : List Char) : List Char :=
  ((env.value? (String.ofList name)).getD "").toList

/-- The character that an escape stands for. -/
def escape? (c : Char) : Option Char :=
  if c = 'n' then some '\n'
  else if c = '\\' ∨ c = '\'' ∨ c = '"' ∨ c = '$' ∨ c = ' ' then some c
  else none

/-- What a character adds to a value inside a reference. -/
def readReference (env : Environment) (r : Reading) (c : Char) : Reference → List Char × Reading
  | .none => ([c], r)
  | .bare name =>
    if Text.isAlphanumeric c then ([], { r with reference := .bare (name ++ [c]) })
    else if c = '{' ∧ name.isEmpty then ([], { r with reference := .braced [] })
    else if c = '$' then (valueOf env name, { r with reference := .bare [] })
    else (valueOf env name ++ [c], { r with reference := .none })
  | .braced name =>
    if c = '}' then (valueOf env name, { r with reference := .none })
    else ([], { r with reference := .braced (name ++ [c]) })

/-- What a character adds to a value outside references; none if it may not stand there. -/
def readChar (r : Reading) (c : Char) : Option (List Char × Reading) :=
  if c = '$' then some ([], { r with reference := .bare [] })
  else if r.weak then
    if c = '"' then some ([], { r with weak := false })
    else if c = '\\' then some ([], { r with escaped := true })
    else some ([c], r)
  else if c = '\'' then some ([], { r with strong := true })
  else if c = '"' then some ([], { r with weak := true })
  else if c = '\\' then some ([], { r with escaped := true })
  else if c = ' ' ∨ c = '\t' then some ([], { r with ending := true })
  else some ([c], r)

/-- What a character adds to a value. -/
def readNext (env : Environment) (r : Reading) (c : Char) : Option (List Char × Reading) :=
  if r.ending then
    if c = ' ' ∨ c = '\t' then some ([], r) else none
  else if r.escaped then
    (escape? c).map fun x => ([x], { r with escaped := false })
  else if r.strong then
    some (if c = '\'' then ([], { r with strong := false }) else ([c], r))
  else
    match r.reference with
    | .none => readChar r c
    | reference => some (readReference env r c reference)

/-- What the end of a value adds to it; quotes and braces have to be closed. -/
def readEnd (env : Environment) (r : Reading) : Option (List Char) :=
  match r.reference with
  | .braced _ => none
  | .bare name => if r.strong || r.weak then none else some (valueOf env name)
  | .none => if r.strong || r.weak then none else some []

/-- The rest of a value. -/
def value? (env : Environment) : Reading → List Char → Option (List Char)
  | r, [] => readEnd env r
  | r, c :: rest =>
    if r.ending ∧ c = '#' then readEnd env r
    else do
      let (added, r) ← readNext env r c
      return added ++ (← value? env r rest)

/-! ### Assignments -/

/-- A variable's name, and the text behind it. -/
def name? (cs : List Char) : Option (List Char × List Char) :=
  let inside (c : Char) : Bool := c.isAlphanum || c = '_' || c = '.'
  match cs with
  | [] => none
  | c :: _ =>
    if c.isAlpha || c = '_' then some (cs.takeWhile inside, cs.dropWhile inside) else none

/-- The text behind an equals sign. -/
def equals? : List Char → Option (List Char)
  | '=' :: rest => some rest
  | _ => none

/-- The name of an assignment, and the text behind the equals sign.  The word `export` may stand in
front, and may be a name itself. -/
def assignee? (cs : List Char) : Option (List Char × List Char) := do
  let (name, rest) ← name? cs
  let rest := trimStart rest
  match equals? rest with
  | some rest => return (name, rest)
  | none =>
    if name = "export".toList then
      let (name, rest) ← name? rest
      return (name, ← equals? (trimStart rest))
    else none

/-- What a line assigns: none for a line in error, and an empty list for one without assignment. -/
def line? (env : Environment) (line : List Char) : Option (List (String × String)) :=
  let cs := trimStart (trimEnd line)
  if cs.isEmpty || cs.head? = some '#' then some []
  else do
    let (name, rest) ← assignee? cs
    let rest := trimStart rest
    let value ← if rest.isEmpty || rest.head? = some '#' then some [] else value? env .start rest
    return [(String.ofList name, String.ofList value)]

/-- The environment after some lines have supplied what they assign. -/
def supplyLines (env : Environment) : List (Option (List Char)) → Except Defect Environment
  | [] => .ok env
  | none :: _ => .ok env
  | some line :: rest =>
    match line? env line with
    | none => .ok env
    | some assigned => do
      let env ← assigned.foldlM (fun (env : Environment) (name, value) =>
        env.supply name value) env
      supplyLines env rest

/-- The bytes of a file without the byte order mark in front. -/
def skipMark : List UInt8 → List UInt8
  | 0xef :: 0xbb :: 0xbf :: rest => rest
  | bytes => bytes

/-- The environment after a file has supplied what is not set. -/
def supply (env : Environment) (bytes : Bytes) : Except Defect Environment :=
  supplyLines env (joinLines [] .plain ((rawLines (skipMark bytes.toList)).map lineText?))

end ScriptVm.Config.DotEnv
