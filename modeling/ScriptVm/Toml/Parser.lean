import ScriptVm.Toml.Scalar

/-!
# Reading TOML

A document is read line by line: a key with its value, a header, or nothing.
Only blanks and a comment may stand behind either.  Values inside brackets may
go over several lines; values inside braces stay on one.  Neither brackets and
braces nor the names of a key may be nested too deeply.

The descent is bounded by the length of the text: every call either reads a
character or is made right after one was read.
-/

namespace ScriptVm.Toml

/-- The text behind blanks within a line. -/
def skipBlanks (cs : List Char) : List Char :=
  cs.dropWhile isBlank

/-- The text behind blanks, line ends and comments. -/
def skipLines (inComment : Bool) : List Char → List Char
  | [] => []
  | '\n' :: rest => skipLines false rest
  | '\r' :: '\n' :: rest => skipLines false rest
  | c :: rest =>
    if inComment then
      if isPlain c then skipLines true rest else c :: rest
    else if isBlank c then skipLines false rest
    else if c = '#' then skipLines true rest
    else c :: rest

/-- The text behind the end of a line, before which only blanks and a comment may stand. -/
def lineEnd? (cs : List Char) : Option (List Char) :=
  let rest := match skipBlanks cs with
    | '#' :: rest => rest.dropWhile isPlain
    | rest => rest
  match rest with
  | [] => some []
  | '\n' :: rest => some rest
  | '\r' :: '\n' :: rest => some rest
  | _ => none

/-! ### Keys -/

/-- Whether a character may stand in a key without quotes. -/
def isBare (c : Char) : Bool :=
  c.isAlphanum || c = '_' || c = '-'

/-- One name of a key. -/
def simpleKey? : List Char → Option (String × List Char)
  | '"' :: rest => (escaped? false false rest).map fun (name, rest) => (String.ofList name, rest)
  | '\'' :: rest => (literal? false rest).map fun (name, rest) => (String.ofList name, rest)
  | cs =>
    let name := cs.takeWhile isBare
    if name.isEmpty then none else some (String.ofList name, cs.dropWhile isBare)

/-- The names of a key, separated by points, with blanks around them: the path and the last
name. -/
def keyNames? : (fuel : Nat) → List Char → Option ((List String × String) × List Char)
  | 0, _ => none
  | fuel + 1, cs => do
    let (name, rest) ← simpleKey? (skipBlanks cs)
    match skipBlanks rest with
    | '.' :: rest =>
      let ((path, last), rest) ← keyNames? fuel rest
      return ((name :: path, last), rest)
    | rest => return (([], name), rest)

/-- The depth that values and keys do not reach. -/
def depthLimit : Nat := 80

/-- A key: the path and the last name. -/
def key? (fuel : Nat) (cs : List Char) : Option ((List String × String) × List Char) :=
  (keyNames? fuel cs).filter fun ((path, _), _) => path.length + 1 < depthLimit

/-- A key up to and with the equals sign. -/
def assignee? (fuel : Nat) (cs : List Char) : Option ((List String × String) × List Char) := do
  let (key, rest) ← key? fuel cs
  match rest with
  | '=' :: rest => return (key, skipBlanks rest)
  | _ => none

/-! ### Values -/

mutual

/-- The value a text starts with, at some depth, and the text behind it. -/
def value? : (fuel depth : Nat) → List Char → Option (Toml × List Char)
  | 0, _, _ => none
  | fuel + 1, depth, '[' :: rest =>
    if depth + 1 < depthLimit then
      (items? fuel (depth + 1) rest).map fun (items, rest) => (.array items, rest)
    else none
  | fuel + 1, depth, '{' :: rest =>
    if depth + 1 < depthLimit then
      match skipBlanks rest with
      | '}' :: rest => some (.table .braces [], rest)
      | rest =>
        (members? fuel (depth + 1) [] rest).map fun (members, rest) =>
          (.table .braces members, rest)
    else none
  | _ + 1, _, cs =>
    match cs with
    | '"' :: _ => (string? cs).map fun (s, rest) => (.text s, rest)
    | '\'' :: _ => (string? cs).map fun (s, rest) => (.text s, rest)
    | _ => scalarWord? cs

/-- The items of an array up to its closing bracket. -/
def items? : (fuel depth : Nat) → List Char → Option (List Toml × List Char)
  | 0, _, _ => none
  | fuel + 1, depth, cs => do
    match skipLines false cs with
    | ']' :: rest => return ([], rest)
    | cs =>
      let (x, rest) ← value? fuel depth cs
      match skipLines false rest with
      | ',' :: rest =>
        let (more, rest) ← items? fuel depth rest
        return (x :: more, rest)
      | ']' :: rest => return ([x], rest)
      | _ => none

/-- The members of a table in braces up to its closing brace, behind those already read. -/
def members? : (fuel depth : Nat) → Members → List Char → Option (Members × List Char)
  | 0, _, _, _ => none
  | fuel + 1, depth, members, cs => do
    let ((path, name), rest) ← assignee? fuel cs
    let (x, rest) ← value? fuel depth rest
    let members ← addKey .braces members path name x
    match skipBlanks rest with
    | ',' :: rest => members? fuel depth members rest
    | '}' :: rest => return (members, rest)
    | _ => none

end

/-! ### Documents -/

/-- A header, behind its first bracket, and the text behind its line. -/
def header? (fuel : Nat) (t : Tree) (cs : List Char) : Option (Tree × List Char) := do
  match cs with
  | '[' :: cs =>
    let ((path, name), rest) ← key? fuel cs
    match rest with
    | ']' :: ']' :: rest =>
      return (← t.openElement (path ++ [name]), ← lineEnd? rest)
    | _ => none
  | cs =>
    let ((path, name), rest) ← key? fuel cs
    match rest with
    | ']' :: rest => return (← t.openTable (path ++ [name]), ← lineEnd? rest)
    | _ => none

/-- A key with its value, and the text behind its line. -/
def assignment? (fuel : Nat) (t : Tree) (cs : List Char) : Option (Tree × List Char) := do
  let ((path, name), rest) ← assignee? fuel cs
  let (x, rest) ← value? fuel 0 rest
  return (← t.addKey path name x, ← lineEnd? rest)

/-- The document of which a part has been read. -/
def lines? : (fuel : Nat) → Tree → List Char → Option Members
  | 0, _, _ => none
  | fuel + 1, t, cs => do
    match skipLines false cs with
    | [] => t.close
    | '[' :: cs =>
      let (t, rest) ← header? fuel t cs
      lines? fuel t rest
    | cs =>
      let (t, rest) ← assignment? fuel t cs
      lines? fuel t rest

/-- The members of the document that a text holds.  A byte order mark in front is skipped. -/
def parse? (text : String) : Option Members :=
  let cs := match text.toList with
    | '\ufeff' :: rest => rest
    | cs => cs
  lines? (2 * cs.length + 2) .empty cs

end ScriptVm.Toml
