import ScriptVm.Json
import ScriptVm.Yaml.Cursor

/-!
# Tokens of YAML

Indentation is told by tokens of its own: a block of entries or members has a
token at its start and one at its end, so that the structure of a document can be
read off its tokens alone.
-/

namespace ScriptVm.Yaml

/-- A token. -/
inductive Token
  /-- A directive that gives a version. -/
  | version
  /-- A directive that gives what a handle of tags stands for. -/
  | handle (name replacement : String)
  | documentStart
  | documentEnd
  | sequenceStart
  | mappingStart
  | blockEnd
  /-- A dash. -/
  | entry
  /-- A question mark, or the start of what turns out to be a name. -/
  | key
  /-- A colon. -/
  | value
  | flowSequenceStart
  | flowSequenceEnd
  | flowMappingStart
  | flowMappingEnd
  | comma
  | alias (name : String)
  | anchor (name : String)
  | tag (handle suffix : String)
  | scalar (plain : Bool) (s : String)
  deriving DecidableEq, Repr

/-! ### Names of nodes -/

/-- Whether a character may stand in the name of a node. -/
def isAnchorChar (c : Char) : Bool :=
  !isSpace c && !isFlow c && c ≠ '\ufeff'

/-- The name of a node behind its mark, and the place behind it. -/
def anchorName? (k : Cursor) : Option (String × Cursor) :=
  let name := k.rest.tail.takeWhile isAnchorChar
  if name.isEmpty then none else some (String.ofList name, k.advance (1 + name.length))

/-! ### Tags -/

/-- Whether a character may stand in a tag between angle brackets. -/
def isUriChar (c : Char) : Bool :=
  c.isAlphanum || "-#;/?:@&=+$,_.!~*'()[]%".toList.contains c

/-- Whether a character may stand in a tag. -/
def isTagChar (c : Char) : Bool :=
  isUriChar c && !isFlow c && c ≠ '!'

/-- How many bytes a character has, by its first byte. -/
def byteCount? (byte : Nat) : Option Nat :=
  if byte < 0x80 then some 1
  else if 0xc0 ≤ byte ∧ byte < 0xe0 then some 2
  else if 0xe0 ≤ byte ∧ byte < 0xf0 then some 3
  else if 0xf0 ≤ byte ∧ byte < 0xf8 then some 4
  else none

/-- A byte of an escape with a percent sign, and the text behind it. -/
def percentByte? : List Char → Option (Nat × List Char)
  | '%' :: a :: b :: rest => do
    return (16 * (← Json.hexDigit? a) + (← Json.hexDigit? b), rest)
  | _ => none

/-- The further bytes of a character, put behind those that were read. -/
def percentBytes? : (count n : Nat) → List Char → Option (Nat × List Char)
  | 0, n, cs => some (n, cs)
  | count + 1, n, cs => do
    let (byte, rest) ← percentByte? cs
    if byte < 0x80 ∨ 0xc0 ≤ byte then none
    percentBytes? count (256 * n + byte) rest

/-- The character of an escape with percent signs, and the text behind it.  Its number is made of
its bytes as they are. -/
def percent? (cs : List Char) : Option (Char × List Char) := do
  let (byte, rest) ← percentByte? cs
  let (n, rest) ← percentBytes? ((← byteCount? byte) - 1) byte rest
  if n.isValidChar then return (Char.ofNat n, rest) else none

/-- The characters of a class, with escapes resolved, and the text behind them. -/
def tagChars? (p : Char → Bool) : (fuel : Nat) → List Char → Option (List Char × List Char)
  | 0, cs => some ([], cs)
  | _, [] => some ([], [])
  | fuel + 1, c :: rest => do
    if !p c then return ([], c :: rest)
    let (c, rest) ← if c = '%' then percent? (c :: rest) else some (c, rest)
    let (more, rest) ← tagChars? p fuel rest
    return (c :: more, rest)

/-- The handle here: an exclamation mark, or a word between two of them.  A word without the second
one is a handle only at the start of a tag. -/
def handle? (directive : Bool) : List Char → Option (String × List Char)
  | '!' :: rest =>
    let word := rest.takeWhile isWordChar
    match rest.dropWhile isWordChar with
    | '!' :: rest => some (String.ofList ('!' :: word ++ ['!']), rest)
    | rest => if directive ∧ word ≠ [] then none else some (String.ofList ('!' :: word), rest)
  | _ => none

/-- The tag here, and the text behind it. -/
def tag? (cs : List Char) : Option (Token × List Char) := do
  match cs with
  | '!' :: '<' :: rest =>
    let (suffix, rest) ← tagChars? isUriChar rest.length rest
    match rest with
    | '>' :: rest => return (.tag "" (String.ofList suffix), rest)
    | _ => none
  | cs =>
    let (handle, rest) ← handle? false cs
    let (suffix, rest) ← tagChars? isTagChar rest.length rest
    if handle.length ≥ 2 ∧ handle.toList.getLast? = some '!' then
      return (.tag handle (String.ofList suffix), rest)
    else
      let suffix := handle.toList.drop 1 ++ suffix
      return (if suffix.isEmpty then .tag "" "!" else .tag "!" (String.ofList suffix), rest)

/-! ### Directives -/

/-- A number of a version, of at most nine digits, and the text behind it. -/
def versionNumber? (cs : List Char) : Option (List Char) :=
  let digits := cs.takeWhile Char.isDigit
  if digits.isEmpty ∨ 9 < digits.length then none else some (cs.dropWhile Char.isDigit)

/-- What a handle is to be replaced by, and the text behind it. -/
def replacement? : List Char → Option (String × List Char)
  | [] => none
  | c :: rest => do
    if c ≠ '!' ∧ !isTagChar c then none
    let (chars, rest) ←
      if c = '!' then
        (tagChars? isUriChar rest.length rest).map fun (chars, rest) => (c :: chars, rest)
      else tagChars? isUriChar (rest.length + 1) (c :: rest)
    return (String.ofList chars, rest)

/-- The directive behind its percent sign, and the text behind it.  One of an unknown name takes its
whole line and counts for nothing. -/
def directive? (cs : List Char) : Option (Token × List Char) := do
  let name := String.ofList (cs.takeWhile isWordChar)
  let rest := cs.dropWhile isWordChar
  if name.isEmpty ∨ !endsWord rest.head? then none
  if name = "YAML" then
    match ← versionNumber? (rest.dropWhile isBlank) with
    | '.' :: rest => return (.version, ← versionNumber? rest)
    | _ => none
  else if name = "TAG" then
    let (handle, rest) ← handle? true (rest.dropWhile isBlank)
    let (full, rest) ← replacement? (rest.dropWhile isBlank)
    if endsWord rest.head? then return (.handle handle full, rest) else none
  else return (.handle "" "", rest.dropWhile fun c => !isBreak c)

end ScriptVm.Yaml
