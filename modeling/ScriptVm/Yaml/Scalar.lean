import ScriptVm.Json
import ScriptVm.Yaml.Cursor

/-!
# Scalars of YAML

A scalar is plain, quoted, or a block of lines.  Plain and quoted scalars may go
on in further lines: a single line end stands for a space, and of several the
first one counts for nothing.  A block keeps its lines, or folds them in the same
way.

All readers take the indentation of the collection around, which further lines of
a scalar have to respect.
-/

namespace ScriptVm.Yaml

/-- So many line ends. -/
def breaks (n : Nat) : List Char :=
  List.replicate n '\n'

/-- What stands between two parts of a scalar that some line ends divide. -/
def folded (lines : Nat) : List Char :=
  if lines = 1 then [' '] else breaks (lines - 1)

/-! ### Plain scalars -/

/-- Whether a plain scalar ends at a character, which the other one follows. -/
def endsPlain (flow : Bool) (c : Char) (following : Option Char) : Bool :=
  (c = ':' && (endsWord following || (flow && following.any isFlow))) || (flow && isFlow c)

/-- The characters of a plain scalar up to white space. -/
def plainWord (flow : Bool) : List Char → List Char
  | [] => []
  | c :: rest =>
    if isSpace c || endsPlain flow c rest.head? then [] else c :: plainWord flow rest

/-- The white space between two words of a plain scalar: what stands for it, and the place behind.
A tab cannot indent a line that holds something. -/
def plainGap? (indent : Int) :
    (fuel : Nat) → (blanks : List Char) → (lines : Nat) → Cursor → Option
    (List Char × Cursor)
  | 0, _, _, _ => none
  | fuel + 1, blanks, lines, k =>
    match k.next? with
    | none => some (if lines = 0 then blanks else folded lines, k)
    | some c =>
      if isBreak c then plainGap? indent fuel [] (lines + 1) k.nextLine
      else if !isBlank c then some (if lines = 0 then blanks else folded lines, k)
      else if lines = 0 then plainGap? indent fuel (blanks ++ [c]) 0 (k.move 1)
      else if k.column < indent ∧ c = '\t' then do
        let (_, k) ← k.toLineEnd?
        if endsLine k.next? then plainGap? indent fuel blanks lines k else none
      else plainGap? indent fuel blanks lines (k.move 1)

/-- The words of a plain scalar, and the place behind.  Outside of brackets and braces a line that
is not indented further than `indent` does not belong to it. -/
def plainWords? (flow : Bool) (indent : Int) : (fuel : Nat) → Cursor →
    Option (List Char × Cursor)
  | 0, _ => none
  | fuel + 1, k =>
    if k.atDocument || k.next? = some '#' then some ([], k)
    else if flow && k.next? = some '-' && k.second?.any isFlow then none
    else do
      let word := plainWord flow k.rest
      let k := if word.isEmpty then k else k.advance word.length
      if !k.next?.any isSpace then return (word, k)
      let (gap, k) ← plainGap? indent (k.rest.length + 1) [] 0 k
      if !flow ∧ k.column < indent then return (word, k)
      let (more, k) ← plainWords? flow indent fuel k
      return (if more.isEmpty then word else word ++ gap ++ more, k)

/-- The plain scalar here, and the place behind. -/
def plain? (flow : Bool) (indent : Int) (k : Cursor) : Option (List Char × Cursor) :=
  if flow ∧ k.column < indent then none
  else plainWords? flow indent (k.rest.length + 1) k

/-! ### Quoted scalars -/

/-- The character that so many hexadecimal digits name. -/
def hexChar? (digits : Nat) (cs : List Char) : Option Char := do
  if cs.length < digits then none
  let values ← (cs.take digits).mapM Json.hexDigit?
  let n := values.foldl (fun n d => 16 * n + d) 0
  if n.isValidChar then return Char.ofNat n else none

/-- The characters of the escapes of one letter. -/
def escapes : List (Char × Char) :=
  [('0', '\x00'), ('a', '\x07'), ('b', '\x08'), ('t', '\t'), ('\t', '\t'), ('n', '\n'),
    ('v', '\x0b'), ('f', '\x0c'), ('r', '\r'), ('e', '\x1b'), (' ', ' '), ('"', '"'), ('/', '/'),
    ('\\', '\\'), ('N', '\u0085'), ('_', '\u00a0'), ('L', '\u2028'), ('P', '\u2029')]

/-- The character of an escape, from behind the backslash, and how long the escape is. -/
def escape? : List Char → Option (Char × Nat)
  | 'x' :: rest => (hexChar? 2 rest).map fun c => (c, 3)
  | 'u' :: rest => (hexChar? 4 rest).map fun c => (c, 5)
  | 'U' :: rest => (hexChar? 8 rest).map fun c => (c, 9)
  | c :: _ => (escapes.lookup c).map fun c => (c, 1)
  | [] => none

/-- The characters of a quoted scalar up to white space or the closing quote, and the place behind.
The flag says whether they end in a line end that counts for nothing. -/
def quotedWord? (single : Bool) : (fuel : Nat) → Cursor → Option (List Char × Bool × Cursor)
  | 0, _ => none
  | fuel + 1, k =>
    match k.rest with
    | [] => some ([], false, k)
    | c :: rest =>
      if isSpace c then some ([], false, k)
      else if single ∧ c = '\'' then
        if rest.head? = some '\'' then do
          let (word, joined, k) ← quotedWord? single fuel (k.advance 2)
          return ('\'' :: word, joined, k)
        else some ([], false, k)
      else if !single ∧ c = '"' then some ([], false, k)
      else if !single ∧ c = '\\' then
        if rest.head?.any isBreak then some ([], true, (k.advance 1).nextLine)
        else do
          let (c, size) ← escape? rest
          let (word, joined, k) ← quotedWord? single fuel (k.advance (1 + size))
          return (c :: word, joined, k)
      else do
        let (word, joined, k) ← quotedWord? single fuel (k.advance 1)
        return (c :: word, joined, k)

/-- The white space within a quoted scalar: the blanks before the first line end, the number of line
ends, and the place behind.  A tab cannot indent a line. -/
def quotedGap? (indent : Int) (leading : Bool) :
    (fuel : Nat) → (blanks : List Char) → (lines : Nat) → Cursor →
      Option (List Char × Nat × Cursor)
  | 0, _, _, _ => none
  | fuel + 1, blanks, lines, k =>
    match k.next? with
    | none => some (blanks, lines, k)
    | some c =>
      if isBreak c then quotedGap? indent true fuel [] (lines + 1) k.nextLine
      else if !isBlank c then some (blanks, lines, k)
      else if !leading then quotedGap? indent leading fuel (blanks ++ [c]) lines (k.move 1)
      else if c = '\t' ∧ k.column < indent then none
      else quotedGap? indent leading fuel blanks lines (k.move 1)

/-- The characters of a quoted scalar, from behind the opening quote, and the place of the closing
one. -/
def quotedWords? (single : Bool) (indent : Int) :
    (fuel : Nat) → Cursor → Option (List Char × Cursor)
  | 0, _ => none
  | fuel + 1, k => do
    if k.atDocument ∨ k.rest.isEmpty ∨ k.column < indent then none
    let (word, joined, k) ← quotedWord? single (k.rest.length + 1) k
    if k.next? = some (if single then '\'' else '"') then return (word, k)
    let (blanks, lines, k) ← quotedGap? indent joined (k.rest.length + 1) [] 0 k
    let gap := if joined then breaks lines else if lines = 0 then blanks else folded lines
    let (more, k) ← quotedWords? single indent fuel k
    return (word ++ gap ++ more, k)

/-- Whether something may stand behind a quoted scalar that started in the given line. -/
def mayFollowQuoted (flow : Bool) (line : Nat) (k : Cursor) : Bool :=
  endsLine k.next?
    || k.next?.any fun c => if flow then c = ',' || c = '\x7d' || c = ']' || c = ':'
        else c = ':' && line = k.line

/-- The quoted scalar here, and the place behind it and the blanks that follow. -/
def quoted? (single flow : Bool) (indent : Int) (k : Cursor) : Option (List Char × Cursor) := do
  let (chars, close) ← quotedWords? single indent (k.rest.length + 1) (k.advance 1)
  let (_, behind) ← (close.advance 1).toLineEnd?
  if mayFollowQuoted flow k.line behind then return (chars, behind) else none

/-! ### Blocks of lines -/

/-- What becomes of the line ends at the end of a block. -/
inductive Chomping
  /-- One of them stays. -/
  | clip
  | strip
  | keep
  deriving DecidableEq, Repr

/-- The way of chomping that a mark names. -/
def Chomping.ofMark? (c : Char) : Option Chomping :=
  if c = '+' then some keep else if c = '-' then some strip else none

/-- The indentation that a digit gives, which is not zero. -/
def increment? (c : Char) : Option Nat :=
  if c.isDigit ∧ c ≠ '0' then some (c.toNat - '0'.toNat) else none

/-- The header of a block, from behind its first character: the way of chomping, the indentation if
it is given, and how many characters they take. -/
def header? (cs : List Char) : Option (Chomping × Nat × Nat) :=
  match cs with
  | a :: rest =>
    match Chomping.ofMark? a with
    | some chomping =>
      if rest.head?.any Char.isDigit then
        (rest.head?.bind increment?).map fun n => (chomping, n, 2)
      else some (chomping, 0, 1)
    | none =>
      if a.isDigit then
        (increment? a).map fun n =>
          match rest.head?.bind Chomping.ofMark? with
          | some chomping => (chomping, n, 2)
          | none => (.clip, n, 1)
      else some (.clip, 0, 0)
  | [] => some (.clip, 0, 0)

/-- The place behind empty lines and the indentation of a line, and the number of empty lines. -/
def blockIndent (width : Nat) : (fuel : Nat) → (lines : Nat) → Cursor → Nat × Cursor
  | 0, lines, k => (lines, k)
  | fuel + 1, lines, k =>
    let k := k.move ((k.rest.take (width - k.column)).takeWhile (· = ' ')).length
    if k.next?.any isBreak then blockIndent width fuel (lines + 1) k.nextLine else (lines, k)

/-- The place of the first line of a block that is not empty, the number of empty lines, and the
greatest number of spaces at the start of one of these lines. -/
def firstIndent : (fuel : Nat) → (lines most : Nat) → Cursor → Nat × Nat × Cursor
  | 0, lines, most, k => (lines, most, k)
  | fuel + 1, lines, most, k =>
    let k := k.skip (· = ' ')
    let most := max most k.column
    if k.next?.any isBreak then firstIndent fuel (lines + 1) most k.nextLine else (lines, most, k)

/-- The end of a block: whether a line end precedes, how many empty lines do, and the place. -/
structure BlockEnd where
  broken : Bool
  empty : Nat
  place : Cursor

/-- The lines of a block that are indented by `width`.  Lines that start with a blank are not
folded. -/
def blockLines (literal : Bool) (width : Nat) :
    (fuel : Nat) → (blank : Bool) → BlockEnd → List Char × BlockEnd
  | 0, _, e => ([], e)
  | fuel + 1, blank, e =>
    let k := e.place
    if k.column ≠ width || k.rest.isEmpty || (width = 0 && k.atMark '.') then ([], e)
    else
      let startsBlank := k.next?.any isBlank
      let gap :=
        if !literal && e.broken && !blank && !startsBlank then folded (e.empty + 1)
        else breaks ((if e.broken then 1 else 0) + e.empty)
      let line := k.rest.takeWhile fun c => !isBreak c
      let k := k.move line.length
      if k.rest.isEmpty then (gap ++ line, ⟨false, 0, k⟩)
      else
        let (empty, k) := blockIndent width (k.rest.length + 1) 0 k.nextLine
        let (more, e) := blockLines literal width fuel startsBlank ⟨true, empty, k⟩
        (gap ++ line ++ more, e)

/-- What a block without any line of its own holds.  The flag says whether a line end follows its
header. -/
def emptyBlock (chomping : Chomping) (broken : Bool) (empty : Nat) : List Char :=
  if !broken then []
  else
    match chomping with
    | .strip => []
    | .clip => breaks 1
    | .keep => breaks (max 1 empty)

/-- The line ends that stay at the end of a block. -/
def blockTail (chomping : Chomping) (width : Nat) (e : BlockEnd) : List Char :=
  let last := e.place.rest.isEmpty && max width 1 ≤ e.place.column
  let kept := breaks ((if e.broken then 1 else 0) + if last then 1 else 0)
  match chomping with
  | .strip => []
  | .clip => kept
  | .keep => kept ++ breaks e.empty

/-- The block here, and the place behind it. -/
def block? (literal : Bool) (indent : Int) (k : Cursor) : Option (List Char × Cursor) := do
  let (chomping, increment, size) ← header? k.rest.tail
  let (_, k) ← (k.advance (1 + size)).toLineEnd?
  if !endsLine k.next? then none
  let broken := !k.rest.isEmpty
  let k := if broken then k.nextLine else k
  if k.next? = some '\t' then none
  let (width, empty, k) :=
    if increment = 0 then
      let (empty, most, k) := firstIndent (k.rest.length + 1) 0 0 k
      (max (max most (indent + 1).toNat) (if 0 < indent then 1 else 0), empty, k)
    else
      let width := (max indent 0).toNat + increment
      let (empty, k) := blockIndent width (k.rest.length + 1) 0 k
      (width, empty, k)
  if k.rest.isEmpty then return (emptyBlock chomping broken empty, k)
  if k.column < width ∧ indent < k.column then none
  let (chars, e) := blockLines literal width (k.rest.length + 1) false ⟨false, empty, k⟩
  return (chars ++ blockTail chomping width e, e.place)

end ScriptVm.Yaml
