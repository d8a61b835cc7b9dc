/-!
# Places in a YAML text

A text is read character by character, and what a character means depends on the
column it stands in and on whether white space alone precedes it in its line.
-/

namespace ScriptVm.Yaml

/-! ### Characters -/

/-- Whether a character ends a line. -/
def isBreak (c : Char) : Bool :=
  c = '\n' || c = '\r'

/-- Whether a character is white space within a line. -/
def isBlank (c : Char) : Bool :=
  c = ' ' || c = '\t'

/-- Whether a character is white space. -/
def isSpace (c : Char) : Bool :=
  isBlank c || isBreak c

/-- Whether a character opens, closes or divides a collection in brackets or braces. -/
def isFlow (c : Char) : Bool :=
  c = ',' || c = '[' || c = ']' || c = '\x7b' || c = '\x7d'

/-- Whether a character may stand in the name of a directive or a handle. -/
def isWordChar (c : Char) : Bool :=
  c.isAlphanum || c = '_' || c = '-'

/-- Whether the line ends here. -/
def endsLine (c : Option Char) : Bool :=
  c.all isBreak

/-- Whether a word ends here. -/
def endsWord (c : Option Char) : Bool :=
  c.all isSpace

/-! ### Places -/

/-- A place in a text. -/
structure Place where
  index : Nat
  line : Nat
  column : Nat
  deriving DecidableEq, Repr

/-- A place together with the text from there on. -/
structure Cursor extends Place where
  rest : List Char
  /-- Whether nothing but white space precedes in the line. -/
  fresh : Bool
  deriving Repr

namespace Cursor

/-- The start of a text, which a zero character ends. -/
def start (text : String) : Cursor :=
  { index := 0, line := 0, column := 0, fresh := true,
    rest := text.toList.takeWhile (· ≠ '\x00') }

/-- The next character. -/
def next? (k : Cursor) : Option Char :=
  k.rest.head?

/-- The character behind the next one. -/
def second? (k : Cursor) : Option Char :=
  k.rest.tail.head?

/-- The place behind some characters of this line. -/
def move (k : Cursor) (n : Nat) : Cursor :=
  { k with index := k.index + n, column := k.column + n, rest := k.rest.drop n }

/-- The place behind some characters of this line that are not all white space. -/
def advance (k : Cursor) (n : Nat) : Cursor :=
  { k.move n with fresh := false }

/-- The place behind the characters of a class, none of which ends a line. -/
def skip (k : Cursor) (p : Char → Bool) : Cursor :=
  k.move (k.rest.takeWhile p).length

/-- The start of the next line, from the end of this one. -/
def nextLine (k : Cursor) : Cursor :=
  let n := match k.rest with
    | '\r' :: '\n' :: _ => 2
    | _ => 1
  { k with
    index := k.index + n, line := k.line + 1, column := 0, rest := k.rest.drop n, fresh := true }

/-- The place behind the blanks here and a comment, with the blanks.  A comment has to follow a
blank. -/
def toLineEnd? (k : Cursor) : Option (List Char × Cursor) :=
  let blanks := k.rest.takeWhile isBlank
  let k := k.skip isBlank
  if k.next? = some '#' then
    if blanks.isEmpty then none else some (blanks, k.skip fun c => !isBreak c)
  else some (blanks, k)

/-- Whether a mark of three characters stands here as a word. -/
def atMark (k : Cursor) (mark : Char) : Bool :=
  k.rest.take 3 = [mark, mark, mark] && endsWord (k.rest.drop 3).head?

/-- Whether a document starts or ends here. -/
def atDocument (k : Cursor) : Bool :=
  k.column = 0 && (k.atMark '-' || k.atMark '.')

end Cursor

end ScriptVm.Yaml
