/-!
# JSON documents

A document is kept with its lexemes: a number as the characters it was written
with, a string as the characters between its quotes, escapes included.  What a
lexeme means is asked separately, `natural?` for numbers and `unescape?` for
strings, because a reader that skips a member must not care.

`print` writes a document without any blanks.
-/

namespace ScriptVm

/-- A JSON document by its lexemes. -/
inductive Json
  | null
  | bool (b : Bool)
  /-- A number, as written. -/
  | number (literal : List Char)
  /-- A string, as written between the quotes. -/
  | string (lexeme : List Char)
  | array (items : List Json)
  /-- Members in order; a name may come more than once. -/
  | object (members : List (List Char × Json))
  deriving Repr

namespace Json

/-! ### Numbers -/

/-- The number that decimal digits spell. -/
def ofDigits (digits : List Char) : Nat :=
  digits.foldl (fun n c => 10 * n + (c.toNat - '0'.toNat)) 0

/-- The natural number a literal stands for; a sign, a fraction or an exponent makes it something
else. -/
def natural? (literal : List Char) : Option Nat :=
  if literal ≠ [] ∧ literal.all Char.isDigit then some (ofDigits literal) else none

/-- A natural number as a document. -/
def ofNat (n : Nat) : Json :=
  number (Nat.toDigits 10 n)

/-! ### Strings -/

/-- A piece of a string: a character, or a unit of sixteen bits from a `\u` escape. -/
inductive Piece
  | char (c : Char)
  | unit (n : Nat)
  deriving DecidableEq, Repr

/-- The value of a hexadecimal digit. -/
def hexDigit? (c : Char) : Option Nat :=
  if c.isDigit then some (c.toNat - '0'.toNat)
  else if 'a' ≤ c ∧ c ≤ 'f' then some (c.toNat - 'a'.toNat + 10)
  else if 'A' ≤ c ∧ c ≤ 'F' then some (c.toNat - 'A'.toNat + 10)
  else none

/-- The unit that four hexadecimal digits spell. -/
def hexUnit? (a b c d : Char) : Option Nat := do
  let a ← hexDigit? a
  let b ← hexDigit? b
  let c ← hexDigit? c
  let d ← hexDigit? d
  return ((a * 16 + b) * 16 + c) * 16 + d

/-- The character of an escape of one letter. -/
def escaped? : Char → Option Char
  | '"' => some '"'
  | '\\' => some '\\'
  | '/' => some '/'
  | 'b' => some '\x08'
  | 'f' => some '\x0c'
  | 'n' => some '\n'
  | 'r' => some '\r'
  | 't' => some '\t'
  | _ => none

/-- What stands in a lexeme for a byte that belongs to no character.  As a character it cannot stand
anywhere in a document. -/
def undecodable : Char := '\x00'

/-- The pieces of a lexeme. -/
def pieces? : List Char → Option (List Piece)
  | [] => some []
  | '\\' :: 'u' :: a :: b :: c :: d :: rest => do
    let n ← hexUnit? a b c d
    return .unit n :: (← pieces? rest)
  | '\\' :: c :: rest => do
    let c ← escaped? c
    return .char c :: (← pieces? rest)
  | c :: rest =>
    if c = undecodable then none
    else do
      return .char c :: (← pieces? rest)

/-- Whether a unit is the first half of a surrogate pair. -/
def isHigh (n : Nat) : Bool :=
  0xd800 ≤ n && n < 0xdc00

/-- Whether a unit is the second half of a surrogate pair. -/
def isLow (n : Nat) : Bool :=
  0xdc00 ≤ n && n < 0xe000

/-- The text of pieces; a half of a surrogate pair on its own is no text. -/
def joinPieces : List Piece → Option (List Char)
  | [] => some []
  | .unit hi :: .unit lo :: rest =>
    if isHigh hi then
      if isLow lo then do
        let n := 0x10000 + (hi - 0xd800) * 0x400 + (lo - 0xdc00)
        return Char.ofNat n :: (← joinPieces rest)
      else none
    else if isLow hi then none
    else do
      return Char.ofNat hi :: (← joinPieces (.unit lo :: rest))
  | .unit n :: rest =>
    if isHigh n || isLow n then none
    else do
      return Char.ofNat n :: (← joinPieces rest)
  | .char c :: rest => do
    return c :: (← joinPieces rest)

/-- The text that a lexeme stands for. -/
def unescape? (lexeme : List Char) : Option String := do
  let pieces ← pieces? lexeme
  return String.ofList (← joinPieces pieces)

/-- A hexadecimal digit in lower case. -/
def hexChar (n : Nat) : Char :=
  if n < 10 then Char.ofNat ('0'.toNat + n) else Char.ofNat ('a'.toNat + (n - 10))

/-- A character as it is written inside quotes: the quote, the backslash and control characters are
escaped, everything else stands for itself. -/
def escapeChar (c : Char) : List Char :=
  if c = '"' then ['\\', '"']
  else if c = '\\' then ['\\', '\\']
  else if c = '\x08' then ['\\', 'b']
  else if c = '\t' then ['\\', 't']
  else if c = '\n' then ['\\', 'n']
  else if c = '\x0c' then ['\\', 'f']
  else if c = '\r' then ['\\', 'r']
  else if c.toNat < 0x20 then
    ['\\', 'u', '0', '0', hexChar (c.toNat / 16), hexChar (c.toNat % 16)]
  else [c]

/-- The lexeme that is written for a text. -/
def escape (s : String) : List Char :=
  s.toList.flatMap escapeChar

/-- A text as a document. -/
def ofString (s : String) : Json :=
  string (escape s)

/-! ### Printing -/

/-- A lexeme between quotes. -/
def quote (lexeme : List Char) : List Char :=
  '"' :: lexeme ++ ['"']

mutual

/-- The text of a document, without blanks. -/
def print : Json → List Char
  | null => ['n', 'u', 'l', 'l']
  | bool true => ['t', 'r', 'u', 'e']
  | bool false => ['f', 'a', 'l', 's', 'e']
  | number literal => literal
  | string lexeme => quote lexeme
  | array [] => ['[', ']']
  | array (x :: rest) => '[' :: print x ++ printItems rest
  | object [] => ['{', '}']
  | object ((name, x) :: rest) => '{' :: quote name ++ ':' :: print x ++ printMembers rest

/-- The items of an array behind the first, with the closing bracket. -/
def printItems : List Json → List Char
  | [] => [']']
  | x :: rest => ',' :: print x ++ printItems rest

/-- The members of an object behind the first, with the closing brace. -/
def printMembers : List (List Char × Json) → List Char
  | [] => ['}']
  | (name, x) :: rest => ',' :: quote name ++ ':' :: print x ++ printMembers rest

end

end Json

end ScriptVm
