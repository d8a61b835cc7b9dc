import ScriptVm.Json

/-!
# Reading JSON

A recursive descent over the characters.  Blanks may stand around every token,
and only blanks may follow the document.  The descent is bounded by the length
of the text: every call either reads a character or is made right after one was
read.
-/

namespace ScriptVm.Json

/-- Whether a character may stand between tokens. -/
def isBlank (c : Char) : Bool :=
  c = ' ' || c = '\t' || c = '\n' || c = '\r'

/-- The text behind leading blanks. -/
def skipBlanks (cs : List Char) : List Char :=
  cs.dropWhile isBlank

/-- The lexeme of a string whose opening quote has been read, and the text behind its closing
quote.  An escape has to be complete; a control character may not stand in a string. -/
def stringLexeme? : List Char → Option (List Char × List Char)
  | [] => none
  | '"' :: rest => some ([], rest)
  | '\\' :: 'u' :: a :: b :: c :: d :: rest => do
    let _ ← hexUnit? a b c d
    let (lexeme, rest) ← stringLexeme? rest
    return ('\\' :: 'u' :: a :: b :: c :: d :: lexeme, rest)
  | '\\' :: c :: rest => do
    let _ ← escaped? c
    let (lexeme, rest) ← stringLexeme? rest
    return ('\\' :: c :: lexeme, rest)
  | c :: rest =>
    if (c.toNat < 0x20 ∧ c ≠ undecodable) ∨ c = '\\' then none
    else do
      let (lexeme, rest) ← stringLexeme? rest
      return (c :: lexeme, rest)

/-- One digit at least, and the text behind the digits. -/
def digits? (cs : List Char) : Option (List Char × List Char) :=
  let digits := cs.takeWhile Char.isDigit
  if digits.isEmpty then none else some (digits, cs.dropWhile Char.isDigit)

/-- The digits before the fraction: a zero, or digits that do not start with one. -/
def whole? : List Char → Option (List Char × List Char)
  | '0' :: rest => some (['0'], rest)
  | cs => digits? cs

/-- The fraction, if there is one. -/
def fraction? : List Char → Option (List Char × List Char)
  | '.' :: rest => (digits? rest).map fun (digits, rest) => ('.' :: digits, rest)
  | cs => some ([], cs)

/-- The sign of an exponent, if there is one. -/
def sign : List Char → List Char × List Char
  | '+' :: rest => (['+'], rest)
  | '-' :: rest => (['-'], rest)
  | cs => ([], cs)

/-- The digits of an exponent behind its mark. -/
def exponentDigits? (mark : Char) (cs : List Char) : Option (List Char × List Char) :=
  let (signs, rest) := sign cs
  (digits? rest).map fun (digits, rest) => (mark :: signs ++ digits, rest)

/-- The exponent, if there is one. -/
def exponent? : List Char → Option (List Char × List Char)
  | 'e' :: rest => exponentDigits? 'e' rest
  | 'E' :: rest => exponentDigits? 'E' rest
  | cs => some ([], cs)

/-- The literal of a number without its sign. -/
def unsigned? (cs : List Char) : Option (List Char × List Char) := do
  let (whole, cs) ← whole? cs
  let (fraction, cs) ← fraction? cs
  let (exponent, cs) ← exponent? cs
  return (whole ++ fraction ++ exponent, cs)

/-- The literal of a number. -/
def numberLiteral? : List Char → Option (List Char × List Char)
  | '-' :: rest => (unsigned? rest).map fun (literal, rest) => ('-' :: literal, rest)
  | cs => unsigned? cs

mutual

/-- The document that a text without leading blanks starts with, and the text behind it. -/
def value? : (fuel : Nat) → List Char → Option (Json × List Char)
  | 0, _ => none
  | _ + 1, 'n' :: 'u' :: 'l' :: 'l' :: rest => some (.null, rest)
  | _ + 1, 't' :: 'r' :: 'u' :: 'e' :: rest => some (.bool true, rest)
  | _ + 1, 'f' :: 'a' :: 'l' :: 's' :: 'e' :: rest => some (.bool false, rest)
  | _ + 1, '"' :: rest => (stringLexeme? rest).map fun (lexeme, rest) => (.string lexeme, rest)
  | fuel + 1, '[' :: rest =>
    match skipBlanks rest with
    | ']' :: rest => some (.array [], rest)
    | rest => (items? fuel rest).map fun (items, rest) => (.array items, rest)
  | fuel + 1, '{' :: rest =>
    match skipBlanks rest with
    | '}' :: rest => some (.object [], rest)
    | rest => (members? fuel rest).map fun (members, rest) => (.object members, rest)
  | _ + 1, cs => (numberLiteral? cs).map fun (literal, rest) => (.number literal, rest)

/-- The items of an array up to its closing bracket. -/
def items? : (fuel : Nat) → List Char → Option (List Json × List Char)
  | 0, _ => none
  | fuel + 1, cs => do
    let (x, rest) ← value? fuel cs
    match skipBlanks rest with
    | ',' :: rest =>
      let (more, rest) ← items? fuel (skipBlanks rest)
      return (x :: more, rest)
    | ']' :: rest => return ([x], rest)
    | _ => none

/-- The members of an object up to its closing brace. -/
def members? : (fuel : Nat) → List Char → Option (List (List Char × Json) × List Char)
  | 0, _ => none
  | fuel + 1, cs => do
    match cs with
    | '"' :: rest =>
      let (name, rest) ← stringLexeme? rest
      match skipBlanks rest with
      | ':' :: rest =>
        let (x, rest) ← value? fuel (skipBlanks rest)
        match skipBlanks rest with
        | ',' :: rest =>
          let (more, rest) ← members? fuel (skipBlanks rest)
          return ((name, x) :: more, rest)
        | '}' :: rest => return ([(name, x)], rest)
        | _ => none
      | _ => none
    | _ => none

end

/-- The document that some characters spell, among which undecodable bytes may be marked. -/
def document? (cs : List Char) : Option Json := do
  let cs := skipBlanks cs
  let (document, rest) ← value? (2 * cs.length + 2) cs
  match skipBlanks rest with
  | [] => return document
  | _ => none

/-- The document that a text holds. -/
def parse? (text : String) : Option Json :=
  if undecodable ∈ text.toList then none else document? text.toList

end ScriptVm.Json
