import ScriptVm.Config.Setting
import ScriptVm.Json
import ScriptVm.Text.Identifier

/-!
# Settings from JSON5 files

JSON with comments, names without quotes, texts between single quotes, a comma
behind the last item, and more ways to write numbers.  An integer has to fit 64
bits, a hexadecimal one 32, and a float has to be finite unless it is infinite or
undefined by name.
-/

namespace ScriptVm.Config.Json5

/-! ### White space and comments -/

/-- Whether a character ends a line. -/
def endsLine (c : Char) : Bool :=
  c = '\n' || c = '\r' || c = '\u2028' || c = '\u2029'

/-- Whether a character is white space. -/
def isWhite (c : Char) : Bool :=
  let n := c.toNat
  endsLine c || n = 0x09 || n = 0x0b || n = 0x0c || n = 0x20 || n = 0xa0 || n = 0xfeff || n = 0x1680
    || (0x2000 ≤ n && n ≤ 0x200a) || n = 0x202f || n = 0x205f || n = 0x3000

/-- The text behind the end of a comment between marks, if it has an end. -/
def behindComment? : List Char → Option (List Char)
  | '*' :: '/' :: rest => some rest
  | _ :: rest => behindComment? rest
  | [] => none

/-- The text behind white space and comments. -/
def skip : (fuel : Nat) → List Char → List Char
  | 0, cs => cs
  | fuel + 1, cs =>
    match cs.dropWhile isWhite with
    | '/' :: '/' :: rest => skip fuel (rest.dropWhile fun c => !endsLine c)
    | '/' :: '*' :: rest =>
      match behindComment? rest with
      | some rest => skip fuel rest
      | none => '/' :: '*' :: rest
    | cs => cs

/-- The text behind all white space and comments. -/
def skipBlanks (cs : List Char) : List Char :=
  skip cs.length cs

/-! ### Texts -/

/-- The character that an escape of one letter stands for; a digit other than zero is no escape. -/
def escaped? (c : Char) : Option Char :=
  if c = '0' then some '\x00'
  else if c.isDigit then none
  else if c = 'b' then some '\x08'
  else if c = 'f' then some '\x0c'
  else if c = 'n' then some '\n'
  else if c = 'r' then some '\r'
  else if c = 't' then some '\t'
  else if c = 'v' then some '\x0b'
  else some c

/-- A piece in front of those that were read. -/
def emit (piece : Json.Piece) (r : Option (List Json.Piece × List Char)) :
    Option (List Json.Piece × List Char) :=
  r.map fun (pieces, rest) => (piece :: pieces, rest)

/-- The pieces of a text up to its closing quote, and the text behind it.  A backslash at the end of
a line joins it to the next one. -/
def quoted? (quote : Char) : List Char → Option (List Json.Piece × List Char)
  | [] => none
  | '\\' :: 'u' :: a :: b :: c :: d :: rest => do
    emit (.unit (← Json.hexUnit? a b c d)) (quoted? quote rest)
  | '\\' :: 'x' :: a :: b :: rest => do
    emit (.unit (← Json.hexUnit? '0' '0' a b)) (quoted? quote rest)
  | '\\' :: '\r' :: '\n' :: rest => quoted? quote rest
  | '\\' :: c :: rest =>
    if endsLine c then quoted? quote rest
    else if c = 'u' ∨ c = 'x' then none
    else do
      emit (.char (← escaped? c)) (quoted? quote rest)
  | c :: rest =>
    if c = quote then some ([], rest)
    else if c = '\\' ∨ endsLine c then none
    else emit (.char c) (quoted? quote rest)

/-- The pieces of a name without quotes, and the text behind it. -/
def bare : (start : Bool) → List Char → Option (List Json.Piece × List Char)
  | _, '\\' :: 'u' :: a :: b :: c :: d :: rest => do
    emit (.unit (← Json.hexUnit? a b c d)) (bare false rest)
  | start, c :: rest =>
    if Text.isLetter c || c = '$' || c = '_'
        || (!start && (Text.isContinuation c || c = '\u200c' || c = '\u200d')) then
      emit (.char c) (bare false rest)
    else if start then none else some ([], c :: rest)
  | start, [] => if start then none else some ([], [])

/-- The text of pieces. -/
def textOf? (pieces : List Json.Piece) : Option String :=
  (Json.joinPieces pieces).map String.ofList

/-- The name of a member, and the text behind it. -/
def name? (cs : List Char) : Option (String × List Char) := do
  let (pieces, rest) ← match cs with
    | '"' :: rest => quoted? '"' rest
    | '\'' :: rest => quoted? '\'' rest
    | cs => bare true cs
  return (← textOf? pieces, rest)

/-! ### Numbers -/

/-- Whether a character is a hexadecimal digit. -/
def isHex (c : Char) : Bool :=
  (Json.hexDigit? c).isSome

/-- The exponent at the start of a text, if there is one, and the text behind it. -/
def exponent (cs : List Char) : List Char × List Char :=
  match cs with
  | c :: rest =>
    if c = 'e' ∨ c = 'E' then
      let sign := rest.takeWhile fun c => c = '+' || c = '-'
      let digits := rest.dropWhile fun c => c = '+' || c = '-'
      if 1 < sign.length ∨ (digits.takeWhile Char.isDigit).isEmpty then ([], cs)
      else (c :: sign ++ digits.takeWhile Char.isDigit, digits.dropWhile Char.isDigit)
    else ([], cs)
  | [] => ([], [])

/-- The digits before the point: a zero, or digits that do not start with one. -/
def whole : List Char → List Char × List Char
  | '0' :: rest => (['0'], rest)
  | cs => (cs.takeWhile Char.isDigit, cs.dropWhile Char.isDigit)

/-- The literal of a decimal number, and the text behind it. -/
def decimal? (cs : List Char) : Option (List Char × List Char) :=
  let (before, rest) := whole cs
  match rest with
  | '.' :: rest =>
    let behind := rest.takeWhile Char.isDigit
    let (e, rest) := exponent (rest.dropWhile Char.isDigit)
    if before.isEmpty ∧ behind.isEmpty then none else some (before ++ '.' :: behind ++ e, rest)
  | rest =>
    let (e, rest) := exponent rest
    if before.isEmpty then none else some (before ++ e, rest)

/-- The literal of a number without its sign, and the text behind it. -/
def unsigned? (cs : List Char) : Option (List Char × List Char) :=
  match cs with
  | '0' :: x :: rest =>
    if (x = 'x' ∨ x = 'X') ∧ rest.head?.any isHex then
      some ('0' :: x :: rest.takeWhile isHex, rest.dropWhile isHex)
    else decimal? cs
  | 'I' :: 'n' :: 'f' :: 'i' :: 'n' :: 'i' :: 't' :: 'y' :: rest =>
    some ("Infinity".toList, rest)
  | 'N' :: 'a' :: 'N' :: rest => some ("NaN".toList, rest)
  | cs => decimal? cs

/-- The literal of a number, and the text behind it. -/
def number? : List Char → Option (List Char × List Char)
  | '+' :: rest => (unsigned? rest).map fun (literal, rest) => ('+' :: literal, rest)
  | '-' :: rest => (unsigned? rest).map fun (literal, rest) => ('-' :: literal, rest)
  | cs => unsigned? cs

/-- The hexadecimal number of some digits, if it fits 32 bits. -/
def hexadecimal? (digits : List Char) : Option Setting :=
  let n := digits.foldl (fun n c => 16 * n + (Json.hexDigit? c).getD 0) 0
  if n < UInt32.size then some (.integer n) else none

/-- The setting of a number.  A hexadecimal number and the names of numbers that are not finite
cannot have a plus sign. -/
def ofLiteral? (literal : List Char) : Option Setting :=
  match literal with
  | '0' :: 'x' :: digits => hexadecimal? digits
  | '0' :: 'X' :: digits => hexadecimal? digits
  | _ =>
    let name := String.ofList literal
    if name = "Infinity" then some (.float (1.0 / 0.0 : Float).toBits)
    else if name = "-Infinity" then some (.float (-1.0 / 0.0 : Float).toBits)
    else if name = "NaN" ∨ name = "-NaN" then some (.float (0.0 / 0.0 : Float).toBits)
    else if literal.any fun c => c = '.' || c = 'e' || c = 'E' then
      ((Decimal.float? literal).filter Float.isFinite).map fun x => .float x.toBits
    else ((Decimal.integer? literal).filter Decimal.inInt64).map .integer

/-! ### Documents -/

mutual

/-- The setting that a text starts with, and the text behind it. -/
def value? : (fuel : Nat) → List Char → Option (Setting × List Char)
  | 0, _ => none
  | _ + 1, 'n' :: 'u' :: 'l' :: 'l' :: rest => some (.null, rest)
  | _ + 1, 't' :: 'r' :: 'u' :: 'e' :: rest => some (.boolean true, rest)
  | _ + 1, 'f' :: 'a' :: 'l' :: 's' :: 'e' :: rest => some (.boolean false, rest)
  | _ + 1, '"' :: rest => do
    let (pieces, rest) ← quoted? '"' rest
    return (.text (← textOf? pieces), rest)
  | _ + 1, '\'' :: rest => do
    let (pieces, rest) ← quoted? '\'' rest
    return (.text (← textOf? pieces), rest)
  | fuel + 1, '[' :: rest =>
    match skipBlanks rest with
    | ']' :: rest => some (.ofList [], rest)
    | rest => (items? fuel rest).map fun (items, rest) => (.ofList items, rest)
  | fuel + 1, '{' :: rest =>
    match skipBlanks rest with
    | '}' :: rest => some (.group [], rest)
    | rest => (members? fuel rest).map fun (members, rest) => (.group members.unique, rest)
  | _ + 1, cs => do
    let (literal, rest) ← number? cs
    return (← ofLiteral? literal, rest)

/-- The items of an array up to its closing bracket. -/
def items? : (fuel : Nat) → List Char → Option (List Setting × List Char)
  | 0, _ => none
  | fuel + 1, cs => do
    let (x, rest) ← value? fuel cs
    match skipBlanks rest with
    | ']' :: rest => return ([x], rest)
    | ',' :: rest =>
      match skipBlanks rest with
      | ']' :: rest => return ([x], rest)
      | rest =>
        let (more, rest) ← items? fuel rest
        return (x :: more, rest)
    | _ => none

/-- The members of an object up to its closing brace. -/
def members? : (fuel : Nat) → List Char → Option (Members × List Char)
  | 0, _ => none
  | fuel + 1, cs => do
    let (name, rest) ← name? cs
    match skipBlanks rest with
    | ':' :: rest =>
      let (x, rest) ← value? fuel (skipBlanks rest)
      match skipBlanks rest with
      | '}' :: rest => return ([(name, x)], rest)
      | ',' :: rest =>
        match skipBlanks rest with
        | '}' :: rest => return ([(name, x)], rest)
        | rest =>
          let (more, rest) ← members? fuel rest
          return ((name, x) :: more, rest)
      | _ => none
    | _ => none

end

/-- The setting that a text holds. -/
def parse? (text : String) : Option Setting := do
  let cs := text.toList
  let (x, rest) ← value? (2 * cs.length + 2) (skipBlanks cs)
  match skipBlanks rest with
  | [] => return x
  | _ => none

end ScriptVm.Config.Json5
