import ScriptVm.Config.Setting
import ScriptVm.Json

/-!
# Settings from RON files

A notation in which a record is a list of named fields in parentheses, with an
optional name in front, beside lists in brackets and maps in braces.  A bare name
holds nothing, and an optional value counts as what it holds.  Comments may be
nested, a comma may stand behind the last item, and attributes may stand at the
start of the file.
-/

namespace ScriptVm.Config.Ron

/-! ### White space and comments -/

/-- Whether a character is white space. -/
def isWhite (c : Char) : Bool :=
  c = ' ' || c = '\t' || c = '\n' || c = '\r'

/-- The text behind so many open comments. -/
def behindComments? : (level : Nat) → List Char → Option (List Char)
  | 0, cs => some cs
  | level + 1, '/' :: '*' :: rest => behindComments? (level + 2) rest
  | level + 1, '*' :: '/' :: rest => behindComments? level rest
  | level + 1, _ :: rest => behindComments? (level + 1) rest
  | _ + 1, [] => none

/-- The text behind white space and comments; a slash that starts no comment cannot stand there. -/
def skip? : (fuel : Nat) → List Char → Option (List Char)
  | 0, cs => some cs
  | fuel + 1, cs =>
    match cs.dropWhile isWhite with
    | '/' :: '/' :: rest => skip? fuel (rest.dropWhile (· ≠ '\n'))
    | '/' :: '*' :: rest => (behindComments? 1 rest).bind (skip? fuel)
    | '/' :: _ => none
    | cs => some cs

/-- The text behind all white space and comments. -/
def skipBlanks? (cs : List Char) : Option (List Char) :=
  skip? (cs.length + 1) cs

/-- The text behind a mark and the blanks that follow it. -/
def behindMark? (mark : Char) : List Char → Option (List Char)
  | c :: rest => if c = mark then skipBlanks? rest else none
  | [] => none

/-- Whether there is a comma behind blanks, and the text behind it and further blanks. -/
def comma? (cs : List Char) : Option (Bool × List Char) := do
  let cs ← skipBlanks? cs
  match behindMark? ',' cs with
  | some rest => return (true, rest)
  | none => if cs.head? = some ',' then none else return (false, cs)

/-! ### Names -/

/-- Whether a name may start with a character. -/
def startsName (c : Char) : Bool :=
  c.isAlpha || c = '_'

/-- Whether a character may stand in a name. -/
def isNameChar (c : Char) : Bool :=
  startsName c || c.isDigit

/-- Whether a character may stand in a name that is marked as a name. -/
def isMarkedChar (c : Char) : Bool :=
  isNameChar c || c = '.' || c = '+' || c = '-'

/-- The text behind a word, if the word is there and does not go on. -/
def behindWord? (word : String) (cs : List Char) : Option (List Char) :=
  let rest := cs.drop word.length
  if word.toList = cs.take word.length ∧ !rest.head?.any isNameChar then some rest else none

/-- The characters of a name, which must not run into one that only a marked name may hold. -/
def bareName? (cs : List Char) : Option (String × List Char) :=
  let name := cs.takeWhile isNameChar
  let rest := cs.dropWhile isNameChar
  if rest.head?.any isMarkedChar then none else some (String.ofList name, rest)

/-- The name that a text starts with, and the text behind it. -/
def name? : List Char → Option (String × List Char)
  | ['r'] => none
  | 'r' :: '"' :: _ => none
  | 'r' :: '#' :: rest =>
    let name := rest.takeWhile isMarkedChar
    if name.isEmpty then none
    else some (String.ofList name, rest.dropWhile isMarkedChar)
  | c :: rest => if startsName c then bareName? (c :: rest) else none
  | [] => none

/-! ### Texts -/

/-- The number that up to six hexadecimal digits in braces spell, and the text behind the closing
brace. -/
def braced? : (left n : Nat) → List Char → Option (Nat × List Char)
  | left, n, c :: rest =>
    if c = '\x7d' then if left < 6 then some (n, rest) else none
    else
      match left, Json.hexDigit? c with
      | left + 1, some d => braced? left (16 * n + d) rest
      | _, _ => none
  | _, _, [] => none

/-- The character of an escape, from behind the backslash, and the text behind it. -/
def escape? : List Char → Option (Char × List Char)
  | 'n' :: rest => some ('\n', rest)
  | 'r' :: rest => some ('\r', rest)
  | 't' :: rest => some ('\t', rest)
  | '0' :: rest => some ('\x00', rest)
  | 'x' :: a :: b :: rest => do
    return (Char.ofNat (← Json.hexUnit? '0' '0' a b), rest)
  | 'u' :: '\x7b' :: rest => do
    let (n, rest) ← braced? 6 0 rest
    if n.isValidChar then return (Char.ofNat n, rest) else none
  | c :: rest => if c = '\'' ∨ c = '"' ∨ c = '\\' then some (c, rest) else none
  | [] => none

/-- The characters of a text up to its closing quote, and the text behind it. -/
def quoted? : (fuel : Nat) → List Char → Option (List Char × List Char)
  | 0, _ => none
  | _, [] => none
  | _, '"' :: rest => some ([], rest)
  | fuel + 1, '\\' :: rest => do
    let (c, rest) ← escape? rest
    let (text, rest) ← quoted? fuel rest
    return (c :: text, rest)
  | fuel + 1, c :: rest => do
    let (text, rest) ← quoted? fuel rest
    return (c :: text, rest)

/-- The characters up to a mark, and the text behind the mark. -/
def upTo? (mark : List Char) : List Char → Option (List Char × List Char)
  | [] => none
  | c :: rest =>
    if mark = (c :: rest).take mark.length then some ([], (c :: rest).drop mark.length)
    else (upTo? mark rest).map fun (text, rest) => (c :: text, rest)

/-- A text without escapes, between quotes with the same number of hashes around them. -/
def raw? (cs : List Char) : Option (List Char × List Char) :=
  let hashes := cs.takeWhile (· = '#')
  match cs.dropWhile (· = '#') with
  | '"' :: rest => upTo? ('"' :: hashes) rest
  | _ => none

/-- A single character, from behind its opening quote. -/
def char? : List Char → Option (Char × List Char)
  | '\\' :: rest => do
    match ← escape? rest with
    | (c, '\'' :: rest) => return (c, rest)
    | _ => none
  | c :: '\'' :: rest => if c = '\'' then none else some (c, rest)
  | _ => none

/-! ### Numbers -/

/-- Whether a character may stand in an integer. -/
def isIntegerChar (c : Char) : Bool :=
  (Json.hexDigit? c).isSome || c = '_'

/-- Whether a character may stand in a float. -/
def isFloatChar (c : Char) : Bool :=
  c.isDigit || c = 'e' || c = 'E' || c = '.' || c = '+' || c = '-' || c = '_'

/-- The base of an integer and its digits, from behind the sign. -/
def base : List Char → Nat × List Char
  | '0' :: 'x' :: rest => (16, rest)
  | '0' :: 'b' :: rest => (2, rest)
  | '0' :: 'o' :: rest => (8, rest)
  | cs => (10, cs)

/-- The number that digits spell in a base; underscores may stand between them. -/
def digits? (base : Nat) (run : List Char) : Option Nat := do
  if run.head?.all (· = '_') then none
  let digits ← (run.filter (· ≠ '_')).mapM Json.hexDigit?
  if digits.all (· < base) then
    return digits.foldl (fun n d => base * n + d) 0
  else none

/-- The setting of an integer: one with a sign has 64 bits with the sign, one without has 64 bits,
and what goes beyond the positive integers with a sign becomes a float. -/
def ofInteger? (signed negative : Bool) (n : Nat) : Option Setting :=
  let x : Int := if negative then -(n : Int) else n
  if Decimal.inInt64 x then some (.integer x)
  else if !signed && n < UInt64.size then some (.float (Float.ofNat n).toBits)
  else none

/-- The integer that a text starts with, and the text behind it. -/
def integer? (cs : List Char) : Option (Setting × List Char) := do
  let (negative, rest) := Decimal.sign cs
  let (base, rest) := base rest
  let n ← digits? base (rest.takeWhile isIntegerChar)
  let x ← ofInteger? (cs.head?.any fun c => c = '+' || c = '-') negative n
  return (x, rest.dropWhile isIntegerChar)

/-- The float that a text starts with, and the text behind it.  It has no underscores. -/
def float? (cs : List Char) : Option (Setting × List Char) := do
  let x ← Decimal.float? (cs.takeWhile isFloatChar)
  return (.float x.toBits, cs.dropWhile isFloatChar)

/-- The number that a text starts with, and the text behind it.  What can be no integer is read as a
float. -/
def number? (cs : List Char) : Option (Setting × List Char) :=
  match cs with
  | '.' :: _ => float? cs
  | c :: _ =>
    if c.isDigit || c = '+' || c = '-' then
      let (_, rest) := Decimal.sign cs
      if (rest.takeWhile isIntegerChar).length < (rest.takeWhile isFloatChar).length then float? cs
      else (integer? cs).or (float? cs)
    else none
  | [] => none

/-! ### Documents -/

/-- The settings that are written as words. -/
def words : List (String × Setting) :=
  [("true", .boolean true), ("false", .boolean false), ("None", .null),
    ("inf", .float (1.0 / 0.0 : Float).toBits), ("-inf", .float (-1.0 / 0.0 : Float).toBits),
    ("NaN", .float (0.0 / 0.0 : Float).toBits)]

/-- The word that a text starts with, as a setting, and the text behind it. -/
def word? (cs : List Char) : Option (Setting × List Char) :=
  words.findSome? fun (word, x) => (behindWord? word cs).map fun rest => (x, rest)

/-- Whether the parentheses that are open hold named fields. -/
def isRecord (cs : List Char) : Bool :=
  match (name? cs).bind fun (_, rest) => skipBlanks? rest with
  | some (':' :: _) => true
  | _ => false

mutual

/-- The setting that a text starts with, and the text behind it.  It holds others no deeper than
`depth`. -/
def value? : (fuel depth : Nat) → List Char → Option (Setting × List Char)
  | 0, _, _ => none
  | _ + 1, _, '(' :: ')' :: rest => some (.null, rest)
  | fuel + 1, depth, cs =>
    match word? cs with
    | some r => some r
    | none =>
      match behindWord? "Some" cs with
      | some rest => held? fuel depth rest
      | none =>
        match name? cs with
        | some (_, rest) => do
          match ← skipBlanks? rest with
          | '(' :: rest => fields? fuel depth rest
          | rest => return (.null, rest)
        | none =>
          match cs with
          | '(' :: rest => fields? fuel depth rest
          | '[' :: rest =>
            (items? fuel depth ']' true rest).map fun (items, rest) => (.ofList items, rest)
          | '\x7b' :: rest =>
            (entries? fuel depth true rest).map fun (members, rest) => (.group members.unique, rest)
          | '"' :: rest =>
            (quoted? (rest.length + 1) rest).map fun (text, rest) => (.text (.ofList text), rest)
          | 'r' :: rest => (raw? rest).map fun (text, rest) => (.text (.ofList text), rest)
          | '\'' :: rest => (char? rest).map fun (c, rest) => (.text c.toString, rest)
          | cs => number? cs

/-- A setting one level down. -/
def inner? : (fuel depth : Nat) → List Char → Option (Setting × List Char)
  | fuel + 1, depth + 1, cs => value? fuel depth cs
  | _, _, _ => none

/-- What an optional value holds, in parentheses. -/
def held? : (fuel depth : Nat) → List Char → Option (Setting × List Char)
  | 0, _, _ => none
  | fuel + 1, depth, cs => do
    let rest ← behindMark? '(' (← skipBlanks? cs)
    let (x, rest) ← inner? fuel depth rest
    match ← comma? rest with
    | (_, ')' :: rest) => return (x, rest)
    | _ => none

/-- The fields of a record, or the items of a tuple, up to the closing parenthesis. -/
def fields? : (fuel depth : Nat) → List Char → Option (Setting × List Char)
  | 0, _, _ => none
  | fuel + 1, depth, cs => do
    let cs ← skipBlanks? cs
    if isRecord cs then
      (members? fuel depth true cs).map fun (members, rest) => (.group members.unique, rest)
    else
      (items? fuel depth ')' true cs).map fun (items, rest) => (.ofList items, rest)

/-- The items up to a closing mark; `comma` says whether a further one may follow. -/
def items? : (fuel depth : Nat) → (close : Char) → (comma : Bool) → List Char →
    Option (List Setting × List Char)
  | 0, _, _, _, _ => none
  | fuel + 1, depth, close, comma, cs => do
    match ← skipBlanks? cs with
    | [] => none
    | c :: rest =>
      if c = close then return ([], rest)
      if !comma then none
      let (x, rest) ← inner? fuel depth (c :: rest)
      let (comma, rest) ← comma? rest
      let (more, rest) ← items? fuel depth close comma rest
      return (x :: more, rest)

/-- The setting behind a colon, whether a comma follows it, and the text behind. -/
def assigned? : (fuel depth : Nat) → List Char → Option (Setting × Bool × List Char)
  | 0, _, _ => none
  | fuel + 1, depth, cs => do
    let rest ← behindMark? ':' (← skipBlanks? cs)
    let (x, rest) ← inner? fuel depth rest
    return (x, ← comma? rest)

/-- The named fields up to the closing parenthesis. -/
def members? : (fuel depth : Nat) → (comma : Bool) → List Char → Option (Members × List Char)
  | 0, _, _, _ => none
  | fuel + 1, depth, comma, cs => do
    match ← skipBlanks? cs with
    | ')' :: rest => return ([], rest)
    | cs =>
      if !comma ∨ depth = 0 then none
      let (name, rest) ← name? cs
      let (x, comma, rest) ← assigned? fuel depth rest
      let (more, rest) ← members? fuel depth comma rest
      return ((name, x) :: more, rest)

/-- The entries of a map up to the closing brace.  A key is a text or a single character. -/
def entries? : (fuel depth : Nat) → (comma : Bool) → List Char → Option (Members × List Char)
  | 0, _, _, _ => none
  | fuel + 1, depth, comma, cs => do
    match ← skipBlanks? cs with
    | '\x7d' :: rest => return ([], rest)
    | cs =>
      if !comma ∨ (behindWord? "Some" cs).isSome then none
      match ← inner? fuel depth cs with
      | (.text name, rest) =>
        let (x, comma, rest) ← assigned? fuel depth rest
        let (more, rest) ← entries? fuel depth comma rest
        return ((name, x) :: more, rest)
      | _ => none

end

/-- The names of the extensions that an attribute may enable. -/
def extensions : List String :=
  ["unwrap_newtypes", "implicit_some", "unwrap_variant_newtypes"]

/-- The text behind the names of extensions. -/
def behindExtensions? : (fuel : Nat) → List Char → Option (List Char)
  | 0, _ => none
  | fuel + 1, cs => do
    let (name, rest) ← name? cs
    if !extensions.contains name then none
    match ← comma? rest with
    | (true, rest) => if rest.head?.any isNameChar then behindExtensions? fuel rest else return rest
    | (false, rest) => return rest

/-- The text behind the attributes at the start of a file. -/
def behindAttributes? : (fuel : Nat) → List Char → Option (List Char)
  | 0, _ => none
  | fuel + 1, '#' :: rest => do
    let rest ← behindMark? '[' (← behindMark? '!' (← skipBlanks? rest))
    if rest.take 6 ≠ "enable".toList then none
    let rest ← behindMark? '(' (← skipBlanks? (rest.drop 6))
    let rest ← behindExtensions? fuel rest
    behindAttributes? fuel (← behindMark? ']' (← behindMark? ')' rest))
  | _, cs => some cs

/-- How deeply settings may be nested. -/
def depthLimit : Nat := 128

/-- The setting that a text holds. -/
def parse? (text : String) : Option Setting := do
  let cs ← skipBlanks? text.toList
  let cs ← behindAttributes? (cs.length + 1) cs
  let (x, rest) ← value? (4 * cs.length + 4) depthLimit cs
  match ← skipBlanks? rest with
  | [] => return x
  | _ => none

end ScriptVm.Config.Ron
