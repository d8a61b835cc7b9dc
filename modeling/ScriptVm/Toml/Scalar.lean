import ScriptVm.Decimal.Reading
import ScriptVm.Json
import ScriptVm.Toml

/-!
# Scalars of TOML

Strings in their four forms, numbers, booleans and moments.  A string function
starts behind the opening quotes and answers with the content and the text behind
the closing ones.  Everything else is a word, taken as the longest run of the
characters that words are made of and then judged as a whole.
-/

namespace ScriptVm.Toml

/-- Whether a character may stand in a string or a comment as it is: no control character but the
tabulator. -/
def isPlain (c : Char) : Bool :=
  c = '\t' || (0x20 ≤ c.toNat && c.toNat != 0x7f)

/-- Whether a character is a blank within a line. -/
def isBlank (c : Char) : Bool :=
  c = ' ' || c = '\t'

/-! ### Strings -/

/-- A character in front of what a string function answers. -/
def emit (c : Char) (r : Option (List Char × List Char)) : Option (List Char × List Char) :=
  r.map fun (content, rest) => (c :: content, rest)

/-- The character that hexadecimal digits name. -/
def scalar? (digits : List Char) : Option Char := do
  let n ← digits.foldlM (fun n c => (Json.hexDigit? c).map (16 * n + ·)) 0
  if n.isValidChar then some (Char.ofNat n) else none

/-- The character that an escape of one letter stands for. -/
def shortEscape? : Char → Option Char
  | 'b' => some '\x08'
  | 't' => some '\t'
  | 'n' => some '\n'
  | 'f' => some '\x0c'
  | 'r' => some '\r'
  | '"' => some '"'
  | '\\' => some '\\'
  | _ => none

/-- Whether nothing but blanks is left of the line. -/
def endsLine (cs : List Char) : Bool :=
  match cs.dropWhile isBlank with
  | '\n' :: _ => true
  | '\r' :: '\n' :: _ => true
  | _ => false

/-- The content of a string with escapes, on one line or on several.  Behind a backslash at the end
of a line all blanks and line ends are skipped.  Up to two quotes may stand before the closing
three. -/
def escaped? (several skipping : Bool) : List Char → Option (List Char × List Char)
  | [] => none
  | '\\' :: 'u' :: a :: b :: c :: d :: rest => do
    emit (← scalar? [a, b, c, d]) (escaped? several false rest)
  | '\\' :: 'U' :: a :: b :: c :: d :: e :: f :: g :: h :: rest => do
    emit (← scalar? [a, b, c, d, e, f, g, h]) (escaped? several false rest)
  | '\\' :: c :: rest =>
    match shortEscape? c with
    | some x => emit x (escaped? several false rest)
    | none => if several && endsLine (c :: rest) then escaped? several true (c :: rest) else none
  | '"' :: rest =>
    if several then
      match rest with
      | '"' :: '"' :: '"' :: '"' :: rest => some (['"', '"'], rest)
      | '"' :: '"' :: '"' :: rest => some (['"'], rest)
      | '"' :: '"' :: rest => some ([], rest)
      | rest => emit '"' (escaped? several false rest)
    else some ([], rest)
  | '\r' :: '\n' :: rest =>
    if !several then none
    else if skipping then escaped? several true rest
    else emit '\n' (escaped? several false rest)
  | c :: rest =>
    if skipping && (isBlank c || c = '\n') then escaped? several true rest
    else if (several && c = '\n') || (isPlain c && c != '\\') then
      emit c (escaped? several false rest)
    else none

/-- The content of a string without escapes, on one line or on several. -/
def literal? (several : Bool) : List Char → Option (List Char × List Char)
  | [] => none
  | '\'' :: rest =>
    if several then
      match rest with
      | '\'' :: '\'' :: '\'' :: '\'' :: rest => some (['\'', '\''], rest)
      | '\'' :: '\'' :: '\'' :: rest => some (['\''], rest)
      | '\'' :: '\'' :: rest => some ([], rest)
      | rest => emit '\'' (literal? several rest)
    else some ([], rest)
  | '\r' :: '\n' :: rest => if several then emit '\n' (literal? several rest) else none
  | c :: rest =>
    if (several && c = '\n') || isPlain c then emit c (literal? several rest) else none

/-- The text behind a line end right after opening quotes. -/
def skipFirstLine : List Char → List Char
  | '\n' :: rest => rest
  | '\r' :: '\n' :: rest => rest
  | cs => cs

/-- The characters of a string, from its opening quotes on. -/
def content? : List Char → Option (List Char × List Char)
  | '"' :: '"' :: '"' :: rest => escaped? true false (skipFirstLine rest)
  | '"' :: rest => escaped? false false rest
  | '\'' :: '\'' :: '\'' :: rest => literal? true (skipFirstLine rest)
  | '\'' :: rest => literal? false rest
  | _ => none

/-- A string of any form, from its opening quotes on. -/
def string? (cs : List Char) : Option (String × List Char) :=
  (content? cs).map fun (content, rest) => (String.ofList content, rest)

/-! ### Words -/

/-- Whether a character may stand in a word. -/
def isWordChar (c : Char) : Bool :=
  c.isAlphanum || c = '+' || c = '-' || c = '_' || c = '.' || c = ':'

/-- Digits without the underscores between them; an underscore has to stand between digits. -/
def ungroup? (isDigit : Char → Bool) (cs : List Char) : Option (List Char) :=
  let groups := (String.ofList cs).splitOn "_"
  if groups.all fun g => !g.isEmpty && g.toList.all isDigit then
    some (groups.flatMap String.toList)
  else none

/-- The digits of a whole number; only zero itself starts with a zero. -/
def whole? (cs : List Char) : Option (List Char) :=
  (ungroup? Char.isDigit cs).filter fun digits => digits.length = 1 ∨ digits.head? ≠ some '0'

/-- A number in a base of two, eight or sixteen, behind its mark. -/
def based? (base : Nat) (cs : List Char) : Option Int := do
  let isDigit (c : Char) : Bool := (Json.hexDigit? c).any (· < base)
  let digits ← ungroup? isDigit cs
  return digits.foldl (fun n c => base * n + (Json.hexDigit? c).getD 0) 0

/-- An integer. -/
def integer? (cs : List Char) : Option Int :=
  let n := match cs with
    | '0' :: 'x' :: rest => based? 16 rest
    | '0' :: 'o' :: rest => based? 8 rest
    | '0' :: 'b' :: rest => based? 2 rest
    | cs =>
      let (negative, rest) := Decimal.sign cs
      (whole? rest).map fun digits =>
        if negative then -(Decimal.ofDigits digits : Int) else Decimal.ofDigits digits
  n.filter Decimal.inInt64

/-- A fraction and the text behind it; the digits are none if there is no fraction. -/
def fraction? : List Char → Option (List Char × List Char)
  | '.' :: rest => do
    let inside (c : Char) : Bool := c.isDigit || c = '_'
    let digits ← ungroup? Char.isDigit (rest.takeWhile inside)
    return (digits, rest.dropWhile inside)
  | cs => some ([], cs)

/-- An exponent at the end of a number; zero if there is none. -/
def exponent? : List Char → Option Int
  | [] => some 0
  | c :: rest =>
    if c = 'e' ∨ c = 'E' then
      let (negative, digits) := Decimal.sign rest
      (ungroup? Char.isDigit digits).map fun digits =>
        if negative then -(Decimal.ofDigits digits : Int) else Decimal.ofDigits digits
    else none

/-- A float: it has a fraction or an exponent.  One that is too large to be finite is refused unless
it is negative. -/
def float? (cs : List Char) : Option Float := do
  let (negative, rest) := Decimal.sign cs
  match rest with
  | ['i', 'n', 'f'] => return if negative then -1.0 / 0.0 else 1.0 / 0.0
  | ['n', 'a', 'n'] => return 0.0 / 0.0
  | _ =>
    let inside (c : Char) : Bool := c.isDigit || c = '_'
    let whole ← whole? (rest.takeWhile inside)
    let tail := rest.dropWhile inside
    if tail.isEmpty then none
    let (fraction, rest) ← fraction? tail
    let e ← exponent? rest
    let x := Decimal.nearest negative (Decimal.ofDigits (whole ++ fraction)) (e - fraction.length)
    if x == 1.0 / 0.0 then none else some x

/-! ### Moments -/

/-- The number of two digits, if it lies in a range. -/
def twoDigits? (least greatest : Nat) (a b : Char) : Option Nat :=
  (Decimal.natural? [a, b]).filter fun n => least ≤ n ∧ n ≤ greatest

/-- How many days a month has. -/
def daysIn (year month : Nat) : Nat :=
  if month = 2 then
    if year % 4 = 0 ∧ (year % 100 ≠ 0 ∨ year % 400 = 0) then 29 else 28
  else if month ∈ [4, 6, 9, 11] then 30 else 31

/-- The text behind a date. -/
def date? : List Char → Option (List Char)
  | a :: b :: c :: d :: '-' :: e :: f :: '-' :: g :: h :: rest => do
    let year ← Decimal.natural? [a, b, c, d]
    let month ← twoDigits? 1 12 e f
    let _ ← twoDigits? 1 (daysIn year month) g h
    return rest
  | _ => none

/-- The text behind a time of day. -/
def time? : List Char → Option (List Char)
  | a :: b :: ':' :: c :: d :: ':' :: e :: f :: rest => do
    let _ ← twoDigits? 0 23 a b
    let _ ← twoDigits? 0 59 c d
    let _ ← twoDigits? 0 60 e f
    match rest with
    | '.' :: rest =>
      if (rest.takeWhile Char.isDigit).isEmpty then none else some (rest.dropWhile Char.isDigit)
    | rest => some rest
  | _ => none

/-- Whether a text is the offset of a time of day, or empty. -/
def isOffset : List Char → Bool
  | [] | ['Z'] | ['z'] => true
  | [sign, a, b, ':', c, d] =>
    (sign = '+' || sign = '-') && (twoDigits? 0 23 a b).isSome && (twoDigits? 0 59 c d).isSome
  | _ => false

/-- Whether a text is a time of day with or without an offset. -/
def isOffsetTime (cs : List Char) : Bool :=
  (time? cs).any isOffset

/-- Whether a word is a moment. -/
def isMoment (cs : List Char) : Bool :=
  match date? cs with
  | some [] => true
  | some (mark :: rest) => (mark = 'T' || mark = 't') && isOffsetTime rest
  | none => time? cs = some []

/-- Whether a text of its own is a moment; a blank may stand before the time of day. -/
def isMomentText (cs : List Char) : Bool :=
  match date? cs with
  | some (' ' :: rest) => isOffsetTime rest
  | _ => isMoment cs

/-- The value of a word. -/
def word? (cs : List Char) : Option Toml :=
  if cs = "true".toList then some (.boolean true)
  else if cs = "false".toList then some (.boolean false)
  else if isMoment cs then some .moment
  else match integer? cs with
    | some n => some (.integer n)
    | none => (float? cs).map fun x => .float x.toBits

/-- The value of the word a text starts with, and the text behind it.  A date may be followed by a
blank and a time of day. -/
def scalarWord? (cs : List Char) : Option (Toml × List Char) :=
  let first := cs.takeWhile isWordChar
  let rest := cs.dropWhile isWordChar
  match date? first, rest with
  | some [], ' ' :: more =>
    if isOffsetTime (more.takeWhile isWordChar) then some (.moment, more.dropWhile isWordChar)
    else some (.moment, rest)
  | _, _ => (word? first).map fun x => (x, rest)

end ScriptVm.Toml
