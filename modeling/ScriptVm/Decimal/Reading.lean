/-!
# Reading decimals

A decimal literal is a sign, digits with a point somewhere, and an exponent of
ten.  Its value is rounded to the nearest float.  Exponents far outside the range
of floats are decided before any power of ten is formed.
-/

namespace ScriptVm.Decimal

/-- The number that decimal digits spell; every other character counts as nothing. -/
def ofDigits (digits : List Char) : Nat :=
  digits.foldl (fun n c => if c.isDigit then 10 * n + (c.toNat - '0'.toNat) else n) 0

/-- A sign and the text behind it: whether the number is negative. -/
def sign : List Char → Bool × List Char
  | '-' :: rest => (true, rest)
  | '+' :: rest => (false, rest)
  | cs => (false, cs)

/-- Digits, one at least, and nothing else. -/
def natural? (cs : List Char) : Option Nat :=
  if cs ≠ [] ∧ cs.all Char.isDigit then some (ofDigits cs) else none

/-- Digits with an optional sign. -/
def integer? (cs : List Char) : Option Int :=
  let (negative, rest) := sign cs
  (natural? rest).map fun n => if negative then -(n : Int) else n

/-- Whether a number is an integer of 64 bits. -/
def inInt64 (n : Int) : Bool :=
  Int64.minValue.toInt ≤ n && n ≤ Int64.maxValue.toInt

/-- The float nearest to `mantissa · 10 ^ exponent`, negated if asked. -/
def nearest (negative : Bool) (mantissa : Nat) (exponent : Int) : Float :=
  let size := (Nat.toDigits 10 mantissa).length + exponent
  let x : Float :=
    if mantissa = 0 ∨ size < -400 then 0
    else if 400 < size then 1.0 / 0.0
    else if 0 ≤ exponent then Float.ofScientific mantissa false exponent.toNat
    else Float.ofScientific mantissa true (-exponent).toNat
  if negative then -x else x

/-- The exponent at the end of a literal, `none` if its mark is not followed by an integer. -/
def exponent? : List Char → Option Int
  | [] => some 0
  | c :: rest => if c = 'e' ∨ c = 'E' then integer? rest else none

/-- A float literal: digits with an optional point, at least one digit in all, and an optional
exponent. -/
def unsigned? (negative : Bool) (cs : List Char) : Option Float := do
  let whole := cs.takeWhile Char.isDigit
  let rest := cs.dropWhile Char.isDigit
  let (fraction, rest) := match rest with
    | '.' :: rest => (rest.takeWhile Char.isDigit, rest.dropWhile Char.isDigit)
    | rest => ([], rest)
  if whole.isEmpty ∧ fraction.isEmpty then none
  else
    let e ← exponent? rest
    return nearest negative (ofDigits (whole ++ fraction)) (e - fraction.length)

/-- A float literal with an optional sign; infinity and the undefined value may be given by name in
any case. -/
def float? (cs : List Char) : Option Float :=
  let (negative, rest) := sign cs
  let name := String.ofList (rest.map Char.toLower)
  if name = "inf" ∨ name = "infinity" then
    some (if negative then -1.0 / 0.0 else 1.0 / 0.0)
  else if name = "nan" then some (0.0 / 0.0)
  else unsigned? negative rest

end ScriptVm.Decimal
