import ScriptVm.Decimal.Reading
import ScriptVm.Json

/-!
# Numbers of JSON as floats

A number is read into a significand of 64 bits and a power of ten.  Digits before
the point that no longer fit the significand only raise the exponent, and digits
behind the point that no longer fit are dropped.  The significand, as a float, is
then multiplied or divided by the power of ten, so that the result is not always
the nearest float.

A number has to be finite.  An exponent that does not fit 32 bits is taken as far
out of range as it can be.
-/

namespace ScriptVm.Json

/-- Whether a digit no longer fits behind a significand. -/
def overflows (significand digit : Nat) : Bool :=
  UInt64.size ≤ 10 * significand + digit

/-- The value of a digit. -/
def digit (c : Char) : Nat :=
  c.toNat - '0'.toNat

/-- A significand with as many digits behind it as fit, and how many do not. -/
def gather (significand : Nat) : List Char → Nat × Nat
  | [] => (significand, 0)
  | c :: rest =>
    if overflows significand (digit c) then (significand, rest.length + 1)
    else gather (10 * significand + digit c) rest

/-- A power of ten as a float. -/
def tenTo (n : Nat) : Float :=
  Float.ofScientific 1 false n

/-- The largest exponent of a power of ten that is a float. -/
def largestExponent : Nat := 308

/-- A significand times a power of ten; none if that is not finite. -/
def scale? (significand : Nat) (exponent : Int) : Option Float :=
  let x := (UInt64.ofNat significand).toFloat
  if significand = 0 then some x
  else if largestExponent < exponent then none
  else if 0 ≤ exponent then some (x * tenTo exponent.toNat) |>.filter Float.isFinite
  else if -exponent ≤ largestExponent then some (x / tenTo (-exponent).toNat)
  else if -exponent ≤ 2 * largestExponent then
    some (x / tenTo largestExponent / tenTo ((-exponent).toNat - largestExponent))
  else some 0

/-- The parts of a literal without its sign: the digits before the point, those behind it, and the
exponent with its sign. -/
def parts (literal : List Char) : List Char × List Char × List Char :=
  let whole := literal.takeWhile Char.isDigit
  let rest := literal.dropWhile Char.isDigit
  match rest with
  | '.' :: rest => (whole, rest.takeWhile Char.isDigit, (rest.dropWhile Char.isDigit).drop 1)
  | rest => (whole, [], rest.drop 1)

/-- The bound of an exponent. -/
def exponentBound : Nat := 0x80000000

/-- The float of a literal without its sign. -/
def unsignedFloat? (literal : List Char) : Option Float :=
  let (whole, fraction, exponent) := parts literal
  let (significand, beyond) := gather 0 whole
  let (significand, dropped) := gather significand fraction
  let start := (beyond : Int) - (fraction.length - dropped : Nat)
  let (negative, digits) := Decimal.sign exponent
  let n := ofDigits digits
  if n < exponentBound then scale? significand (if negative then start - n else start + n)
  else if significand = 0 ∨ negative then some 0
  else none

/-- The float of a literal. -/
def float? : List Char → Option Float
  | '-' :: rest => (unsignedFloat? rest).map fun x => -x
  | literal => unsignedFloat? literal

end ScriptVm.Json
