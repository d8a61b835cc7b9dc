import ScriptVm.Decimal.Shortest

/-!
# The text of a float

Floats are written with the digits of their shortest decimal: positionally, with
at least one digit behind the point, from `0.0001` up to but not including
`10 ^ 16`, and with an exponent otherwise.
-/

namespace ScriptVm.Decimal

/-- When and how the exponent is written. -/
structure Layout where
  /-- The least number of digits before the point of a number written positionally. -/
  leastPoint : Int
  /-- The greatest one. -/
  greatestPoint : Int

/-- From `0.0001` up to, but not including, `10 ^ 16`. -/
def layout : Layout := ⟨-3, 16⟩

/-- The decimal with its digits around the point. -/
def positional (digits : List Char) (point : Int) : List Char :=
  if point ≤ 0 then
    ['0', '.'] ++ List.replicate (-point).toNat '0' ++ digits
  else
    let whole := point.toNat
    if whole < digits.length then digits.take whole ++ '.' :: digits.drop whole
    else digits ++ List.replicate (whole - digits.length) '0' ++ ['.', '0']

/-- The decimal with one digit before the point and an exponent. -/
def scientific (digits : List Char) (point : Int) : List Char :=
  let mantissa := match digits with
    | first :: second :: rest => first :: '.' :: second :: rest
    | short => short
  mantissa ++ 'e' :: (toString (point - 1)).toList

/-- The text of a positive float. -/
def positiveText (x : Binary) : List Char :=
  let d := x.shortest
  let digits := Nat.toDigits 10 d.number
  if layout.leastPoint ≤ d.point ∧ d.point ≤ layout.greatestPoint then
    positional digits d.point
  else scientific digits d.point

/-- The text of a float, given by its bits. -/
def floatText (bits : UInt64) : String :=
  let negative := fractionSize * exponentSize ≤ bits.toNat
  let exponent : Nat := bits.toNat / fractionSize % exponentSize
  let fraction : Nat := bits.toNat % fractionSize
  let sign := if negative then "-" else ""
  if exponent = exponentSize - 1 then
    if fraction = 0 then sign ++ "inf" else "NaN"
  else if exponent = 0 ∧ fraction = 0 then sign ++ "0.0"
  else sign ++ String.ofList (positiveText (.ofBits bits))

end ScriptVm.Decimal
