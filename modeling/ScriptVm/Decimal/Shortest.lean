/-!
# The shortest decimal of a float

A finite float other than zero is `m · 2 ^ q` with natural `m` and integer `q`.
Every real number close enough to it rounds to it; those numbers are an
interval around it, whose ends belong to it exactly if `m` is even.  The
shortest decimal of the float is the one with the fewest digits in that
interval, and of two with the same number of digits the nearer one.  Of two
equally near ones it is the larger.

The search goes through the grids of decimals with one digit, two digits and so
on.  On each grid only the two neighbours of the float need to be tried: if any
point of the grid lies in the interval, one of the two does.  Seventeen digits
are always enough.  All comparisons are made on natural numbers.
-/

namespace ScriptVm.Decimal

/-- A positive float `m · 2 ^ q`, and whether the next smaller float is only half as far away as
the next larger one. -/
structure Binary where
  /-- The integral significand. -/
  m : Nat
  /-- The exponent of two. -/
  q : Int
  /-- Whether the gap below is half the gap above. -/
  narrowBelow : Bool
  deriving DecidableEq, Repr

/-- How many fractions a float can have: 52 bits. -/
def fractionSize : Nat := 0x10000000000000

/-- How many exponents a float can have: 11 bits. -/
def exponentSize : Nat := 0x800

/-- The significand and exponent that the bits of a finite float hold, its sign aside. -/
def Binary.ofBits (bits : UInt64) : Binary :=
  let fraction : Nat := bits.toNat % fractionSize
  let exponent : Nat := bits.toNat / fractionSize % exponentSize
  if exponent = 0 then ⟨fraction, -1074, false⟩
  else ⟨fractionSize + fraction, (exponent : Int) - 1075, fraction = 0 ∧ 1 < exponent⟩

/-- The decimal `0.d₁d₂… · 10 ^ point`, by its digits as one number. -/
structure Digits where
  /-- The digits read as a number. -/
  number : Nat
  /-- The position of the decimal point, counted from the first digit. -/
  point : Int
  deriving DecidableEq, Repr

/-- Two positive numbers whose quotient is `2 ^ e`. -/
def powerOfTwo (e : Int) : Nat × Nat :=
  if 0 ≤ e then (Nat.pow 2 e.toNat, 1) else (1, Nat.pow 2 (-e).toNat)

/-- Two positive numbers whose quotient is `10 ^ e`. -/
def powerOfTen (e : Int) : Nat × Nat :=
  if 0 ≤ e then (Nat.pow 10 e.toNat, 1) else (1, Nat.pow 10 (-e).toNat)

/-- A quarter of the float's unit, `2 ^ (q - 2)`, measured in units of `10 ^ grid`: a quotient of
two numbers. -/
def Binary.quarter (x : Binary) (grid : Int) : Nat × Nat :=
  let (twos, twosBelow) := powerOfTwo (x.q - 2)
  let (tens, tensBelow) := powerOfTen grid
  (twos * tensBelow, twosBelow * tens)

/-- Whether `c · 10 ^ grid` rounds to the float. -/
def Binary.rounds (x : Binary) (grid : Int) (c : Nat) : Bool :=
  let (a, b) := x.quarter grid
  let low := (4 * x.m - if x.narrowBelow then 1 else 2) * a
  let high := (4 * x.m + 2) * a
  let c := c * b
  if x.m % 2 = 0 then low ≤ c && c ≤ high else low < c && c < high

/-- The candidate on a grid: of the float's two neighbours those that round to it, the nearer one,
and the larger one of two equally near ones. -/
def Binary.candidate? (x : Binary) (grid : Int) : Option Nat :=
  let (a, b) := x.quarter grid
  let value := 4 * x.m * a
  let below := value / b
  let above := below + 1
  match x.rounds grid below, x.rounds grid above with
  | false, false => none
  | true, false => some below
  | false, true => some above
  | true, true => if value - below * b < above * b - value then some below else some above

/-- Whether the float is at least `10 ^ e`. -/
def Binary.atLeast (x : Binary) (e : Int) : Bool :=
  let (a, b) := x.quarter e
  b ≤ 4 * x.m * a

/-- The number of digits before the decimal point: the float lies from `10 ^ (k - 1)` up to, but
not including, `10 ^ k`.  An estimate from the binary logarithm is corrected by comparing. -/
def Binary.magnitude (x : Binary) : Int :=
  let estimate := ((x.m.log2 : Int) + x.q) * 30103 / 100000
  if x.atLeast (estimate + 1) then estimate + 2
  else if x.atLeast estimate then estimate + 1
  else estimate

/-- A number without its trailing zeros, at most `fuel` of them. -/
def stripZeros : (fuel : Nat) → Nat → Nat
  | 0, n => n
  | fuel + 1, n => if n ≠ 0 ∧ n % 10 = 0 then stripZeros fuel (n / 10) else n

/-- The digits of the candidate on the first of the grids that has one: the grids with `count`,
`count + 1`, … digits, `fuel` of them. -/
def Binary.search (x : Binary) (k : Int) (count : Nat) : (fuel : Nat) → Digits
  | 0 => ⟨0, 0⟩
  | fuel + 1 =>
    match x.candidate? (k - count) with
    | some c =>
      -- A candidate may be the next power of ten, one digit longer than its grid.
      ⟨stripZeros 20 c, if c = Nat.pow 10 count then k + 1 else k⟩
    | none => x.search k (count + 1) fuel

/-- The shortest decimal of a positive float. -/
def Binary.shortest (x : Binary) : Digits :=
  x.search x.magnitude 1 17

end ScriptVm.Decimal
