/-!
# Sets of characters

A set of characters is given by the code points at which membership changes, in
ascending order.  A run of members starts at the first of them and ends before
the second, the next run starts at the third, and so on.
-/

namespace ScriptVm.Text

/-- A set of characters. -/
structure CharSet where
  /-- The code points at which membership changes, in ascending order. -/
  changes : List Nat
  deriving DecidableEq, Repr

namespace CharSet

/-- Whether an odd number of changes lies at or before a code point. -/
def inside : List Nat → Nat → Bool
  | [], _ => false
  | change :: rest, n => decide (change ≤ n) && !inside rest n

/-- Whether a character is in the set. -/
def contains (s : CharSet) (c : Char) : Bool :=
  inside s.changes c.toNat

end CharSet

end ScriptVm.Text
