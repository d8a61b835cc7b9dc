/-!
# Bucket counts

A table has one of a fixed sequence of primes as its bucket count.  When it is
full it grows to the first of them that is at least twice the present count,
and it stays at the last one for good.
-/

namespace ScriptVm.Table

/-- The bucket counts a table goes through, increasing. -/
def primes : List Nat := [
  3, 5, 7, 11, 17, 23, 29, 37, 47, 59, 71, 89, 107, 131, 163, 197, 239, 293, 353, 431, 521,
  631, 761, 919, 1103, 1327, 1597, 1931, 2333, 2801, 3371, 4049, 4861, 5839, 7013, 8419, 10103,
  12143, 14591, 17519, 21023, 25229, 30293, 36353, 43627, 52361, 62851, 75431, 90523, 108631,
  130363, 156437, 187751, 225307, 270371, 324449, 389357, 467237, 560689, 672827, 807403,
  968897, 1162687, 1395263, 1674319, 2009191, 2411033, 2893249, 3471899, 4166287, 4999559,
  5999471, 7199369, 8639249, 10367101, 12440537, 14928671, 17914409, 21497293, 25796759,
  30956117, 37147349, 44576837, 53492207, 64190669, 77028803, 92434613, 110921543, 133105859,
  159727031, 191672443, 230006941, 276008387, 331210079, 397452101, 476942527, 572331049,
  686797261, 824156741, 988988137, 1186785773, 1424142949, 1708971541, 2050765853, 2146435069]

/-- The bucket count of a new table. -/
def firstPrime : Nat := 3

/-- The largest bucket count. -/
def lastPrime : Nat := 2146435069

/-- The first prime of the sequence that is at least `n`, or the last one. -/
def nextPrime (n : Nat) : Nat :=
  (primes.find? fun p => n ≤ p).getD lastPrime

/-- A bucket count is never zero. -/
theorem nextPrime_pos (n : Nat) : 0 < nextPrime n := by
  unfold nextPrime
  have hpos : ∀ p ∈ primes, 0 < p := by decide +kernel
  cases h : primes.find? fun p => n ≤ p with
  | none => decide
  | some p => exact hpos p (List.mem_of_find?_eq_some h)

end ScriptVm.Table
