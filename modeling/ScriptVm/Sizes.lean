import ScriptVm.Fault

/-!
# Sizes

Heights of stacks and counts of variables are natural numbers.  On a machine with
words of 64 bits two things can go wrong with them: a sum may not fit a word, and
the slots asked for may take more bytes than an object can have.  Both are
defects, not faults of the program.

`Sizes` says whether these limits hold, so that what the machine does can also be
studied without them.
-/

namespace ScriptVm

/-- The limits of sizes. -/
inductive Sizes
  /-- None: sizes are natural numbers. -/
  | unbounded
  /-- Those of words of 64 bits. -/
  | word64
  deriving DecidableEq, Repr

namespace Sizes

/-- The number of bytes that no object reaches. -/
def objectLimit : Nat := 0x8000000000000000

/-- The sum of two sizes. -/
def add : Sizes → Nat → Nat → Except Defect Nat
  | unbounded, a, b => .ok (a + b)
  | word64, a, b => if a + b < UInt64.size then .ok (a + b) else .error .sizeOverflow

/-- Whether there can be so many slots of so many bytes each. -/
def reserve : Sizes → (bytes slots : Nat) → Except Defect Unit
  | unbounded, _, _ => .ok ()
  | word64, bytes, slots =>
    if bytes * slots < objectLimit then .ok () else .error .capacityOverflow

@[simp] theorem add_unbounded (a b : Nat) : unbounded.add a b = .ok (a + b) := rfl

@[simp] theorem reserve_unbounded (bytes slots : Nat) : unbounded.reserve bytes slots = .ok () :=
  rfl

/-- A sum is the natural one wherever there is one. -/
theorem eq_add_of_add_eq_ok {sizes : Sizes} {a b n : Nat} (h : sizes.add a b = .ok n) :
    n = a + b := by
  cases sizes with
  | unbounded => simp_all [add]
  | word64 =>
    simp only [add] at h
    split at h <;> simp_all

end Sizes

end ScriptVm
