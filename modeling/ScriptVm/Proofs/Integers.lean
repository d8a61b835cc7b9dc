import Mathlib.Algebra.Group.Int.Defs
import Mathlib.Algebra.Group.Nat.Defs
import ScriptVm.Operator

/-!
# Integer operators

On integers the operators are those of two's-complement arithmetic.  Sums, differences
and products are taken modulo `2 ^ 64`, quotients go towards zero, remainders have the
sign of the dividend, a shift is a product or an unsigned quotient by a power of two,
and the bitwise operators are tied to the arithmetic ones.

The exceptions are at the ends of the range.  The quotient of the least integer by `-1`
does not fit and is the least integer again; the remainder is zero there.  A shift uses
the count modulo `64`, so that no count is out of range and a negative one shifts as
well.

Main statement: `Operator.integer_operators`.
-/

namespace ScriptVm

namespace Operator

/-- The operator answers the integer `c` for the integers `a` and `b`. -/
def Gives (h : Heap) (op : BinaryOp) (a b c : Int64) : Prop :=
  binary h op (.int a) (.int b) = .ok (some (.int c))

/-- The unary operator answers the integer `c` for the integer `a`. -/
def Turns (op : UnaryOp) (a c : Int64) : Prop :=
  unary op (.int a) = some (.int c)

/-- The places that a shift goes by: the count modulo `64`, which is not negative. -/
def places (n : Int64) : Nat :=
  (n.toInt % 64).toNat

variable {h : Heap} {a b : Int64}

/-! ### Quotients -/

theorem gives_div (hb : b ≠ 0) : Gives h .div a b (a / b) := by
  simp [Gives, binary, hb]

theorem gives_mod (hb : b ≠ 0) : Gives h .mod a b (a % b) := by
  simp [Gives, binary, hb]

/-- The quotient goes towards zero, but for the one that does not fit. -/
theorem toInt_quotient (a b : Int64) :
    (a / b).toInt =
      if a = Int64.minValue ∧ b = -1 then Int64.minValue.toInt else a.toInt.tdiv b.toInt := by
  split
  · next hends =>
    obtain ⟨rfl, rfl⟩ := hends
    decide
  · next hends =>
    by_cases ha : a = Int64.minValue
    · have hb : b ≠ -1 := fun hb => hends ⟨ha, hb⟩
      exact Int64.toInt_div_of_ne_right a b hb
    · exact Int64.toInt_div_of_ne_left a b ha

/-- A remainder is zero or has the sign of the dividend. -/
theorem remainder_sign (a b : Int64) : a % b = 0 ∨ (a % b).toInt.sign = a.toInt.sign := by
  rw [← Int64.toInt_inj, Int64.toInt_mod, Int64.toInt_zero]
  by_cases hzero : a.toInt.tmod b.toInt = 0
  · exact .inl hzero
  · right
    rcases Int.lt_or_le a.toInt 0 with ha | ha
    · have hle : a.toInt.tmod b.toInt ≤ 0 := by
        have := Int.tmod_nonneg b.toInt (a := -a.toInt) (by omega)
        rw [Int.neg_tmod] at this
        omega
      rw [Int.sign_eq_neg_one_of_neg ha, Int.sign_eq_neg_one_of_neg (by omega)]
    · have hge := Int.tmod_nonneg b.toInt ha
      have hne : a.toInt ≠ 0 := by
        intro ha
        simp [ha] at hzero
      rw [Int.sign_eq_one_of_pos (by omega), Int.sign_eq_one_of_pos (by omega)]

/-- A remainder is smaller than the divisor. -/
theorem remainder_lt (a : Int64) (hb : b ≠ 0) :
    (a % b).toInt.natAbs < b.toInt.natAbs := by
  have hpos : 0 < b.toInt.natAbs := by
    have : b.toInt ≠ 0 := fun hzero => hb (Int64.toInt_inj.mp hzero)
    omega
  rw [Int64.toInt_mod, Int.natAbs_tmod]
  exact Nat.mod_lt _ hpos

/-- Quotient and remainder make up the dividend again, also where the quotient does not fit. -/
theorem quotient_mul_add_remainder (a b : Int64) : a / b * b + a % b = a := by
  rw [← Int64.toInt_inj, Int64.toInt_add, Int64.toInt_mul, Int64.toInt_div, Int64.toInt_mod,
    Int.bmod_mul_bmod, Int.bmod_add_bmod, Int.tdiv_mul_add_tmod, Int64.toInt_bmod]

/-! ### Shifts -/

/-- An integer read without its sign. -/
theorem toNat_toUInt64 (a : Int64) : (a.toUInt64.toNat : Int) = a.toInt % 2 ^ 64 := by
  rw [← Int64.toInt_toBitVec, BitVec.toInt_eq_toNat_bmod, ← UInt64.toNat_toBitVec,
    Int64.toBitVec_toUInt64]
  have hlt := a.toBitVec.isLt
  have hmod : (a.toBitVec.toNat : Int).bmod (2 ^ 64) % (2 ^ 64 : Nat)
      = a.toBitVec.toNat % (2 ^ 64 : Nat) := Int.bmod_emod
  omega

/-- A word read with a sign. -/
theorem toInt_toInt64 (u : UInt64) : u.toInt64.toInt = (u.toNat : Int).bmod (2 ^ 64) := by
  rw [← Int64.toInt_toBitVec, UInt64.toBitVec_toInt64, BitVec.toInt_eq_toNat_bmod,
    UInt64.toNat_toBitVec]

/-- The low six bits of a count are the count modulo `64`, of a negative count as well. -/
theorem toNat_shiftCount (n : Int64) : (shiftCount n).toNat % 64 = places n := by
  have hlow : (shiftCount n).toNat = n.toUInt64.toNat % 64 :=
    Nat.and_two_pow_sub_one_eq_mod n.toUInt64.toNat 6
  have hword := toNat_toUInt64 n
  rw [hlow, places]
  omega

/-- A shift to the left is a product with a power of two. -/
theorem toInt_shiftLeft (a b : Int64) :
    (shiftLeft a b).toInt = (a.toInt * 2 ^ places b).bmod (2 ^ 64) := by
  rw [shiftLeft, toInt_toInt64, UInt64.toNat_shiftLeft, toNat_shiftCount, Nat.shiftLeft_eq,
    Int.natCast_emod, Int.emod_bmod, Int.natCast_mul, Int.natCast_pow, toNat_toUInt64]
  exact Int.emod_mul_bmod _ _

/-- A shift to the left in the integers of the machine: the power of two is one of them, modulo
`2 ^ 64`. -/
theorem shiftLeft_eq_mul (a b : Int64) : shiftLeft a b = a * Int64.ofInt (2 ^ places b) := by
  rw [← Int64.toInt_inj, toInt_shiftLeft, Int64.toInt_mul, Int64.toInt_ofInt]
  exact Int.mul_bmod_bmod.symm

/-- A shift to the right is the quotient, without signs, by a power of two. -/
theorem toNat_shiftRight (a b : Int64) :
    (shiftRight a b).toUInt64.toNat = a.toUInt64.toNat / 2 ^ places b := by
  rw [shiftRight, UInt64.toUInt64_toInt64, UInt64.toNat_shiftRight, toNat_shiftCount,
    Nat.shiftRight_eq_div_pow]

/-! ### Bits -/

section Bits

variable {w : Nat} (x y : BitVec w)

/-- The bits of one number are those that it shares with another one and those of its own. -/
theorem shared_add_own : (x &&& y) + (y &&& ~~~x) = y := by
  rw [BitVec.add_eq_or_of_and_eq_zero]
  · ext i hi
    cases hx : x[i] <;> simp [hx]
  · ext i hi
    cases hx : x[i] <;> simp [hx]

/-- What two numbers have together, as the first one and what the second one adds to it. -/
theorem or_eq_add_own : x ||| y = x + (y &&& ~~~x) := by
  rw [BitVec.add_eq_or_of_and_eq_zero]
  · ext i hi
    cases hx : x[i] <;> simp [hx]
  · ext i hi
    cases hx : x[i] <;> simp [hx]

/-- What two numbers have together, as what only one of them has and what both have. -/
theorem xor_add_and : (x ^^^ y) + (x &&& y) = x ||| y := by
  rw [BitVec.add_eq_or_of_and_eq_zero]
  · ext i hi
    cases hx : x[i] <;> simp [hx]
  · ext i hi
    cases hx : x[i] <;> simp [hx]

/-- The bits that both have count twice, on either side. -/
theorem and_add_or : (x &&& y) + (x ||| y) = x + y :=
  calc (x &&& y) + (x ||| y)
      = (x &&& y) + (x + (y &&& ~~~x)) := by rw [or_eq_add_own]
    _ = x + ((x &&& y) + (y &&& ~~~x)) := by ac_rfl
    _ = x + y := by rw [shared_add_own]

end Bits

theorem and_add_or_int (a b : Int64) : (a &&& b) + (a ||| b) = a + b := by
  rw [← Int64.toBitVec_inj, Int64.toBitVec_add, Int64.toBitVec_and, Int64.toBitVec_or,
    Int64.toBitVec_add]
  exact and_add_or _ _

theorem or_sub_and_int (a b : Int64) : (a ||| b) - (a &&& b) = a ^^^ b := by
  rw [← Int64.toBitVec_inj, Int64.toBitVec_sub, Int64.toBitVec_and, Int64.toBitVec_or,
    Int64.toBitVec_xor, ← xor_add_and]
  exact BitVec.add_sub_cancel _ _

/-! ### The operators together -/

/-- The integer operators are exact arithmetic on signed words, and are tied to one another. -/
theorem integer_operators (h : Heap) (a b : Int64) :
    -- sums, differences and products are taken modulo 2 ^ 64
    (∃ c, Gives h .add a b c ∧ c.toInt = (a.toInt + b.toInt).bmod (2 ^ 64)) ∧
    (∃ c, Gives h .sub a b c ∧ c.toInt = (a.toInt - b.toInt).bmod (2 ^ 64)) ∧
    (∃ c, Gives h .mul a b c ∧ c.toInt = (a.toInt * b.toInt).bmod (2 ^ 64)) ∧
    -- quotients and remainders
    (b ≠ 0 → ∃ q m p, Gives h .div a b q ∧ Gives h .mod a b m ∧
      q.toInt = (if a = Int64.minValue ∧ b = -1 then Int64.minValue.toInt
        else a.toInt.tdiv b.toInt) ∧
      (m = 0 ∨ m.toInt.sign = a.toInt.sign) ∧ m.toInt.natAbs < b.toInt.natAbs ∧
      Gives h .mul q b p ∧ Gives h .add p m a) ∧
    -- shifts, whatever the count
    (∃ c, Gives h .lsh a b c ∧ c.toInt = (a.toInt * 2 ^ places b).bmod (2 ^ 64) ∧
      Gives h .mul a (Int64.ofInt (2 ^ places b)) c) ∧
    (∃ c, Gives h .rsh a b c ∧ c.toUInt64.toNat = a.toUInt64.toNat / 2 ^ places b) ∧
    -- the unary operators
    (∃ n c, Turns .neg a n ∧ Gives h .sub 0 a n ∧ Turns .not a c ∧ Gives h .sub n 1 c) ∧
    -- bits
    (∃ both either one s, Gives h .and a b both ∧ Gives h .orr a b either ∧
      Gives h .xor a b one ∧
      Gives h .add both either s ∧ Gives h .add a b s ∧ Gives h .sub either both one) := by
  refine ⟨⟨_, rfl, Int64.toInt_add a b⟩, ⟨_, rfl, Int64.toInt_sub a b⟩,
    ⟨_, rfl, Int64.toInt_mul a b⟩, ?quotients, ?left, ⟨_, rfl, toNat_shiftRight a b⟩,
    ?unaries, ?bits⟩
  case quotients =>
    intro hb
    refine ⟨a / b, a % b, a / b * b, gives_div hb, gives_mod hb, toInt_quotient a b,
      remainder_sign a b, remainder_lt a hb, rfl, ?_⟩
    show Except.ok (some (Value.int (a / b * b + a % b))) = _
    rw [quotient_mul_add_remainder]
  case left =>
    refine ⟨_, rfl, toInt_shiftLeft a b, ?_⟩
    show Except.ok (some (Value.int (a * _))) = _
    rw [shiftLeft_eq_mul]
  case unaries =>
    refine ⟨-a, ~~~a, rfl, ?_, rfl, ?_⟩
    · show Except.ok (some (Value.int (0 - a))) = _
      rw [Int64.zero_sub]
    · show Except.ok (some (Value.int (-a - 1))) = _
      rw [Int64.not_eq_neg_sub]
  case bits =>
    refine ⟨a &&& b, a ||| b, a ^^^ b, a + b, rfl, rfl, rfl, ?_, rfl, ?_⟩
    · show Except.ok (some (Value.int ((a &&& b) + (a ||| b)))) = _
      rw [and_add_or_int]
    · show Except.ok (some (Value.int ((a ||| b) - (a &&& b)))) = _
      rw [or_sub_and_int]

/-- The quotient that does not fit: the least integer by `-1`. -/
theorem integer_operators_least :
    (-1 : Int64) ≠ 0 ∧ Gives .empty .div Int64.minValue (-1) Int64.minValue ∧
      Gives .empty .mod Int64.minValue (-1) 0 := by
  obtain ⟨q, m, p, hdiv, hmod, hq, -, hm, -⟩ :=
    (integer_operators .empty Int64.minValue (-1)).2.2.2.1 (by decide)
  obtain rfl : Int64.minValue = q := by
    rw [← Int64.toInt_inj, hq]
    decide
  obtain rfl : 0 = m := by
    have hsmall : m.toInt.natAbs < 1 := hm
    rw [← Int64.toInt_inj, Int64.toInt_zero]
    omega
  exact ⟨by decide, hdiv, hmod⟩

end Operator

end ScriptVm
