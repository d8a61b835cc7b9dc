import ScriptVm.Heap.Identity

/-!
# Operators

The native meaning of the operators, and the metamethods that stand in where
there is none.

Native paths of a binary operator: two integers are taken modulo `2 ^ 64`; two
numbers of which one is a float are widened to floats; two booleans have `And`,
`Orr` and `Xor`; two texts have `Add`, which joins them, and the comparisons.
Dividing an integer by the integer zero is a fault.

An operator without a native path for its operands answers `none`, and the
machine goes on to the metamethod that `Overload` names.
-/

namespace ScriptVm

namespace Operator

/-- The bits of a number as a float. -/
def widen? : Value → Option UInt64
  | .int i => some i.toFloat.toBits
  | .float bits => some bits
  | _ => none

/-- Both operands as floats. -/
def bothNumeric? (x y : Value) : Option (UInt64 × UInt64) := do
  return (← widen? x, ← widen? y)

/-- A float operation on bits. -/
def onFloats (f : Float → Float → Float) (a b : UInt64) : UInt64 :=
  (f (Float.ofBits a) (Float.ofBits b)).toBits

/-- An operator that has an integer and a float meaning. -/
def arithmetic (ints : Int64 → Int64 → Int64) (floats : Float → Float → Float)
    (x y : Value) : Option Value :=
  match x, y with
  | .int a, .int b => some (.int (ints a b))
  | _, _ => (bothNumeric? x y).map fun (a, b) => .float (onFloats floats a b)

/-- An operator that has an integer and a boolean meaning. -/
def bitwise (ints : Int64 → Int64 → Int64) (bools : Bool → Bool → Bool) (x y : Value) :
    Option Value :=
  match x, y with
  | .int a, .int b => some (.int (ints a b))
  | .bool a, .bool b => some (.bool (bools a b))
  | _, _ => none

/-- The number of places to shift by: the low six bits. -/
def shiftCount (n : Int64) : UInt64 :=
  n.toUInt64 &&& 0x3f

/-- Shift to the left. -/
def shiftLeft (a n : Int64) : Int64 :=
  (a.toUInt64 <<< shiftCount n).toInt64

/-- Shift to the right, filling with zeros. -/
def shiftRight (a n : Int64) : Int64 :=
  (a.toUInt64 >>> shiftCount n).toInt64

/-- How two floats compare; a NaN compares with nothing. -/
def compareFloats (a b : Float) : Option Ordering :=
  if a < b then some .lt
  else if b < a then some .gt
  else if a == b then some .eq
  else none

/-- How two operands compare natively: `none` if they do not, and `some none` if they are numbers
without an order. -/
def nativeOrder? (x y : Value) : Option (Option Ordering) :=
  match x, y with
  | .int a, .int b => some (some (if a < b then .lt else if b < a then .gt else .eq))
  | .str a, .str b => some (some (if a < b then .lt else if b < a then .gt else .eq))
  | _, _ => (bothNumeric? x y).map fun (a, b) => compareFloats (Float.ofBits a) (Float.ofBits b)

/-- A comparison by its verdict on an order; operands without one compare false. -/
def comparison (verdict : Ordering → Bool) (x y : Value) : Option Value :=
  (nativeOrder? x y).map fun order => .bool (order.any verdict)

/-- Native equality.  Numbers of different types are widened and compared by their bits. -/
def nativeEquals? (h : Heap) (x y : Value) : Option Bool :=
  match x, y with
  | .nil, .nil => some true
  | .int a, .int b => some (a = b)
  | .bool a, .bool b => some (a = b)
  | .str a, .str b => some (a = b)
  | .function a, .function b => some (h.sameClosure a b)
  | _, _ => (bothNumeric? x y).map fun (a, b) => a = b

/-- The equality of last resort: one type and one object. -/
def identical (x y : Value) : Bool :=
  x.type = y.type && x.sameObject y

/-- The native result of a binary operator, `none` where it has no native path. -/
def binary (h : Heap) (op : BinaryOp) (x y : Value) : Except Fault (Option Value) :=
  match op with
  | .add =>
    match x, y with
    | .str a, .str b => .ok (some (.str (a ++ b)))
    | _, _ => .ok (arithmetic (· + ·) (· + ·) x y)
  | .sub => .ok (arithmetic (· - ·) (· - ·) x y)
  | .mul => .ok (arithmetic (· * ·) (· * ·) x y)
  | .div =>
    match x, y with
    | .int a, .int b =>
      if b = 0 then .error (.divisionByZero .div) else .ok (some (.int (a / b)))
    | _, _ => .ok (arithmetic (· / ·) (· / ·) x y)
  | .mod =>
    match x, y with
    | .int a, .int b =>
      if b = 0 then .error (.divisionByZero .mod) else .ok (some (.int (a % b)))
    | _, _ => .ok none
  | .lsh =>
    match x, y with
    | .int a, .int b => .ok (some (.int (shiftLeft a b)))
    | _, _ => .ok none
  | .rsh =>
    match x, y with
    | .int a, .int b => .ok (some (.int (shiftRight a b)))
    | _, _ => .ok none
  | .and => .ok (bitwise (· &&& ·) (· && ·) x y)
  | .orr => .ok (bitwise (· ||| ·) (· || ·) x y)
  | .xor => .ok (bitwise (· ^^^ ·) Bool.xor x y)
  | .lss => .ok (comparison (· == .lt) x y)
  | .gtr => .ok (comparison (· == .gt) x y)
  | .leq => .ok (comparison (· != .gt) x y)
  | .geq => .ok (comparison (· != .lt) x y)
  | .equ => .ok ((nativeEquals? h x y).map .bool)
  | .neq => .ok ((nativeEquals? h x y).map fun b => .bool !b)

/-- The native result of a unary operator, `none` where it has no native path. -/
def unary (op : UnaryOp) (x : Value) : Option Value :=
  match op, x with
  | .not, .int i => some (.int (~~~ i))
  | .not, .bool b => some (.bool !b)
  | .neg, .int i => some (.int (-i))
  -- The sign is the highest bit.
  | .neg, .float bits => some (.float (bits ^^^ 0x8000000000000000))
  | .typeof, v => some (.str v.type.name)
  | .isNil, v => some (.bool v.isNil)
  | _, _ => none

end Operator

/-- The binary operator of an opcode that is meant to be one. -/
def Op.asBinary : Op → Except Defect BinaryOp
  | .binary o => .ok o
  | op => .error (.notBinary op)

/-- The unary operator of an opcode that is meant to be one. -/
def Op.asUnary : Op → Except Defect UnaryOp
  | .unary o => .ok o
  | op => .error (.notUnary op)

/-- How an operator reaches its metamethod. -/
structure Overload where
  /-- The name of the metamethod. -/
  name : String
  /-- Whether it is called with the operands exchanged. -/
  swap : Bool
  /-- Whether, of the operands in call order, the second one's metatable is asked first. -/
  latterFirst : Bool
  deriving DecidableEq, Repr

namespace Overload

/-- A metamethod called with the operands as they stand. -/
def straight (name : String) : Overload := ⟨name, false, false⟩

/-- A metamethod called with the operands exchanged; still the left operand's metatable is asked
first. -/
def flipped (name : String) : Overload := ⟨name, true, true⟩

/-- The metamethod of a binary operator.  The comparisons share `__lss`, equality and its negation
share `__equ`. -/
def ofBinary : BinaryOp → Overload
  | .add => straight "__add"
  | .sub => straight "__sub"
  | .mul => straight "__mul"
  | .div => straight "__div"
  | .mod => straight "__mod"
  | .lsh => straight "__lsh"
  | .rsh => straight "__rsh"
  | .and => straight "__and"
  | .orr => straight "__orr"
  | .xor => straight "__xor"
  | .lss | .leq => straight "__lss"
  | .gtr | .geq => flipped "__lss"
  | .equ | .neq => straight "__equ"

/-- The metamethod of a unary operator. -/
def ofUnary : UnaryOp → String
  | .not => "__not"
  | _ => "__neg"

/-- The operands in the order of the call. -/
def order (o : Overload) (x y : Value) : Value × Value :=
  if o.swap then (y, x) else (x, y)

end Overload

/-- The metamethod for operands in call order, asking the metatables in the given order. -/
def Heap.binaryMethod (h : Heap) (a b : Value) (name : String) (latterFirst : Bool) :
    Option Value :=
  let (first, second) := if latterFirst then (b, a) else (a, b)
  (h.metamethod first name).or (h.metamethod second name)

/-- The metamethod that a binary operator calls for its operands in source order. -/
def Heap.overloadMethod (h : Heap) (op : BinaryOp) (x y : Value) : Option Value :=
  let o := Overload.ofBinary op
  let (a, b) := o.order x y
  h.binaryMethod a b o.name o.latterFirst

end ScriptVm
