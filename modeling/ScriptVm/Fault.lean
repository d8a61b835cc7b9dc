import ScriptVm.Bytecode.Op
import ScriptVm.Value

/-!
# What can go wrong

Four causes are kept apart.

* A **fault** is something the running program did wrong: a bad operand, an
  index out of range, malformed code.
* A **usage error** is a wrong request of the host, such as resuming a coroutine
  that has stopped.
* A **unit file error** says why a binary unit cannot be read.
* A **defect** is a broken promise inside the machine, a limit of the system it
  runs on, or a misuse of the assembler.  No program is meant to reach one.

The wording of each cause stands in one function `message`.
-/

namespace ScriptVm

/-- Where a coroutine is in its life. -/
inductive Lifecycle
  /-- Made, never resumed. -/
  | initial
  /-- Yielded, waiting for values. -/
  | suspended
  /-- Switched away to another coroutine that has not finished yet. -/
  | inStack
  | running
  /-- Returned or faulted. -/
  | stopped
  deriving DecidableEq, Repr

/-- The name of a state. -/
def Lifecycle.name : Lifecycle → String
  | initial => "Initial"
  | suspended => "Suspend"
  | inStack => "InStack"
  | running => "Running"
  | stopped => "Stopped"

/-- What the running program did wrong. -/
inductive Fault
  | invalidBinaryOperand (op : BinaryOp) (left right : ValueType)
  | invalidUnaryOperand (op : UnaryOp) (operand : ValueType)
  | localIndexOutOfRange (index : Int64) (bound : Nat)
  | stringIndexOutOfRange (index : Int64) (bound : Nat)
  | functionIndexOutOfRange (index : Int64) (bound : Nat)
  | vectorIndexOutOfRange (index : Int64) (len : Nat)
  | unexpectedEndOfCode
  | unknownOp (byte : UInt8)
  | invalidInstructionPointer (ip : Int64) (len : Nat)
  | stackUnderflow
  | notCallable (value : String)
  | assertionFailed (expected actual : ValueType) (value : String)
  | divisionByZero (op : BinaryOp)
  | thrown (value : String)
  | external (text : String)
  deriving DecidableEq, Repr

/-- What the host asked for in vain. -/
inductive UsageError
  | invalidResume (state : Lifecycle)
  | syscallSlotOutOfRange (index : Nat)
  | yieldFromRoot
  | entryIndexOutOfRange (index bound : Nat)
  deriving DecidableEq, Repr

/-- Why a binary unit cannot be read. -/
inductive UnitFileError
  | badMagic (magic : Nat)
  | unsupportedVersion (major minor : Nat)
  | truncated (offset : Nat)
  | invalidUtf8 (offset : Nat)
  | unknownSection (kind : Nat)
  | malformed (offset : Nat)
  deriving DecidableEq, Repr

/-- A broken promise inside the machine, a limit of the system, or a misuse of the assembler. -/
inductive Defect
  /-- A stack was asked for more than it holds. -/
  | stackUnderflow
  /-- A position lies outside a stack or a code body. -/
  | outOfBounds
  /-- A sum of sizes does not fit a word. -/
  | sizeOverflow
  /-- More slots were asked for than an object can have. -/
  | capacityOverflow
  /-- A value that the system has no form for. -/
  | unrepresentable
  /-- A closure over a prototype that the unit does not have. -/
  | prototypeOutOfRange
  /-- A syscall slot that does not exist. -/
  | syscallSlotOutOfRange
  /-- A branch opcode without a target of four bytes. -/
  | noTargetForm (op : Op)
  /-- A branch to a label that was never placed. -/
  | unmarkedLabel (label : Nat) (function : String)
  /-- An opcode of another family where a binary operator is due. -/
  | notBinary (op : Op)
  /-- An opcode of another family where a unary operator is due. -/
  | notUnary (op : Op)
  deriving DecidableEq, Repr

/-- A number in lower-case hexadecimal, padded with zeros to at least `width` digits. -/
def hexadecimal (width n : Nat) : String :=
  let digits := Nat.toDigits 16 n
  String.ofList (List.replicate (width - digits.length) '0' ++ digits)

/-- The text of a fault. -/
def Fault.message : Fault → String
  | invalidBinaryOperand op l r =>
    "invalid operand types for " ++ op.name ++ ": " ++ l.name ++ " and " ++ r.name
  | invalidUnaryOperand op x => "invalid operand type for " ++ op.name ++ ": " ++ x.name
  | localIndexOutOfRange i bound =>
    "local variable index " ++ toString i ++ " out of range (function has " ++ toString bound
      ++ " locals)"
  | stringIndexOutOfRange i bound =>
    "string index " ++ toString i ++ " out of range (unit has " ++ toString bound ++ " strings)"
  | functionIndexOutOfRange i bound =>
    "function index " ++ toString i ++ " out of range (unit has " ++ toString bound
      ++ " functions)"
  | vectorIndexOutOfRange i len =>
    "vector index " ++ toString i ++ " out of range (length " ++ toString len ++ ")"
  | unexpectedEndOfCode => "unexpected end of code"
  | unknownOp byte => "unknown opcode 0x" ++ hexadecimal 2 byte.toNat
  | invalidInstructionPointer ip len =>
    "instruction pointer " ++ toString ip ++ " outside code of length " ++ toString len
  | stackUnderflow => "operand stack underflow"
  | notCallable value => "value is not callable: " ++ value
  | assertionFailed expected actual value =>
    "expected " ++ expected.name ++ ", got " ++ actual.name ++ " (" ++ value ++ ")"
  | divisionByZero op => op.name ++ ": division by zero"
  | thrown value => "thrown: " ++ value
  | external text => "external function failed: " ++ text

/-- The text of a usage error. -/
def UsageError.message : UsageError → String
  | invalidResume state => "cannot resume a coroutine in state " ++ state.name
  | syscallSlotOutOfRange index => "syscall slot " ++ toString index ++ " out of range (0..8)"
  | yieldFromRoot => "root coroutine yielded with nothing to yield to"
  | entryIndexOutOfRange index bound =>
    "entry index " ++ toString index ++ " out of range (unit has " ++ toString bound
      ++ " functions)"

/-- The text of a unit file error. -/
def UnitFileError.message : UnitFileError → String
  | badMagic magic => "not a binary unit (magic 0x" ++ hexadecimal 8 magic ++ ")"
  | unsupportedVersion major minor =>
    "unsupported unit file version " ++ toString major ++ "." ++ toString minor
  | truncated offset => "unit file truncated at offset " ++ toString offset
  | invalidUtf8 offset => "string at offset " ++ toString offset ++ " is not valid UTF-8"
  | unknownSection kind => "unknown section type 0x" ++ hexadecimal 4 kind
  | malformed offset => "malformed unit file at offset " ++ toString offset

/-- The text of a defect, where it has one of its own. -/
def Defect.message? : Defect → Option String
  | stackUnderflow => some "GrowableStack underflow"
  | prototypeOutOfRange => some "prototype index out of range"
  | syscallSlotOutOfRange => some "syscall slot out of range"
  | unmarkedLabel label function =>
    some ("label Label(" ++ toString label ++ ") never marked in " ++ function)
  | notBinary op =>
    some ("internal error: entered unreachable code: " ++ op.name ++ " is not a binary operator")
  | notUnary op =>
    some ("internal error: entered unreachable code: " ++ op.name ++ " is not a unary operator")
  | outOfBounds | sizeOverflow | capacityOverflow | unrepresentable | noTargetForm _ => none

/-- One line of a backtrace: a function and the address it was executing. -/
structure TraceLine where
  /-- The function's name. -/
  function : String
  /-- The address of the instruction. -/
  ip : Nat
  deriving DecidableEq, Repr

/-- The text of a backtrace line. -/
def TraceLine.text (line : TraceLine) : String :=
  line.function ++ " @ " ++ toString line.ip

end ScriptVm
