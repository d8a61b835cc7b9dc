import ScriptVm.Bytes
import ScriptVm.Fault

/-!
# Instructions

An instruction is an opcode byte followed by an immediate in the opcode's own
shape.  `decode` reads the instruction at an address, `decodeAll` reads a whole
body, and `emit` writes one.

Running off the end of the code is not an error: right behind the last byte
stands an implicit `Ret`.  A byte that stands for no opcode is an instruction of
size one without an opcode; whether that is a fault is for the machine to say.

Main statement: `decode_next_gt` (an instruction inside the code ends behind its
own address), which is why `decodeAll` comes to an end.
-/

namespace ScriptVm

/-- One decoded instruction. -/
structure Instruction where
  /-- The opcode byte. -/
  byte : UInt8
  /-- The opcode, if the byte stands for one. -/
  op : Option Op
  /-- The immediate, zero where there is none. -/
  imm : Int64
  /-- Whether the immediate is to be popped from the value stack. -/
  onStack : Bool
  /-- The address right behind the immediate; branch offsets count from it. -/
  next : Nat
  deriving DecidableEq, Repr

namespace Instruction

/-- The signed number that a little-endian word holds. -/
def signed (word : List UInt8) : Int64 :=
  Int64.ofInt (Int.bmod (Bytes.ofLittle word) (Bytes.span word.length))

/-- The implicit return at the end of the code. -/
def implicitRet (ip : Nat) : Instruction where
  byte := (Op.control .ret).byte
  op := some (.control .ret)
  imm := 0
  onStack := false
  next := ip

/-- The shape of the immediate that follows a byte. -/
def shapeOfByte (byte : UInt8) : Shape :=
  match Op.ofByte? byte with
  | some op => op.immediate
  | none => .none

/-- The immediate of the instruction `byte` whose immediate bytes would start at `start`. -/
def readImmediate (code : Bytes) (byte : UInt8) (start : Nat) : Except Fault Int64 :=
  match shapeOfByte byte with
  | .none | .onStack => .ok 0
  | .embedded => .ok (Int64.ofNat (byte.toNat % 8))
  | .byte | .dword | .qword =>
    match code.slice? start (shapeOfByte byte).size with
    | some word => .ok (signed word.toList)
    | none => .error .unexpectedEndOfCode

/-- The instruction at address `ip`. -/
def decode (code : Bytes) (ip : Nat) : Except Fault Instruction :=
  if h : ip < code.size then
    match readImmediate code code[ip] (ip + 1) with
    | .error f => .error f
    | .ok imm => .ok {
        byte := code[ip]
        op := Op.ofByte? code[ip]
        imm
        onStack := shapeOfByte code[ip] = .onStack
        next := ip + 1 + (shapeOfByte code[ip]).size }
  else if ip = code.size then
    .ok (implicitRet ip)
  else
    .error (.invalidInstructionPointer (Int64.ofNat ip) code.size)

/-- An instruction inside the code ends behind its own address. -/
theorem decode_next_gt {code : Bytes} {ip : Nat} {ins : Instruction} (h : ip < code.size)
    (hd : decode code ip = .ok ins) : ip < ins.next := by
  unfold decode at hd
  rw [dif_pos h] at hd
  split at hd
  · cases hd
  · cases hd
    simp only
    omega

/-- The instructions from address `ip` to the end of the code. -/
def decodeFrom (code : Bytes) (ip : Nat) : Except Fault (List Instruction) :=
  if h : ip < code.size then
    match hd : decode code ip with
    | .error f => .error f
    | .ok ins =>
      have := decode_next_gt h hd
      match decodeFrom code ins.next with
      | .error f => .error f
      | .ok rest => .ok (ins :: rest)
  else
    .ok []
termination_by code.size - ip

/-- Every instruction of a function body, in order. -/
def decodeAll (code : Bytes) : Except Fault (List Instruction) :=
  decodeFrom code 0

/-- The bytes of an opcode with an immediate, which is cut to the low bits that its shape holds.
Immediates that the shape does not write (embedded, none, on the stack) are ignored. -/
def emit (op : Op) (imm : Int64) : List UInt8 :=
  op.byte :: Bytes.toLittle op.immediate.size imm.toUInt64.toNat

/-- An instruction takes one byte and its immediate. -/
@[simp] theorem length_emit (op : Op) (imm : Int64) :
    (emit op imm).length = 1 + op.immediate.size := by
  simp [emit]
  omega

end Instruction

end ScriptVm
