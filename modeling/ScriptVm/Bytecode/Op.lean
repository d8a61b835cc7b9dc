/-!
# The opcode table

An instruction starts with one byte, its opcode.  Opcodes come in families (an
operator on two operands, a load of a local variable, a branch, …) and inside a
family they differ in the operator or in the way the immediate is written.  The
type `Op` follows that structure, so that a handler of a family never sees an
opcode of another one.

Everything else about an opcode is a function of it: its byte, its name, the
shape of its immediate, its category and the number of phases it may need.

Main statements: `Op.ofByte?_byte` and `Op.byte_of_ofByte?` (bytes and opcodes
determine each other).
-/

namespace ScriptVm

/-- Operators on two operands. -/
inductive BinaryOp
  | add | sub | mul | div | mod | lsh | rsh | and | orr | xor
  | gtr | lss | geq | leq | equ | neq
  deriving DecidableEq, Repr

/-- Operators on one operand. -/
inductive UnaryOp
  | not | neg | typeof | isNil
  deriving DecidableEq, Repr

/-- Instructions on tables and vectors. -/
inductive TableOp
  /-- Set the metatable. -/
  | setMeta
  /-- Get the metatable. -/
  | getMeta
  /-- Read an entry, through `__ren` if the metatable has it. -/
  | read
  /-- Write an entry, through `__uen` if the metatable has it. -/
  | update
  /-- Read an entry, never through a metamethod. -/
  | readLocal
  /-- Write an entry, never through a metamethod. -/
  | updateLocal
  /-- Write an entry and keep the table on the stack. -/
  | insert
  /-- Append to a vector. -/
  | push
  /-- Remove the tail of a vector. -/
  | pop
  deriving DecidableEq, Repr

/-- Instructions on variables of the frame's context or of its root. -/
inductive ScopeOp
  | read | write | readGlobal | writeGlobal
  deriving DecidableEq, Repr

/-- The two widths of an immediate that most families have. -/
inductive Width
  /-- One signed byte. -/
  | short
  /-- Four bytes, sign-extended. -/
  | long
  deriving DecidableEq, Repr

/-- How an integer constant is written. -/
inductive IntForm
  | embedded (n : Fin 4)
  | qword
  | wide (w : Width)
  | minusOne
  deriving DecidableEq, Repr

/-- How the index of a local variable is written. -/
inductive SlotForm
  | embedded (n : Fin 8)
  | wide (w : Width)
  | onStack
  deriving DecidableEq, Repr

/-- How the index of an argument is written. -/
inductive ArgForm
  | embedded (n : Fin 4)
  | wide (w : Width)
  | onStack
  deriving DecidableEq, Repr

/-- How the number of values to keep is written. -/
inductive ShapeForm
  | embedded (n : Fin 4)
  | wide (w : Width)
  deriving DecidableEq, Repr

/-- Loads of values that need no table of the unit. -/
inductive Constant
  | newTable | nil | float | newVector | true | false | argumentCount
  deriving DecidableEq, Repr

/-- When a branch is taken. -/
inductive Condition
  | always | falsy | truthy | isNil | notNil
  deriving DecidableEq, Repr

/-- Instructions on try marks. -/
inductive TryOp
  | enter (w : Width)
  | leave
  | throw
  deriving DecidableEq, Repr

/-- Instructions on the stack itself, calls and coroutines. -/
inductive ControlOp
  | dup | pop | makeCoroutine | yield | resume
  | delimit | call | ret | bind | undelimit | dupRun | pack | unpack | nop
  deriving DecidableEq, Repr

/-- An opcode. -/
inductive Op
  | binary (o : BinaryOp)
  | table (o : TableOp)
  | unary (o : UnaryOp)
  | scope (o : ScopeOp)
  | loadFunction (w : Width)
  | loadString (w : Width)
  | loadInt (f : IntForm)
  | loadConstant (c : Constant)
  | loadLocal (f : SlotForm)
  | storeLocal (f : SlotForm)
  | loadArgument (f : ArgForm)
  | branch (c : Condition) (w : Width)
  | guarded (o : TryOp)
  | shape (f : ShapeForm)
  | syscall (slot : Fin 8)
  | control (o : ControlOp)
  deriving DecidableEq, Repr

namespace BinaryOp

/-- Bytes of the binary operators, from `0x00` on. -/
def byte : BinaryOp → UInt8
  | add => 0x00 | sub => 0x01 | mul => 0x02 | div => 0x03 | mod => 0x04 | lsh => 0x05
  | rsh => 0x06 | and => 0x07 | orr => 0x08 | xor => 0x09 | gtr => 0x0a | lss => 0x0b
  | geq => 0x0c | leq => 0x0d | equ => 0x0e | neq => 0x0f

/-- The assembler name of the operator. -/
def name : BinaryOp → String
  | add => "Add" | sub => "Sub" | mul => "Mul" | div => "Div" | mod => "Mod" | lsh => "Lsh"
  | rsh => "Rsh" | and => "And" | orr => "Orr" | xor => "Xor" | gtr => "Gtr" | lss => "Lss"
  | geq => "Geq" | leq => "Leq" | equ => "Equ" | neq => "Neq"

/-- `Leq` and `Geq` may ask two metamethods one after the other, so they need a third phase. -/
def phaseCount : BinaryOp → Nat
  | leq | geq => 3
  | _ => 2

end BinaryOp

namespace UnaryOp

/-- Bytes of the unary operators. -/
def byte : UnaryOp → UInt8
  | not => 0x1c | neg => 0x1d | typeof => 0x1e | isNil => 0x1f

/-- The assembler name of the operator. -/
def name : UnaryOp → String
  | not => "Not" | neg => "Neg" | typeof => "Typeof" | isNil => "IsNil"

end UnaryOp

namespace TableOp

/-- Bytes of the table and vector instructions. -/
def byte : TableOp → UInt8
  | setMeta => 0x10 | getMeta => 0x11 | read => 0x12 | update => 0x13 | readLocal => 0x14
  | updateLocal => 0x15 | insert => 0x16 | push => 0x18 | pop => 0x19

/-- The assembler name of the instruction. -/
def name : TableOp → String
  | setMeta => "Smt" | getMeta => "Gmt" | read => "Ren" | update => "Uen" | readLocal => "RenL"
  | updateLocal => "UenL" | insert => "Ien" | push => "Pshv" | pop => "Popv"

end TableOp

namespace ScopeOp

/-- Bytes of the variable instructions. -/
def byte : ScopeOp → UInt8
  | read => 0x20 | write => 0x21 | readGlobal => 0x22 | writeGlobal => 0x23

/-- The assembler name of the instruction. -/
def name : ScopeOp → String
  | read => "Rvc" | write => "Uvc" | readGlobal => "Rvg" | writeGlobal => "Uvg"

end ScopeOp

namespace Constant

/-- Bytes of the constant loads. -/
def byte : Constant → UInt8
  | newTable => 0x38 | nil => 0x39 | float => 0x3a | newVector => 0x3b | true => 0x3c
  | false => 0x3d | argumentCount => 0x57

/-- The assembler name of the load. -/
def name : Constant → String
  | newTable => "LdNTbl" | nil => "LdNil" | float => "LdFlt" | newVector => "LdNVec"
  | true => "LdTrue" | false => "LdFalse" | argumentCount => "LdArgc"

end Constant

namespace Condition

/-- Bytes of the long branches. -/
def byte : Condition → UInt8
  | always => 0x80 | falsy => 0x81 | truthy => 0x82 | isNil => 0x83 | notNil => 0x84

/-- The assembler name of the long branch. -/
def name : Condition → String
  | always => "B" | falsy => "Bf" | truthy => "Bt" | isNil => "Bn" | notNil => "Bnn"

end Condition

namespace ControlOp

/-- Bytes of the stack, call and coroutine instructions. -/
def byte : ControlOp → UInt8
  | dup => 0xa0 | pop => 0xa1 | makeCoroutine => 0xa5 | yield => 0xa6 | resume => 0xa7
  | delimit => 0xa8 | call => 0xa9 | ret => 0xaa | bind => 0xab | undelimit => 0xac
  | dupRun => 0xad | pack => 0xae | unpack => 0xaf | nop => 0xc0

/-- The assembler name of the instruction. -/
def name : ControlOp → String
  | dup => "Dup" | pop => "Pop" | makeCoroutine => "Mkc" | yield => "Yield" | resume => "Resume"
  | delimit => "LdDel" | call => "Call" | ret => "Ret" | bind => "Bind" | undelimit => "PopDel"
  | dupRun => "DupList" | pack => "Pkv" | unpack => "Upv" | nop => "Nop"

end ControlOp

/-- How the immediate of an opcode is encoded. -/
inductive Shape
  /-- There is no immediate. -/
  | none
  /-- The low three bits of the opcode byte. -/
  | embedded
  /-- One signed byte. -/
  | byte
  /-- Four bytes, little-endian, sign-extended. -/
  | dword
  /-- Eight bytes, little-endian. -/
  | qword
  /-- Popped from the value stack when the instruction is executed. -/
  | onStack
  deriving DecidableEq, Repr

namespace Shape

/-- The encoded size in bytes, without the opcode byte. -/
def size : Shape → Nat
  | none | embedded | onStack => 0
  | byte => 1
  | dword => 4
  | qword => 8

/-- The name of the shape. -/
def name : Shape → String
  | none => "None" | embedded => "Embedded" | byte => "Byte" | dword => "Dword"
  | qword => "Qword" | onStack => "OnStack"

end Shape

/-- The shape of an immediate of a given width. -/
def Width.shape : Width → Shape
  | short => .byte
  | long => .dword

namespace Op

/-- The byte that stands for the opcode. -/
def byte : Op → UInt8
  | binary o => o.byte
  | table o => o.byte
  | unary o => o.byte
  | scope o => o.byte
  | loadFunction .long => 0x28
  | loadFunction .short => 0x2c
  | loadString .long => 0x29
  | loadString .short => 0x2d
  | loadInt (.embedded n) => 0x30 + UInt8.ofNat n
  | loadInt .qword => 0x34
  | loadInt (.wide .long) => 0x35
  | loadInt (.wide .short) => 0x36
  | loadInt .minusOne => 0x37
  | loadConstant c => c.byte
  | loadLocal (.embedded n) => 0x40 + UInt8.ofNat n
  | loadLocal (.wide .long) => 0x55
  | loadLocal (.wide .short) => 0x59
  | loadLocal .onStack => 0x5d
  | storeLocal (.embedded n) => 0x48 + UInt8.ofNat n
  | storeLocal (.wide .long) => 0x56
  | storeLocal (.wide .short) => 0x5a
  | storeLocal .onStack => 0x5e
  | loadArgument (.embedded n) => 0x50 + UInt8.ofNat n
  | loadArgument (.wide .long) => 0x54
  | loadArgument (.wide .short) => 0x58
  | loadArgument .onStack => 0x5c
  | branch c .long => c.byte
  | branch c .short => c.byte + 8
  | guarded (.enter .long) => 0x90
  | guarded (.enter .short) => 0x91
  | guarded .leave => 0x92
  | guarded .throw => 0x93
  | shape (.embedded n) => 0xb0 + UInt8.ofNat n
  | shape (.wide .long) => 0xb4
  | shape (.wide .short) => 0xb5
  | syscall slot => 0xe0 + UInt8.ofNat slot
  | control o => o.byte

/-- The opcode of a byte; some bytes stand for none. -/
def ofByte? (b : UInt8) : Option Op :=
  match b.toNat with
  | 0x00 => some (binary .add)
  | 0x01 => some (binary .sub)
  | 0x02 => some (binary .mul)
  | 0x03 => some (binary .div)
  | 0x04 => some (binary .mod)
  | 0x05 => some (binary .lsh)
  | 0x06 => some (binary .rsh)
  | 0x07 => some (binary .and)
  | 0x08 => some (binary .orr)
  | 0x09 => some (binary .xor)
  | 0x0a => some (binary .gtr)
  | 0x0b => some (binary .lss)
  | 0x0c => some (binary .geq)
  | 0x0d => some (binary .leq)
  | 0x0e => some (binary .equ)
  | 0x0f => some (binary .neq)
  | 0x10 => some (table .setMeta)
  | 0x11 => some (table .getMeta)
  | 0x12 => some (table .read)
  | 0x13 => some (table .update)
  | 0x14 => some (table .readLocal)
  | 0x15 => some (table .updateLocal)
  | 0x16 => some (table .insert)
  | 0x18 => some (table .push)
  | 0x19 => some (table .pop)
  | 0x1c => some (unary .not)
  | 0x1d => some (unary .neg)
  | 0x1e => some (unary .typeof)
  | 0x1f => some (unary .isNil)
  | 0x20 => some (scope .read)
  | 0x21 => some (scope .write)
  | 0x22 => some (scope .readGlobal)
  | 0x23 => some (scope .writeGlobal)
  | 0x28 => some (loadFunction .long)
  | 0x29 => some (loadString .long)
  | 0x2c => some (loadFunction .short)
  | 0x2d => some (loadString .short)
  | 0x30 => some (loadInt (.embedded 0))
  | 0x31 => some (loadInt (.embedded 1))
  | 0x32 => some (loadInt (.embedded 2))
  | 0x33 => some (loadInt (.embedded 3))
  | 0x34 => some (loadInt .qword)
  | 0x35 => some (loadInt (.wide .long))
  | 0x36 => some (loadInt (.wide .short))
  | 0x37 => some (loadInt .minusOne)
  | 0x38 => some (loadConstant .newTable)
  | 0x39 => some (loadConstant .nil)
  | 0x3a => some (loadConstant .float)
  | 0x3b => some (loadConstant .newVector)
  | 0x3c => some (loadConstant .true)
  | 0x3d => some (loadConstant .false)
  | 0x40 => some (loadLocal (.embedded 0))
  | 0x41 => some (loadLocal (.embedded 1))
  | 0x42 => some (loadLocal (.embedded 2))
  | 0x43 => some (loadLocal (.embedded 3))
  | 0x44 => some (loadLocal (.embedded 4))
  | 0x45 => some (loadLocal (.embedded 5))
  | 0x46 => some (loadLocal (.embedded 6))
  | 0x47 => some (loadLocal (.embedded 7))
  | 0x48 => some (storeLocal (.embedded 0))
  | 0x49 => some (storeLocal (.embedded 1))
  | 0x4a => some (storeLocal (.embedded 2))
  | 0x4b => some (storeLocal (.embedded 3))
  | 0x4c => some (storeLocal (.embedded 4))
  | 0x4d => some (storeLocal (.embedded 5))
  | 0x4e => some (storeLocal (.embedded 6))
  | 0x4f => some (storeLocal (.embedded 7))
  | 0x50 => some (loadArgument (.embedded 0))
  | 0x51 => some (loadArgument (.embedded 1))
  | 0x52 => some (loadArgument (.embedded 2))
  | 0x53 => some (loadArgument (.embedded 3))
  | 0x54 => some (loadArgument (.wide .long))
  | 0x55 => some (loadLocal (.wide .long))
  | 0x56 => some (storeLocal (.wide .long))
  | 0x57 => some (loadConstant .argumentCount)
  | 0x58 => some (loadArgument (.wide .short))
  | 0x59 => some (loadLocal (.wide .short))
  | 0x5a => some (storeLocal (.wide .short))
  | 0x5c => some (loadArgument .onStack)
  | 0x5d => some (loadLocal .onStack)
  | 0x5e => some (storeLocal .onStack)
  | 0x80 => some (branch .always .long)
  | 0x81 => some (branch .falsy .long)
  | 0x82 => some (branch .truthy .long)
  | 0x83 => some (branch .isNil .long)
  | 0x84 => some (branch .notNil .long)
  | 0x88 => some (branch .always .short)
  | 0x89 => some (branch .falsy .short)
  | 0x8a => some (branch .truthy .short)
  | 0x8b => some (branch .isNil .short)
  | 0x8c => some (branch .notNil .short)
  | 0x90 => some (guarded (.enter .long))
  | 0x91 => some (guarded (.enter .short))
  | 0x92 => some (guarded .leave)
  | 0x93 => some (guarded .throw)
  | 0xa0 => some (control .dup)
  | 0xa1 => some (control .pop)
  | 0xa5 => some (control .makeCoroutine)
  | 0xa6 => some (control .yield)
  | 0xa7 => some (control .resume)
  | 0xa8 => some (control .delimit)
  | 0xa9 => some (control .call)
  | 0xaa => some (control .ret)
  | 0xab => some (control .bind)
  | 0xac => some (control .undelimit)
  | 0xad => some (control .dupRun)
  | 0xae => some (control .pack)
  | 0xaf => some (control .unpack)
  | 0xb0 => some (shape (.embedded 0))
  | 0xb1 => some (shape (.embedded 1))
  | 0xb2 => some (shape (.embedded 2))
  | 0xb3 => some (shape (.embedded 3))
  | 0xb4 => some (shape (.wide .long))
  | 0xb5 => some (shape (.wide .short))
  | 0xc0 => some (control .nop)
  | 0xe0 => some (syscall 0)
  | 0xe1 => some (syscall 1)
  | 0xe2 => some (syscall 2)
  | 0xe3 => some (syscall 3)
  | 0xe4 => some (syscall 4)
  | 0xe5 => some (syscall 5)
  | 0xe6 => some (syscall 6)
  | 0xe7 => some (syscall 7)
  | _ => none

/-- The assembler name of the opcode. -/
def name : Op → String
  | binary o => o.name
  | table o => o.name
  | unary o => o.name
  | scope o => o.name
  | loadFunction .long => "LdFun"
  | loadFunction .short => "LdFunS"
  | loadString .long => "LdStr"
  | loadString .short => "LdStrS"
  | loadInt (.embedded n) => "Ld" ++ toString n.val
  | loadInt .qword => "LdQ"
  | loadInt (.wide .long) => "Ld"
  | loadInt (.wide .short) => "LdS"
  | loadInt .minusOne => "LdNeg1"
  | loadConstant c => c.name
  | loadLocal (.embedded n) => "LdLoc" ++ toString n.val
  | loadLocal (.wide .long) => "LdLoc"
  | loadLocal (.wide .short) => "LdLocS"
  | loadLocal .onStack => "LdLocA"
  | storeLocal (.embedded n) => "StLoc" ++ toString n.val
  | storeLocal (.wide .long) => "StLoc"
  | storeLocal (.wide .short) => "StLocS"
  | storeLocal .onStack => "StLocA"
  | loadArgument (.embedded n) => "LdArg" ++ toString n.val
  | loadArgument (.wide .long) => "LdArg"
  | loadArgument (.wide .short) => "LdArgS"
  | loadArgument .onStack => "LdArgA"
  | branch c .long => c.name
  | branch c .short => c.name ++ "S"
  | guarded (.enter .long) => "Try"
  | guarded (.enter .short) => "TryS"
  | guarded .leave => "EndTry"
  | guarded .throw => "Throw"
  | shape (.embedded n) => "ShpRv" ++ toString n.val
  | shape (.wide .long) => "ShpRv"
  | shape (.wide .short) => "ShpRvS"
  | syscall slot => "SysC" ++ toString slot.val
  | control o => o.name

/-- Every opcode, in the order of the bytes. -/
def all : List Op :=
  (List.range 256).filterMap fun b => ofByte? (UInt8.ofNat b)

/-- The opcode of an assembler name. -/
def ofName? (s : String) : Option Op :=
  all.find? fun op => op.name == s

/-- The shape of the opcode's immediate. -/
def immediate : Op → Shape
  | loadInt (.embedded _) | loadLocal (.embedded _) | storeLocal (.embedded _)
  | loadArgument (.embedded _) | shape (.embedded _) | syscall _ => .embedded
  | loadFunction w | loadString w | loadInt (.wide w) | loadLocal (.wide w)
  | storeLocal (.wide w) | loadArgument (.wide w) | branch _ w | guarded (.enter w)
  | shape (.wide w) => w.shape
  | loadInt .qword | loadConstant .float => .qword
  | loadLocal .onStack | storeLocal .onStack | loadArgument .onStack => .onStack
  | _ => .none

/-- The immediate an opcode byte carries in its low three bits. -/
def embeddedImmediate (op : Op) : Nat :=
  op.byte.toNat % 8

/-- The number of phases the machine may need to finish the opcode.  An opcode that can hand off
to a metamethod needs one more phase to collect its result. -/
def phaseCount : Op → Nat
  | binary o => o.phaseCount
  | unary .not | unary .neg => 2
  | table .read | table .update => 2
  | _ => 1

/-- The short form of a long branch. -/
def shortForm? : Op → Option Op
  | branch c .long => some (branch c .short)
  | _ => none

/-- The name of the opcode's category. -/
def categoryName : Op → String
  | binary _ => "BinaryOperator"
  | table _ => "TableVectorOperator"
  | unary _ => "UnaryOperator"
  | scope _ => "ContextOperator"
  | loadFunction _ => "LoadFunction"
  | loadString _ => "LoadString"
  | loadInt _ => "LoadInteger"
  | loadConstant _ => "LoadMisc"
  | loadLocal _ => "LoadLocalVariable"
  | storeLocal _ => "StoreLocalVariable"
  | loadArgument _ => "LoadArgument"
  | branch _ _ => "Branch"
  | guarded _ => "Try"
  | shape _ => "ShapeReturn"
  | syscall _ => "Syscall"
  | control _ => "Others"

/-- The byte of an opcode stands for that opcode. -/
theorem ofByte?_byte (op : Op) : ofByte? op.byte = some op := by
  rcases op with o | o | o | o | w | w | f | c | f | f | f | ⟨c, w⟩ | o | f | s | o
  · cases o <;> rfl
  · cases o <;> rfl
  · cases o <;> rfl
  · cases o <;> rfl
  · cases w <;> rfl
  · cases w <;> rfl
  · rcases f with n | _ | w | _
    · revert n; decide
    · rfl
    · cases w <;> rfl
    · rfl
  · cases c <;> rfl
  · rcases f with n | w | _
    · revert n; decide
    · cases w <;> rfl
    · rfl
  · rcases f with n | w | _
    · revert n; decide
    · cases w <;> rfl
    · rfl
  · rcases f with n | w | _
    · revert n; decide
    · cases w <;> rfl
    · rfl
  · cases c <;> cases w <;> rfl
  · rcases o with w | _ | _
    · cases w <;> rfl
    · rfl
    · rfl
  · rcases f with n | w
    · revert n; decide
    · cases w <;> rfl
  · revert s; decide
  · cases o <;> rfl

/-- An opcode is found only under its own byte. -/
theorem byte_of_ofByte? {b : UInt8} {op : Op} (h : ofByte? b = some op) : op.byte = b := by
  have all : ∀ n : Fin 256, ∀ op ∈ ofByte? (UInt8.ofNat n), op.byte = UInt8.ofNat n := by
    decide +kernel
  have hb := all ⟨b.toNat, b.toNat_lt⟩ op
  simp only [UInt8.ofNat_toNat] at hb
  exact hb h

end Op

end ScriptVm
