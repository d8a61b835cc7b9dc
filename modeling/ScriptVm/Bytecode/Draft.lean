import ScriptVm.Bytecode.Instruction
import ScriptVm.Bytecode.StringPool
import ScriptVm.CodeUnit
import ScriptVm.Sizes

/-!
# Drafts of functions and units

A draft is a function under construction.  Instructions are written behind each
other; `Op.compact…` chooses the most compact form of an opcode for an
immediate.  A branch to a label leaves four bytes open, and `Draft.build` fills
them in once every label has its place: the distance from behind the four bytes
to the label.
-/

namespace ScriptVm

/-- Whether a number fits a signed byte. -/
def fitsByte (n : Int64) : Bool :=
  -128 ≤ n && n ≤ 127

/-- Whether a number fits a signed word of four bytes. -/
def fitsDword (n : Int64) : Bool :=
  -2147483648 ≤ n && n ≤ 2147483647

/-- Whether a number is one of `0 … bound`. -/
def upTo (bound n : Int64) : Bool :=
  0 ≤ n && n ≤ bound

/-- A number of `0 … bound` as an index. -/
def smallIndex (bound : Nat) (n : Int64) : Fin (bound + 1) :=
  ⟨n.toNatClampNeg % (bound + 1), Nat.mod_lt _ (Nat.succ_pos bound)⟩

namespace Op

/-- The most compact load of an integer. -/
def compactInt (n : Int64) : Op :=
  if n = -1 then loadInt .minusOne
  else if upTo 3 n then loadInt (.embedded (smallIndex 3 n))
  else if fitsByte n then loadInt (.wide .short)
  else if fitsDword n then loadInt (.wide .long)
  else loadInt .qword

/-- The width for an index into the unit's strings or functions. -/
def tableWidth (n : Int64) : Width :=
  if upTo 127 n then .short else .long

/-- The width for any other immediate of the two widths. -/
def wideWidth (n : Int64) : Width :=
  if fitsByte n then .short else .long

/-- The most compact load of a string constant. -/
def compactString (n : Int64) : Op :=
  loadString (tableWidth n)

/-- The most compact load of a function. -/
def compactFunction (n : Int64) : Op :=
  loadFunction (tableWidth n)

/-- The most compact form for the index of a local variable. -/
def compactSlot (n : Int64) : SlotForm :=
  if upTo 7 n then .embedded (smallIndex 7 n) else .wide (wideWidth n)

/-- The most compact load of an argument. -/
def compactArgument (n : Int64) : Op :=
  loadArgument (if upTo 3 n then .embedded (smallIndex 3 n) else .wide (wideWidth n))

/-- The most compact instruction that shapes a run to a number of values. -/
def compactShape (n : Int64) : Op :=
  shape (if upTo 3 n then .embedded (smallIndex 3 n) else .wide (wideWidth n))

end Op

/-- A function under construction. -/
structure Draft where
  /-- The function's name. -/
  name : String
  /-- The code written so far. -/
  code : Bytes
  /-- The number of local variables. -/
  locals : Nat
  /-- The context variables, in order of declaration. -/
  declared : List String
  /-- The place of each label, once it has one. -/
  labels : Array (Option Nat)
  /-- Open branch targets in order: where their four bytes stand, and the label. -/
  fixups : List (Nat × Nat)
  deriving DecidableEq, Repr

namespace Draft

/-- A draft without code. -/
def new (name : String) : Draft :=
  ⟨name, #[], 0, [], #[], []⟩

/-- The address of the next instruction. -/
def position (d : Draft) : Nat :=
  d.code.size

/-- Bytes as they are. -/
def raw (d : Draft) (bytes : List UInt8) : Draft :=
  { d with code := d.code ++ bytes }

/-- An opcode with its immediate. -/
def emit (d : Draft) (op : Op) (imm : Int64) : Draft :=
  d.raw (Instruction.emit op imm)

/-- More local variables; their number has to fit a word. -/
def addLocals (d : Draft) (count : Nat) : Except Defect Draft := do
  let locals ← Sizes.word64.add d.locals count
  return { d with locals }

/-- One more variable of the frame's context. -/
def addVariable (d : Draft) (name : String) : Draft :=
  { d with declared := d.declared ++ [name] }

/-- A new label and the draft that knows it. -/
def newLabel (d : Draft) : Nat × Draft :=
  (d.labels.size, { d with labels := d.labels.push none })

/-- The label's place is here. -/
def mark (d : Draft) (label : Nat) : Draft :=
  { d with labels := d.labels.setIfInBounds label (some d.code.size) }

/-- A branch or try instruction whose target is a label. -/
def branch (d : Draft) (op : Op) (label : Nat) : Except Defect Draft :=
  if op.immediate = .dword then
    .ok { d.emit op 0 with fixups := d.fixups ++ [(d.code.size + 1, label)] }
  else .error (.noTargetForm op)

/-- Code with the bytes from `start` on overwritten. -/
def overwrite (code : Bytes) (start : Nat) : List UInt8 → Bytes
  | [] => code
  | b :: rest => overwrite (code.setIfInBounds start b) (start + 1) rest

/-- The distance that a branch whose target stands at `start` has to its label's place. -/
def distance (start target : Nat) : Int64 :=
  Int64.ofNat target - Int64.ofNat (start + 4)

/-- Fill in the open targets, in order. -/
def resolve (d : Draft) : List (Nat × Nat) → Bytes → Except Defect Bytes
  | [], code => .ok code
  | (start, label) :: rest, code =>
    match (d.labels[label]?).join with
    | none => .error (.unmarkedLabel label d.name)
    | some target =>
      d.resolve rest
        (overwrite code start (Bytes.toLittle 4 (distance start target).toUInt64.toNat))

/-- The finished function. -/
def build (d : Draft) : Except Defect Prototype :=
  match d.resolve d.fixups d.code with
  | .error e => .error e
  | .ok code => .ok ⟨d.name, code, d.locals, d.declared⟩

end Draft

/-- A unit under construction. -/
structure UnitDraft where
  /-- The finished functions. -/
  prototypes : Array Prototype
  /-- The strings interned so far. -/
  pool : StringPool
  /-- The index of the entry function. -/
  entry : Nat
  deriving DecidableEq, Repr

namespace UnitDraft

/-- A unit without functions and strings, entered at 0. -/
def empty : UnitDraft := ⟨#[], .empty, 0⟩

/-- The index of a string, and the unit that holds it there. -/
def intern (u : UnitDraft) (s : String) : Nat × UnitDraft :=
  let (index, pool) := u.pool.intern s
  (index, { u with pool })

/-- The index of a new function, and the unit that holds it there. -/
def addFunction (u : UnitDraft) (prototype : Prototype) : Nat × UnitDraft :=
  (u.prototypes.size, { u with prototypes := u.prototypes.push prototype })

/-- The unit entered at another function. -/
def setEntry (u : UnitDraft) (index : Nat) : UnitDraft :=
  { u with entry := index }

/-- The finished unit. -/
def build (u : UnitDraft) : CodeUnit :=
  ⟨u.prototypes, u.pool.strings, u.entry⟩

end UnitDraft

end ScriptVm
