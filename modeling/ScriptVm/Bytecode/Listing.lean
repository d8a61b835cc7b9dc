import ScriptVm.Bytecode.Draft

/-!
# Listings

A listing is an assembler text in the abstract: a function as a list of steps,
with labels by name.  Assembling it runs the steps on a draft and a string pool
in order.  A label gets its number at its first mention.  The first step that is
refused ends the assembly.
-/

namespace ScriptVm

namespace Listing

/-- One step of a listing. -/
inductive Step
  /-- An opcode in exactly the given form. -/
  | emit (op : Op) (imm : Int64)
  /-- An integer constant in its most compact form. -/
  | loadInt (n : Int64)
  /-- A float constant, by its bits. -/
  | loadFloat (bits : UInt64)
  /-- A string constant by its index. -/
  | loadString (n : Int64)
  /-- A string constant by its text, interned. -/
  | loadText (s : String)
  /-- A function of the unit. -/
  | loadFunction (n : Int64)
  | loadLocal (n : Int64)
  | storeLocal (n : Int64)
  | loadArgument (n : Int64)
  | shape (n : Int64)
  | syscall (slot : UInt8)
  /-- Bytes as they are. -/
  | raw (bytes : List UInt8)
  /-- The place of a label. -/
  | mark (label : String)
  /-- A branch or try instruction to a label. -/
  | branch (op : Op) (label : String)
  /-- More local variables. -/
  | locals (count : Nat)
  /-- A variable of the frame's context. -/
  | declare (name : String)
  deriving DecidableEq, Repr

/-- What an assembly has produced so far. -/
structure Assembly where
  /-- The function under construction. -/
  draft : Draft
  /-- The strings of the unit under construction. -/
  pool : StringPool
  /-- The labels mentioned, in order of their numbers. -/
  labels : List String
  deriving DecidableEq, Repr

namespace Assembly

/-- The number of a label, given at its first mention. -/
def label (a : Assembly) (name : String) : Nat × Assembly :=
  match a.labels.idxOf? name with
  | some n => (n, a)
  | none =>
    let (n, draft) := a.draft.newLabel
    (n, { a with draft, labels := a.labels ++ [name] })

/-- The assembly with an opcode written. -/
def write (a : Assembly) (op : Op) (imm : Int64) : Assembly :=
  { a with draft := a.draft.emit op imm }

/-- One step. -/
def step (a : Assembly) : Step → Except Defect Assembly
  | .emit op imm => .ok (a.write op imm)
  | .loadInt n => .ok (a.write (Op.compactInt n) n)
  | .loadFloat bits => .ok (a.write (.loadConstant .float) bits.toInt64)
  | .loadString n => .ok (a.write (Op.compactString n) n)
  | .loadText s =>
    let (index, pool) := a.pool.intern s
    let n := Int64.ofNat index
    .ok ({ a with pool }.write (Op.compactString n) n)
  | .loadFunction n => .ok (a.write (Op.compactFunction n) n)
  | .loadLocal n => .ok (a.write (.loadLocal (Op.compactSlot n)) n)
  | .storeLocal n => .ok (a.write (.storeLocal (Op.compactSlot n)) n)
  | .loadArgument n => .ok (a.write (Op.compactArgument n) n)
  | .shape n => .ok (a.write (Op.compactShape n) n)
  | .syscall slot =>
    if h : slot.toNat < 8 then .ok (a.write (.syscall ⟨slot.toNat, h⟩) 0)
    else .error .syscallSlotOutOfRange
  | .raw bytes => .ok { a with draft := a.draft.raw bytes }
  | .mark name =>
    let (n, a) := a.label name
    .ok { a with draft := a.draft.mark n }
  | .branch op name =>
    let (n, a) := a.label name
    match a.draft.branch op n with
    | .ok draft => .ok { a with draft }
    | .error e => .error e
  | .locals count =>
    match a.draft.addLocals count with
    | .ok draft => .ok { a with draft }
    | .error e => .error e
  | .declare name => .ok { a with draft := a.draft.addVariable name }

/-- The assemblies after each finished step, and the defect that ended the list early. -/
def run (a : Assembly) : List Step → List Assembly × Option Defect
  | [] => ([], none)
  | s :: rest =>
    match a.step s with
    | .error e => ([], some e)
    | .ok next =>
      let (states, stop) := next.run rest
      (next :: states, stop)

end Assembly

end Listing

/-- The listing of one function. -/
structure Listing where
  /-- The function's name. -/
  name : String
  /-- Local variables declared up front. -/
  locals : Nat
  /-- Context variables declared up front. -/
  declared : List String
  /-- The steps. -/
  steps : List Listing.Step
  deriving DecidableEq, Repr

namespace Listing

/-- What assembling a listing gives: how far it came, and the function. -/
structure Result where
  /-- The code length after each finished step. -/
  positions : List Nat
  /-- The strings afterwards. -/
  pool : StringPool
  /-- The function, or why there is none. -/
  prototype : Except Defect Prototype

/-- The assembly before the first step. -/
def start (listing : Listing) (pool : StringPool) : Assembly where
  draft := { Draft.new listing.name with
    locals := listing.locals
    declared := listing.declared }
  pool
  labels := []

/-- Assemble a listing over the strings interned so far. -/
def assemble (listing : Listing) (pool : StringPool) : Result :=
  let first := listing.start pool
  let (states, stop) := first.run listing.steps
  let last := states.getLast?.getD first
  { positions := states.map fun a => a.draft.position
    pool := last.pool
    prototype := match stop with
      | some defect => .error defect
      | none => last.draft.build }

/-- Assemble listings in order and add the functions to a unit. -/
def assembleAll (u : UnitDraft) : List Listing → Except Defect UnitDraft
  | [] => .ok u
  | listing :: rest =>
    let result := listing.assemble u.pool
    match result.prototype with
    | .error defect => .error defect
    | .ok prototype => assembleAll ({ u with pool := result.pool }.addFunction prototype).2 rest

/-- The unit of some listings: the given strings are interned first. -/
def assembleUnit (strings : List String) (listings : List Listing) (entry : Nat) :
    Except Defect CodeUnit :=
  let u := strings.foldl (fun u s => (u.intern s).2) UnitDraft.empty
  match assembleAll u listings with
  | .error defect => .error defect
  | .ok u => .ok (u.setEntry entry).build

end Listing

end ScriptVm
