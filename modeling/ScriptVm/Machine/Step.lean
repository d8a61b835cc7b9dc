import ScriptVm.Bytecode.Instruction
import ScriptVm.Machine.Operate

/-!
# Steps of the machine

A step executes one instruction, or one phase of it, of the frame on top of the
call stack; or one step of an asynchronous call.  When no frame is left, the
coroutine is done and whatever is on its value stack are its results.

`run` makes steps until control leaves the coroutine.
-/

namespace ScriptVm.Exec

variable {σ : Type}

/-! ### Fetching -/

/-- Decode the next instruction of a bytecode frame.  The frame counts as finished with it unless a
handler says otherwise. -/
def fetchNext (r : Ref .function) : Exec σ (Op × Int64 × Nat) := do
  modifyFrame fun f => { f with ip := f.nextIp }
  let f ← frame
  let instruction ← ofFault (Instruction.decode ((← heap).prototype r).code f.ip)
  modifyFrame fun f => { f with nextIp := instruction.next }
  match instruction.op with
  | none => fault (.unknownOp instruction.byte)
  | some op =>
    let imm ← if instruction.onStack then do
        ofFault ((← heap).integer (← pop))
      else pure instruction.imm
    modifyFrame fun f => { f with progress := (Progress.start op imm).complete }
    return (op, imm, 0)

/-- The next instruction of a bytecode frame, or the one it is in the middle of, with the phase to
run. -/
def fetch (r : Ref .function) : Exec σ (Op × Int64 × Nat) := do
  let progress := (← frame).progress
  if progress.finished then
    fetchNext r
  else
    modifyFrame fun f => { f with progress := f.progress.advance }
    match progress.op with
    | some op => return (op, progress.imm, progress.next)
    | none => fetchNext r

/-! ### Loads and stores -/

/-- Load a function of the unit, not bound to any context. -/
def loadFunction (r : Ref .function) (imm : Int64) : Exec σ Unit := do
  let h ← heap
  let unit := (h.function r).unit
  let bound := (h.unit unit).prototypes.size
  if imm < 0 ∨ bound ≤ imm.toNatClampNeg then
    fault (.functionIndexOutOfRange imm bound)
  else
    let (made, h) ← ofDefect (h.newFunction unit imm.toNatClampNeg none)
    setHeap h
    push (.function made)

/-- Load a string constant of the unit. -/
def loadString (r : Ref .function) (imm : Int64) : Exec σ Unit := do
  let h ← heap
  let strings := (h.unit (h.function r).unit).strings
  match (if imm < 0 then none else strings[imm.toNatClampNeg]?) with
  | some s => push (.str s)
  | none => fault (.stringIndexOutOfRange imm strings.size)

/-- Load a value that needs nothing of the unit. -/
def loadConstant (host : Host σ) (c : Constant) (imm : Int64) : Exec σ Unit := do
  match c with
  | .newTable => push (.table (← allocate Heap.newTable))
  | .nil => push .nil
  | .float => push (.float imm.toUInt64)
  | .newVector =>
    ofDefect (host.sizes.reserve Stacks.valueBytes (← get).config.vector)
    push (.vector (← allocate fun h => h.newVector []))
  | .true => push (.bool true)
  | .false => push (.bool false)
  | .argumentCount => push (.int (Int64.ofNat (← frame).argumentCount))

/-- The position of a local variable on the value stack. -/
def localSlot (imm : Int64) : Exec σ Nat := do
  let f ← frame
  let bound := f.localCount
  if imm < 0 ∨ bound ≤ imm.toNatClampNeg then
    fault (.localIndexOutOfRange imm bound)
  else
    return f.localsBase + imm.toNatClampNeg

/-- Load a local variable. -/
def loadLocal (imm : Int64) : Exec σ Unit := do
  push (← slot (← localSlot imm))

/-- Store into a local variable. -/
def storeLocal (imm : Int64) : Exec σ Unit := do
  let i ← localSlot imm
  let value ← pop
  setSlot i value

/-- Load an argument; nil where there is none. -/
def loadArgument (imm : Int64) : Exec σ Unit := do
  let f ← frame
  if 0 ≤ imm ∧ imm.toNatClampNeg < f.argumentCount then
    push (← slot (f.stackBase + imm.toNatClampNeg))
  else
    push .nil

/-! ### Control flow -/

/-- The address `imm` bytes behind the current instruction. -/
def jumpTarget (r : Ref .function) (imm : Int64) : Exec σ Nat := do
  let len := ((← heap).prototype r).code.size
  let target := Int64.ofNat (← frame).nextIp + imm
  if target < 0 ∨ len < target.toNatClampNeg then
    fault (.invalidInstructionPointer target len)
  else
    return target.toNatClampNeg

/-- Whether a branch is taken; all but the unconditional one pop an operand. -/
def condition : Condition → Exec σ Bool
  | .always => pure true
  | .falsy => do return !(← pop).truthy
  | .truthy => do return (← pop).truthy
  | .isNil => do return (← pop).isNil
  | .notNil => do return !(← pop).isNil

/-- A branch. -/
def branch (r : Ref .function) (c : Condition) (imm : Int64) : Exec σ Unit := do
  if ← condition c then
    let target ← jumpTarget r imm
    modifyFrame fun f => { f with nextIp := target }

/-- An instruction on try marks.  Marks are kept, but a fault does not look at them. -/
def tryOperator (r : Ref .function) (op : TryOp) (imm : Int64) : Exec σ Unit := do
  match op with
  | .enter _ =>
    let target ← jumpTarget r imm
    modify fun m => m.onMarks fun marks =>
      marks.push ⟨target, m.memory.values.size, m.memory.frames.size, m.memory.delimiters.size⟩
  | .leave =>
    if (← frame).tryBase < (← get).memory.marks.size then
      modify fun m => m.onMarks Stack.dropLast
  | .throw =>
    let value ← pop
    fault (.thrown ((← heap).display value))

/-- Shape the run since the innermost delimiter to a number of values; a negative one counts as
zero. -/
def shapeRun (host : Host σ) (imm : Int64) : Exec σ Unit := do
  let start ← popDelimiter
  shape host.sizes start (some imm.toNatClampNeg)

/-- A system call; an empty slot does nothing. -/
def syscall (host : Host σ) (index : Fin 8) : Exec σ Unit := do
  match host.syscall index with
  | none => pure ()
  | some call =>
    let m ← get
    let result := call m.heap m.memory m.state
    set { m with memory := result.memory, state := result.state }
    match result.defect with
    | some d => defect d
    | none => pure ()

/-! ### The stack, calls and coroutines -/

/-- A coroutine can be made over a closure or an asynchronous function. -/
def coroutineEntry (h : Heap) : Value → Except Fault Value
  | .function r => .ok (.function r)
  | .asyncFn r => .ok (.asyncFn r)
  | other => .error (h.mismatch .function other)

/-- An instruction on the stack, a call or a coroutine. -/
def control (host : Host σ) (context : Ref .context) : ControlOp → Exec σ (Option Exit)
  | .dup => do
    push (← peek 0)
    return none
  | .pop => do
    let _ ← pop
    return none
  | .makeCoroutine => do
    let entry ← ofFault (coroutineEntry (← heap) (← pop))
    let config := (← get).config
    let made ← ofDefect (Coroutine.make host.sizes entry none config)
    push (.coroutine (← allocate fun h => h.newCoroutine made))
    return none
  | .yield => do
    let start ← peekDelimiter
    return some (.yielded (← takeFrom start))
  | .resume => do
    let coroutine ← ofFault ((← heap).asCoroutine (← pop))
    let start ← peekDelimiter
    return some (.switched coroutine (← takeFrom start))
  | .delimit => do
    pushDelimiter
    return none
  | .call => do
    let callee ← pop
    let base ← peekDelimiter
    invoke host callee base none
    return none
  | .ret => do
    ret host
    return none
  | .bind => do
    let r ← ofFault ((← heap).asFunction (← peek 0))
    modify fun m => m.onHeap fun h => h.bind r context
    return none
  | .undelimit => do
    let _ ← popDelimiter
    return none
  | .dupRun => do
    let start ← peekDelimiter
    let run ← ofDefect ((← get).memory.values.valuesFrom start)
    pushDelimiter
    pushAll run
    return none
  | .pack => do
    let start ← popDelimiter
    let items ← takeFrom start
    push (.vector (← allocate fun h => h.newVector items))
    return none
  | .unpack => do
    let v ← ofFault ((← heap).asVector (← pop))
    let items := ((← heap).vector v).toList
    pushDelimiter
    pushAll items
    return none
  | .nop => return none

/-! ### Steps -/

/-- Execute one phase of an instruction of a bytecode frame. -/
def execute (host : Host σ) (r : Ref .function) (context : Ref .context) (op : Op) (imm : Int64)
    (phase : Nat) : Exec σ (Option Exit) := do
  match op with
  | .binary o => binaryOperator host o phase; return none
  | .table o => tableOperator host o phase; return none
  | .unary o => unaryOperator host o phase; return none
  | .scope o => scopeOperator context o; return none
  | .loadFunction _ => loadFunction r imm; return none
  | .loadString _ => loadString r imm; return none
  | .loadInt .minusOne => push (.int (-1)); return none
  | .loadInt _ => push (.int imm); return none
  | .loadConstant c => loadConstant host c imm; return none
  | .loadLocal _ => loadLocal imm; return none
  | .storeLocal _ => storeLocal imm; return none
  | .loadArgument _ => loadArgument imm; return none
  | .branch c _ => branch r c imm; return none
  | .guarded o => tryOperator r o imm; return none
  | .shape _ => shapeRun host imm; return none
  | .syscall index => syscall host index; return none
  | .control o => control host context o

/-- One step of the running coroutine. -/
def step (host : Host σ) : Exec σ (Option Exit) := do
  match (← get).memory.frames.last? with
  | none => return some (.finished (← takeFrom 0))
  | some f =>
    match f.activity with
    | .bytecode r context =>
      let (op, imm, phase) ← fetch r
      execute host r context op imm phase
    | .async call => stepAsync host f call

/-- Make steps until control leaves the coroutine. -/
def run (host : Host σ) : (fuel : Nat) → Exec σ Exit
  | 0 => throw .exhausted
  | fuel + 1 => do
    match ← step host with
    | some exit => return exit
    | none => run host fuel

end ScriptVm.Exec
