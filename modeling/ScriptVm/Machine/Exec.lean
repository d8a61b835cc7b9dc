import ScriptVm.Heap.Text
import ScriptVm.Host

/-!
# Computations of the machine

The machine runs one coroutine.  Its state is the heap, the stacks of the
running coroutine and the state of the host.  A computation either goes on or
stops: with a fault of the program, with a defect, or because it ran out of
fuel.  When it stops, the state is the one at that moment.

This file has the elementary computations on the stacks.  Operands may only be
popped above the `privateBase` of the current frame: below lie its arguments and
local variables, and the frames of its callers.  Delimiters of callers are out of
reach in the same way; a frame without a delimiter of its own falls back on its
`privateBase`.
-/

namespace ScriptVm

/-- The state of the machine while it runs a coroutine. -/
structure Machine (σ : Type) where
  /-- The heap. -/
  heap : Heap
  /-- The stacks of the running coroutine. -/
  memory : Stacks
  /-- Its capacities. -/
  config : Config
  /-- The state of the host. -/
  state : σ

/-- Why a computation stopped. -/
inductive Stop
  | fault (f : Fault)
  | defect (d : Defect)
  /-- The fuel is used up. -/
  | exhausted
  deriving DecidableEq, Repr

/-- Why control leaves a coroutine. -/
inductive Exit
  /-- The entry function has returned. -/
  | finished (values : List Value)
  | yielded (values : List Value)
  /-- Another coroutine is to run. -/
  | switched (coroutine : Ref .coroutine) (args : List Value)
  deriving DecidableEq, Repr

/-- A computation of the machine. -/
abbrev Exec (σ : Type) := EStateM Stop (Machine σ)

namespace Machine

variable {σ : Type}

/-- The machine with its value stack changed. -/
@[inline] def onValues (m : Machine σ) (f : Stack Value → Stack Value) : Machine σ :=
  { m with memory := { m.memory with values := f m.memory.values } }

/-- The machine with its call stack changed. -/
@[inline] def onFrames (m : Machine σ) (f : Stack Frame → Stack Frame) : Machine σ :=
  { m with memory := { m.memory with frames := f m.memory.frames } }

/-- The machine with its delimiter stack changed. -/
@[inline] def onDelimiters (m : Machine σ) (f : Stack Nat → Stack Nat) : Machine σ :=
  { m with memory := { m.memory with delimiters := f m.memory.delimiters } }

/-- The machine with its try stack changed. -/
@[inline] def onMarks (m : Machine σ) (f : Stack TryMark → Stack TryMark) : Machine σ :=
  { m with memory := { m.memory with marks := f m.memory.marks } }

/-- The machine with its heap changed. -/
@[inline] def onHeap (m : Machine σ) (f : Heap → Heap) : Machine σ :=
  { m with heap := f m.heap }

end Machine

/-- The name of a frame in a backtrace. -/
def Heap.frameName (h : Heap) (f : Frame) : String :=
  match f.activity with
  | .bytecode r _ => (h.prototype r).name
  | .async _ => "<async>"

/-- The text that sums up what a frame runs. -/
def Heap.activityText (h : Heap) : Activity → String
  | .bytecode r _ => "Bytecode(" ++ (h.prototype r).name ++ ")"
  | .async _ => "Async"

/-- The backtrace of some stacks, innermost frame first. -/
def Heap.backtrace (h : Heap) (s : Stacks) : List TraceLine :=
  s.frames.toList.reverse.map fun f => ⟨h.frameName f, f.ip⟩

namespace Exec

variable {σ : Type}

/-- Stop with a fault. -/
def fault {α : Type} (f : Fault) : Exec σ α :=
  throw (.fault f)

/-- Stop with a defect. -/
def defect {α : Type} (d : Defect) : Exec σ α :=
  throw (.defect d)

/-- Go on with a result, or stop with its fault. -/
def ofFault {α : Type} : Except Fault α → Exec σ α
  | .ok a => pure a
  | .error f => fault f

/-- Go on with a result, or stop with its defect. -/
def ofDefect {α : Type} : Except Defect α → Exec σ α
  | .ok a => pure a
  | .error d => defect d

/-- The heap. -/
def heap : Exec σ Heap := do
  return (← get).heap

/-- Change the heap. -/
def setHeap (h : Heap) : Exec σ Unit :=
  modify fun m => { m with heap := h }

/-- Make an object. -/
def allocate {k : Kind} (make : Heap → Ref k × Heap) : Exec σ (Ref k) :=
  modifyGet fun m =>
    let (r, h) := make m.heap
    (r, { m with heap := h })

/-- The current frame. -/
def frame : Exec σ Frame := do
  match (← get).memory.frames.last? with
  | some f => return f
  | none => defect .stackUnderflow

/-- Change the current frame. -/
def modifyFrame (f : Frame → Frame) : Exec σ Unit := do
  let _ ← frame
  modify fun m => m.onFrames fun frames => frames.modifyLast f

/-- The height of the value stack. -/
def height : Exec σ Nat := do
  return (← get).memory.values.size

/-- The height of the value stack less `n`, which must not be negative. -/
def heightLess (n : Nat) : Exec σ Nat := do
  let top ← height
  if n ≤ top then return top - n else defect .outOfBounds

/-- Push a value. -/
def push (v : Value) : Exec σ Unit :=
  modify fun m => m.onValues fun values => values.push v

/-- Push several values, the last one uppermost. -/
def pushAll (vs : List Value) : Exec σ Unit :=
  modify fun m => m.onValues fun values => values.pushAll vs

/-- Pop an operand. -/
def pop : Exec σ Value := do
  let floor := (← frame).privateBase
  if (← height) ≤ floor then
    fault .stackUnderflow
  else
    match (← get).memory.values.last? with
    | some v =>
      modify fun m => m.onValues fun values => values.dropLast
      return v
    | none => defect .stackUnderflow

/-- Pop several operands. -/
def popMany : Nat → Exec σ Unit
  | 0 => pure ()
  | n + 1 => do
    let _ ← pop
    popMany n

/-- The operand `offset` places below the top. -/
def peek (offset : Nat) : Exec σ Value := do
  let floor := (← frame).privateBase
  if (← height) ≤ floor + offset then
    fault .stackUnderflow
  else
    ofDefect ((← get).memory.values.top offset)

/-- Pop operands and push a value in their place. -/
def replaceTop (count : Nat) (v : Value) : Exec σ Unit := do
  popMany count
  push v

/-- Write other values over the uppermost ones, as many as there are. -/
def overwriteTop (vs : List Value) : Exec σ Unit := do
  let start ← heightLess vs.length
  modify fun m => m.onValues fun values => (values.truncate start).pushAll vs

/-- The slot at a position of the value stack. -/
def slot (i : Nat) : Exec σ Value := do
  ofDefect ((← get).memory.values.get i)

/-- Write the slot at a position of the value stack. -/
def setSlot (i : Nat) (v : Value) : Exec σ Unit := do
  if i < (← height) then
    modify fun m => m.onValues fun values => values.write i v
  else
    defect .outOfBounds

/-- Take every value from a position upward off the stack. -/
def takeFrom (start : Nat) : Exec σ (List Value) := do
  let taken ← ofDefect ((← get).memory.values.valuesFrom start)
  modify fun m => m.onValues fun values => values.truncate start
  return taken

/-- Cut off, or fill up with nil, what lies above `base` to exactly `size` values. -/
def shape (sizes : Sizes) (base : Nat) : (size : Option Nat) → Exec σ Unit
  | none => pure ()
  | some size => do
    let goal ← ofDefect (sizes.add base size)
    if goal < (← height) then
      modify fun m => m.onValues fun values => values.truncate goal
    else
      modify fun m => m.onValues fun values => values.fillTo goal

/-! ### Delimiters -/

/-- A run of values starts here. -/
def pushDelimiter : Exec σ Unit :=
  modify fun m => m.onDelimiters fun delimiters => delimiters.push m.memory.values.size

/-- A delimiter above the stack top means that its run was popped away. -/
def checkDelimiter (position : Nat) : Exec σ Nat := do
  if (← height) < position then fault .stackUnderflow else return position

/-- Whether the current frame has a delimiter of its own. -/
def ownsDelimiter (f : Frame) : Exec σ Bool := do
  return f.delimiterBase < (← get).memory.delimiters.size

/-- The innermost delimiter of the current frame. -/
def peekDelimiter : Exec σ Nat := do
  let f ← frame
  if ← ownsDelimiter f then
    checkDelimiter (← ofDefect ((← get).memory.delimiters.top 0))
  else
    checkDelimiter f.privateBase

/-- Remove the innermost delimiter of the current frame. -/
def popDelimiter : Exec σ Nat := do
  let f ← frame
  if ← ownsDelimiter f then
    let position ← ofDefect ((← get).memory.delimiters.top 0)
    modify fun m => m.onDelimiters Stack.dropLast
    checkDelimiter position
  else
    checkDelimiter f.privateBase

end Exec

end ScriptVm
