import ScriptVm.Bytecode.Op
import ScriptVm.Config
import ScriptVm.Fault
import ScriptVm.Sizes
import ScriptVm.Stack

/-!
# Frames, stacks and coroutines

A coroutine owns four stacks.  The **value stack** holds arguments, local
variables and operands; the **call stack** one frame for each active function;
the **delimiter stack** the positions at which runs of values start; the **try
stack** the marks set by `Try`.

The values of a bytecode frame lie on the value stack like this, bottom to top:

```text
stackBase                            privateBase
| arguments … | local variables … | operands …
              localsBase
```

An asynchronous frame has arguments only.

A frame also remembers where it is inside an instruction of several phases
(`Progress`).  A new instruction is decoded only when the last one is finished;
otherwise that one is entered again at its next phase, which is how it picks up
the result of a metamethod.
-/

namespace ScriptVm

/-- Where a frame is inside its current instruction. -/
structure Progress where
  /-- The instruction's opcode, none before the first one. -/
  op : Option Op
  /-- Its immediate. -/
  imm : Int64
  /-- The phase that ran last. -/
  phase : Nat
  /-- The phase to run next. -/
  next : Nat
  /-- The number of phases. -/
  count : Nat
  deriving DecidableEq, Repr

namespace Progress

/-- Before the first instruction. -/
def none : Progress := ⟨.none, 0, 0, 0, 0⟩

/-- At the start of an instruction. -/
def start (op : Op) (imm : Int64) : Progress :=
  ⟨some op, imm, 0, 0, op.phaseCount⟩

/-- Whether every phase has run. -/
def finished (p : Progress) : Bool :=
  p.count ≤ p.next

/-- The instruction is done unless a handler says otherwise. -/
def complete (p : Progress) : Progress :=
  { p with next := p.count }

/-- The next phase becomes the current one. -/
def advance (p : Progress) : Progress :=
  { p with phase := p.next, next := p.count }

end Progress

/-- The phases of an operator that may call one metamethod. -/
inductive OperatorPhase
  /-- Try the native path, or call the metamethod. -/
  | operate
  /-- The metamethod's result is on the stack. -/
  | finish
  deriving DecidableEq, Repr

/-- The phase of a number; every number but 0 is the last phase. -/
def OperatorPhase.ofNumber : Nat → OperatorPhase
  | 0 => operate
  | _ => finish

/-- The phases of `Leq` and `Geq`, which ask `__lss` first and `__equ` only when that was falsy. -/
inductive OrderPhase
  | less
  | equal
  | finish
  deriving DecidableEq, Repr

/-- The phase of a number; every number but 0 and 1 is the last phase. -/
def OrderPhase.ofNumber : Nat → OrderPhase
  | 0 => less
  | 1 => equal
  | _ => finish

/-- A call of an asynchronous function in flight. -/
structure AsyncCall where
  /-- The function. -/
  function : Ref .asyncExternal
  /-- The number under which the function knows this call. -/
  object : Nat
  /-- The argument lists its steps were given so far, oldest first. -/
  history : List (List Value)
  deriving DecidableEq, Repr

/-- What a frame runs. -/
inductive Activity
  /-- Code of a closure, with its variables in a context. -/
  | bytecode (function : Ref .function) (context : Ref .context)
  /-- Steps of a function of the host. -/
  | async (call : AsyncCall)
  deriving DecidableEq, Repr

/-- One activation on the call stack. -/
structure Frame where
  /-- What it runs. -/
  activity : Activity
  /-- Where its arguments start. -/
  stackBase : Nat
  /-- How many arguments it has. -/
  argumentCount : Nat
  /-- Where its local variables start. -/
  localsBase : Nat
  /-- Where its operands start. -/
  privateBase : Nat
  /-- The address of the instruction being executed. -/
  ip : Nat
  /-- The address behind that instruction. -/
  nextIp : Nat
  /-- The size of the delimiter stack when the frame was made. -/
  delimiterBase : Nat
  /-- The size of the try stack when the frame was made. -/
  tryBase : Nat
  /-- How many results the caller wants; none takes them all. -/
  returnSize : Option Nat
  /-- The progress inside the current instruction. -/
  progress : Progress
  deriving DecidableEq, Repr

/-- The context of a bytecode frame. -/
def Frame.context? (f : Frame) : Option (Ref .context) :=
  match f.activity with
  | .bytecode _ context => some context
  | .async _ => none

/-- The number of its local variables. -/
def Frame.localCount (f : Frame) : Nat :=
  f.privateBase - f.localsBase

/-- A mark set by `Try`. -/
structure TryMark where
  /-- The address of the handler. -/
  target : Nat
  /-- The size of the value stack. -/
  stackSize : Nat
  /-- The number of frames. -/
  callDepth : Nat
  /-- The size of the delimiter stack. -/
  delimiterDepth : Nat
  deriving DecidableEq, Repr

/-- The four stacks of a coroutine. -/
structure Stacks where
  /-- Arguments, local variables and operands. -/
  values : Stack Value
  /-- The active functions. -/
  frames : Stack Frame
  /-- Where runs of values start. -/
  delimiters : Stack Nat
  /-- Marks set by `Try`. -/
  marks : Stack TryMark
  deriving DecidableEq, Repr

namespace Stacks

/-- Empty stacks of the configured capacities. -/
def new (config : Config) : Stacks where
  values := .withCapacity config.valueStack
  frames := .withCapacity config.callStack
  delimiters := .withCapacity config.delimiterStack
  marks := .withCapacity Stack.defaultCapacity

/-- The bytes of a slot of the value stack. -/
def valueBytes : Nat := 24

/-- The bytes of a slot of the call stack. -/
def frameBytes : Nat := 120

/-- The bytes of a slot of the delimiter stack. -/
def delimiterBytes : Nat := 8

/-- Empty stacks of the configured capacities, if there can be such. -/
def reserve (sizes : Sizes) (config : Config) : Except Defect Stacks := do
  sizes.reserve valueBytes config.valueStack
  sizes.reserve frameBytes config.callStack
  sizes.reserve delimiterBytes config.delimiterStack
  return new config

/-- The stacks without anything on them. -/
def clear (s : Stacks) : Stacks where
  values := s.values.clear
  frames := s.frames.clear
  delimiters := s.delimiters.clear
  marks := s.marks.clear

end Stacks

/-- A coroutine: what it starts with, where it is in its life, and its stacks. -/
structure Coroutine where
  /-- The function it runs. -/
  entry : Value
  /-- The context its first frame runs in, instead of a new child of the function's own. -/
  entryContext : Option (Ref .context)
  /-- Where it is in its life. -/
  state : Lifecycle
  /-- The capacities it was made with, which it hands on to coroutines it makes. -/
  config : Config
  /-- Its stacks. -/
  memory : Stacks
  deriving DecidableEq, Repr

namespace Coroutine

/-- A coroutine that was never resumed. -/
def new (entry : Value) (context : Option (Ref .context)) (config : Config) : Coroutine :=
  ⟨entry, context, .initial, config, .new config⟩

/-- A coroutine that was never resumed, if there is room for its stacks. -/
def make (sizes : Sizes) (entry : Value) (context : Option (Ref .context)) (config : Config) :
    Except Defect Coroutine := do
  let memory ← Stacks.reserve sizes config
  return { new entry context config with memory }

instance : Inhabited Coroutine := ⟨new .nil none .standard⟩

/-- Whether a coroutine in this state can be resumed. -/
def canResume (state : Lifecycle) : Bool :=
  state = .initial || state = .suspended

/-- What a host is told that resumes a coroutine in a state in which it cannot be resumed. -/
def refusal (state : Lifecycle) : UsageError :=
  .invalidResume state

/-- The state of a coroutine that may be resumed again after a switch. -/
def resumable : Lifecycle → Lifecycle
  | .inStack => .suspended
  | state => state

end Coroutine

end ScriptVm
