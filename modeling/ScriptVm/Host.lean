import ScriptVm.Heap
import ScriptVm.Sizes

/-!
# The host

What surrounds the machine: functions that programs can call but that are not
bytecode, and system calls.  There are three sorts of host functions.

* A **pure** one only computes results from its arguments.
* An **effectful** one also sees the running coroutine, and may change the state
  of the host.
* An **asynchronous** one opens a call when it is called, and then runs in steps.
  It sees the running coroutine when it opens the call, and gives the call a
  number; what it keeps for the call is in the state of the host.  A step says
  what to do next: finish, yield, switch to another coroutine, or call a
  function.  The next step gets what came of that.  It may depend on the number,
  on the state of the host, and on the argument lists that the steps of the call
  were given so far.

A **system call** may work on the stacks of the running coroutine directly.

The functions of the host and its system calls leave the heap as it is: they
change no object, make none, bind no closure, and resume no coroutine.  All but
system calls leave the coroutine alone as well.  The state `σ` of the host is its
own.
-/

namespace ScriptVm

/-- What a step of an asynchronous function asks for. -/
inductive AsyncStep
  /-- Finish with these results. -/
  | finish (values : List Value)
  /-- Yield these values out of the coroutine. -/
  | yield (values : List Value)
  /-- Switch to another coroutine with these arguments. -/
  | switch (coroutine : Ref .coroutine) (args : List Value)
  /-- Call a function with these arguments. -/
  | call (callee : Value) (args : List Value)
  deriving DecidableEq, Repr

/-- What an effectful function sees of the running coroutine, and an asynchronous one that opens a
call. -/
structure Scene where
  /-- The heap. -/
  heap : Heap
  /-- The stacks of the running coroutine. -/
  memory : Stacks
  /-- The capacities of the running coroutine. -/
  config : Config

/-- What came of a system call: the stacks and the host's state, and whether it went wrong. -/
structure SyscallResult (σ : Type) where
  /-- The stacks afterwards. -/
  memory : Stacks
  /-- The state of the host afterwards. -/
  state : σ
  /-- A request that the stacks could not serve. -/
  defect : Option Defect

/-- A system call. -/
abbrev Syscall (σ : Type) := Heap → Stacks → σ → SyscallResult σ

/-- The host of a machine. -/
structure Host (σ : Type) where
  /-- The limits of sizes. -/
  sizes : Sizes
  /-- Pure functions. -/
  callPure : Ref .pureExternal → Heap → List Value → Except Fault (List Value)
  /-- Effectful functions. -/
  callEffect : Ref .effectExternal → Scene → List Value → σ →
    Except Fault (List Value) × σ
  /-- A call of an asynchronous function is opened, and gets a number. -/
  openAsync : Ref .asyncExternal → Scene → σ → Nat × σ
  /-- A step of the call with a number, by the argument lists of all steps up to the present one. -/
  stepAsync : Ref .asyncExternal → Nat → Heap → List (List Value) → σ →
    Except Fault AsyncStep × σ
  /-- System calls. -/
  syscall : Fin 8 → Option (Syscall σ)

/-- The slot of a system call with a given number. -/
def syscallSlot (index : Nat) : Except UsageError (Fin 8) :=
  if h : index < 8 then .ok ⟨index, h⟩ else .error (.syscallSlotOutOfRange index)

/-- A host without functions and without system calls. -/
def Host.bare : Host Unit where
  sizes := .word64
  callPure := fun _ _ _ => .error (.external "no such function")
  callEffect := fun _ _ _ s => (.error (.external "no such function"), s)
  openAsync := fun _ _ s => (0, s)
  stepAsync := fun _ _ _ _ s => (.error (.external "no such function"), s)
  syscall := fun _ => none

end ScriptVm
