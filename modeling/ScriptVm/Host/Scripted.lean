import ScriptVm.Machine.Exec

/-!
# A host made of scripts

Functions of the host and system calls given by small scripts.  They are enough
to see what a program does with its host: they compute, fail, look at the
running coroutine, yield, switch, call back, and move things on the stacks.

What a script is asked to record becomes an `Event`.  An event keeps the heap as
it was at that moment, so it can be shown later.
-/

namespace ScriptVm.Scripted

/-- Something that a script recorded. -/
inductive Event
  /-- A list of values. -/
  | logged (heap : Heap) (values : List Value)
  /-- The stacks of the running coroutine. -/
  | dumped (heap : Heap) (memory : Stacks)

/-- Pure functions. -/
inductive PureScript
  /-- The sum of integers. -/
  | sum
  /-- The arguments as they are. -/
  | same
  /-- The arguments in reverse. -/
  | reversed
  /-- The number of arguments. -/
  | count
  /-- The same results always. -/
  | constant (results : List Value)
  /-- A fault with the text of the first value. -/
  | fail (values : List Value)
  deriving DecidableEq, Repr

/-- Effectful functions. -/
inductive EffectScript
  /-- Record the arguments. -/
  | log (results : List Value)
  /-- The number of frames. -/
  | depth
  /-- The state of the running coroutine. -/
  | state
  /-- The values on the stack. -/
  | stack
  /-- The backtrace. -/
  | trace
  /-- The capacities. -/
  | config
  /-- Make the running coroutine resumable and try to resume it. -/
  | reenter
  /-- A fault with the text of the first value. -/
  | fail (values : List Value)
  deriving DecidableEq, Repr

/-- Which values a step of an asynchronous function hands on. -/
inductive Choice
  /-- The arguments of this step. -/
  | args
  /-- The arguments without the first. -/
  | rest
  /-- The arguments remembered. -/
  | saved
  /-- The arguments remembered, without the first. -/
  | savedRest
  | values (vs : List Value)
  deriving DecidableEq, Repr

/-- Which single value a step picks. -/
inductive Pick
  | arg (n : Nat)
  | saved (n : Nat)
  | value (v : Value)
  deriving DecidableEq, Repr

/-- What a step does. -/
inductive Action
  | finish
  | yield
  | resume (coroutine : Pick)
  | call (callee : Pick)
  | fail (text : String)
  deriving DecidableEq, Repr

/-- One step of an asynchronous function. -/
structure AsyncScript where
  /-- What it does. -/
  action : Action
  /-- The values it hands on. -/
  choice : Choice
  /-- Whether it first remembers its arguments. -/
  save : Bool
  deriving DecidableEq, Repr

/-- One action of a system call. -/
inductive SyscallScript
  | push (v : Value)
  | pop
  /-- Push the height of the value stack. -/
  | height
  | truncate (n : Nat)
  /-- Push a nil. -/
  | slot
  | pushDelimiter (n : Nat)
  | popDelimiter
  | setNextIp (n : Nat)
  | setReturnSize (n : Option Nat)
  /-- Record the stacks. -/
  | dump
  deriving DecidableEq, Repr

/-- The scripts that references of the host lead to. -/
structure Library where
  /-- Pure functions. -/
  pures : Array PureScript
  /-- Effectful functions. -/
  effects : Array EffectScript
  /-- Asynchronous functions. -/
  asyncs : Array (List AsyncScript)

instance : Inhabited Library := ⟨⟨#[], #[], #[]⟩⟩

/-- The fault of a function that fails. -/
def failure (h : Heap) (values : List Value) : Fault :=
  .external ((values.head?.map h.display).getD "boom")

/-- The sum of some values, which all have to be integers. -/
def sumOf (h : Heap) : Int64 → List Value → Except Fault Int64
  | total, [] => .ok total
  | total, v :: rest => do
    let i ← h.integer v
    sumOf h (total + i) rest

/-- Run a pure function. -/
def runPure (h : Heap) (args : List Value) : PureScript → Except Fault (List Value)
  | .sum => (sumOf h 0 args).map fun total => [.int total]
  | .same => .ok args
  | .reversed => .ok args.reverse
  | .count => .ok [.int (Int64.ofNat args.length)]
  | .constant results => .ok results
  | .fail values => .error (failure h values)

/-- A natural number as a value. -/
def number (n : Nat) : Value := .int (Int64.ofNat n)

/-- Run an effectful function. -/
def runEffect (scene : Scene) (args : List Value) (events : Array Event) :
    EffectScript → Except Fault (List Value) × Array Event
  | .log results => (.ok results, events.push (.logged scene.heap args))
  | .depth => (.ok [number scene.memory.frames.size], events)
  | .state => (.ok [.str Lifecycle.running.name], events)
  | .stack => (.ok scene.memory.values.toList, events)
  | .trace =>
    (.ok ((scene.heap.backtrace scene.memory).map fun line => .str line.text), events)
  | .config =>
    let c := scene.config
    (.ok ([c.valueStack, c.callStack, c.delimiterStack, c.vector].map number), events)
  | .reenter =>
    let state := Coroutine.resumable .running
    (.ok (if Coroutine.canResume state then [] else [.str (Coroutine.refusal state).message]),
      events)
  | .fail values => (.error (failure scene.heap values), events)

/-- The arguments that are remembered after the steps of a history: those of the last step that was
told to. -/
def savedArgs (script : List AsyncScript) (history : List (List Value)) : List Value :=
  (script.zip history).foldl (fun saved (step, args) => if step.save then args else saved) []

/-- The values of a choice. -/
def Choice.eval (given remembered : List Value) : Choice → List Value
  | .args => given
  | .rest => given.tail
  | .saved => remembered
  | .savedRest => remembered.tail
  | .values vs => vs

/-- The value of a pick; nil where there is none. -/
def Pick.eval (given remembered : List Value) : Pick → Value
  | .arg n => given.getD n .nil
  | .saved n => remembered.getD n .nil
  | .value v => v

/-- Run a step of an asynchronous function.  Behind the last step a call returns its arguments. -/
def runAsync (h : Heap) (script : List AsyncScript) (history : List (List Value)) :
    Except Fault AsyncStep :=
  let args := history.getLast?.getD []
  match script[history.length - 1]? with
  | none => .ok (.finish args)
  | some step =>
    let saved := savedArgs script history
    let values := step.choice.eval args saved
    match step.action with
    | .finish => .ok (.finish values)
    | .yield => .ok (.yield values)
    | .resume coroutine =>
      (h.asCoroutine (coroutine.eval args saved)).map fun r => .switch r values
    | .call callee => .ok (.call (callee.eval args saved) values)
    | .fail text => .error (.external text)

/-- A result of a system call that went well. -/
def done (memory : Stacks) (events : Array Event) : SyscallResult (Array Event) :=
  ⟨memory, events, none⟩

/-- The stacks with the current frame changed. -/
def onFrame (memory : Stacks) (f : Frame → Frame) : Stacks :=
  { memory with frames := memory.frames.modifyLast f }

/-- Run one action of a system call. -/
def runSyscallStep (h : Heap) (memory : Stacks) (events : Array Event) :
    SyscallScript → SyscallResult (Array Event)
  | .push v => done { memory with values := memory.values.push v } events
  | .pop =>
    match memory.values.pop with
    | .ok (_, values) => done { memory with values } events
    | .error d => ⟨memory, events, some d⟩
  | .height =>
    done { memory with values := memory.values.push (number memory.values.size) } events
  | .truncate n => done { memory with values := memory.values.truncate n } events
  | .slot => done { memory with values := memory.values.push .nil } events
  | .pushDelimiter n => done { memory with delimiters := memory.delimiters.push n } events
  | .popDelimiter =>
    match memory.delimiters.pop with
    | .ok (_, delimiters) => done { memory with delimiters } events
    | .error d => ⟨memory, events, some d⟩
  | .setNextIp n => done (onFrame memory fun f => { f with nextIp := n }) events
  | .setReturnSize n => done (onFrame memory fun f => { f with returnSize := n }) events
  | .dump => done memory (events.push (.dumped h memory))

/-- Run a system call, up to the first action that goes wrong. -/
def runSyscall (script : List SyscallScript) : Syscall (Array Event) := fun h memory events =>
  match script with
  | [] => done memory events
  | step :: rest =>
    let result := runSyscallStep h memory events step
    match result.defect with
    | some _ => result
    | none => runSyscall rest h result.memory result.state

/-- The host of a library and of the system calls that are registered. -/
def Library.host (library : Library) (syscalls : Fin 8 → Option (List SyscallScript)) :
    Host (Array Event) where
  sizes := .word64
  callPure := fun r h args =>
    match library.pures[r.index]? with
    | some script => runPure h args script
    | none => .ok []
  callEffect := fun r scene args events =>
    match library.effects[r.index]? with
    | some script => runEffect scene args events script
    | none => (.ok [], events)
  openAsync := fun _ _ events => (0, events)
  stepAsync := fun r _ h history events =>
    (runAsync h (library.asyncs.getD r.index []) history, events)
  syscall := fun slot => (syscalls slot).map runSyscall

end ScriptVm.Scripted
