import ScriptVm.Machine.Step

/-!
# Coroutines and their scheduler

Resuming a coroutine moves it through its life:

```text
initial --resume--> running --return or fault--> stopped
                     |   ^
               yield |   | resume
                     v   |
                   suspended
running --switch to another--> inStack --made resumable--> suspended
```

While a coroutine runs, its stacks are with the machine and the heap only knows
that it is running.

The scheduler runs coroutines depth-first on a stack of them.  The top one is
resumed until it returns or yields, which removes it and hands its values to the
one below, or until it asks to switch, which puts another one on top.
-/

namespace ScriptVm

/-- Why a request to the scheduler failed. -/
inductive Failure
  /-- A fault of the program, with the calls that were active. -/
  | runtime (fault : Fault) (backtrace : List TraceLine)
  /-- A wrong request of the host. -/
  | usage (e : UsageError)
  | defect (d : Defect)
  /-- The fuel is used up. -/
  | exhausted
  deriving DecidableEq, Repr

/-- The text of a failure. -/
def Failure.message : Failure → String
  | runtime f _ => "runtime fault: " ++ f.message
  | usage e => e.message
  | defect d => d.message?.getD "internal error"
  | exhausted => "out of fuel"

/-- A scheduler: the heap, the host's state, the capacities of new coroutines, and the coroutines
that are active, the top one first. -/
structure Vm (σ : Type) where
  /-- The heap. -/
  heap : Heap
  /-- The state of the host. -/
  state : σ
  /-- The capacities of coroutines it makes. -/
  config : Config
  /-- The active coroutines, the top one first. -/
  active : List (Ref .coroutine)

/-- A computation of the scheduler. -/
abbrev Schedule (σ : Type) := EStateM Failure (Vm σ)

namespace Coroutine

variable {σ : Type}

/-- Start a coroutine: call its entry with the arguments. -/
def start (host : Host σ) (entry : Value) (context : Option (Ref .context)) (args : List Value) :
    Exec σ Unit := do
  let base ← Exec.height
  Exec.pushAll args
  match entry, context with
  | .function r, some c => Exec.enter host r base none (some c)
  | entry, _ => Exec.invoke host entry base none

/-- What a coroutine does when it is resumed in a state: start, or go on with the values it is
given. -/
def body (host : Host σ) (fuel : Nat) (state : Lifecycle) (entry : Value)
    (context : Option (Ref .context)) (args : List Value) : Exec σ Exit := do
  if state = .initial then
    start host entry context args
  else
    Exec.pushAll args
  Exec.run host fuel

/-- The state in which an exit leaves its coroutine. -/
def stateAfter : Exit → Lifecycle
  | .finished _ => .stopped
  | .yielded _ => .suspended
  | .switched _ _ => .inStack

/-- The coroutine, out for a run: it is running and its stacks are with the machine. -/
def checkedOut (c : Coroutine) : Coroutine :=
  { c with state := .running, entryContext := none, memory := .new c.config }

/-- A machine with the stacks of a coroutine.  The heap knows that it runs. -/
def checkOut (r : Ref .coroutine) (heap : Heap) (state : σ) : Machine σ :=
  let c := heap.coroutine r
  { heap := heap.modifyCoroutine r checkedOut
    memory := c.memory
    config := c.config
    state }

/-- The heap in which a coroutine has its stacks back and is in a new state. -/
def checkIn (r : Ref .coroutine) (state : Lifecycle) (memory : Stacks) (heap : Heap) : Heap :=
  heap.modifyCoroutine r fun c => { c with state, memory }

/-- Resume a coroutine, until control leaves it.  A fault stops it and empties its stacks. -/
def resume (host : Host σ) (fuel : Nat) (r : Ref .coroutine) (args : List Value) :
    Schedule σ Exit := fun vm =>
  let ⟨heap, state, config, active⟩ := vm
  let lifecycle := (heap.coroutine r).state
  if canResume lifecycle then
    let entry := (heap.coroutine r).entry
    let context := (heap.coroutine r).entryContext
    match body host fuel lifecycle entry context args (checkOut r heap state) with
    | .ok exit m =>
      .ok exit ⟨checkIn r (stateAfter exit) m.memory m.heap, m.state, config, active⟩
    | .error (.fault f) m =>
      .error (.runtime f (m.heap.backtrace m.memory))
        ⟨checkIn r .stopped m.memory.clear m.heap, m.state, config, active⟩
    | .error (.defect d) m =>
      .error (.defect d) ⟨checkIn r .running m.memory m.heap, m.state, config, active⟩
    | .error .exhausted m =>
      .error .exhausted ⟨checkIn r .running m.memory m.heap, m.state, config, active⟩
  else
    .error (.usage (refusal lifecycle)) ⟨heap, state, config, active⟩

/-- The heap in which a coroutine that had switched away may be resumed again. -/
def setResumable (r : Ref .coroutine) (h : Heap) : Heap :=
  h.modifyCoroutine r fun c => { c with state := resumable c.state }

end Coroutine

namespace Vm

variable {σ : Type}

/-- A scheduler over an empty heap. -/
def new (config : Config) (state : σ) : Vm σ :=
  ⟨.empty, state, config, []⟩

/-- Go on with a result, or fail with its defect. -/
def ofDefect {α : Type} : Except Defect α → Schedule σ α
  | .ok a => pure a
  | .error d => throw (.defect d)

/-- Make an object of the heap. -/
def allocate {k : Kind} (make : Heap → Ref k × Heap) : Schedule σ (Ref k) :=
  modifyGet fun vm =>
    let (r, h) := make vm.heap
    (r, { vm with heap := h })

/-- Put a coroutine on top of the active ones. -/
def activate (r : Ref .coroutine) : Schedule σ Unit :=
  modify fun vm => { vm with active := r :: vm.active }

/-- Remove the top coroutine. -/
def retire : Schedule σ Unit :=
  modify fun vm => { vm with active := vm.active.tail }

/-- The top coroutine may be resumed again. -/
def readyTop : Schedule σ Unit :=
  modify fun vm => match vm.active with
    | top :: _ => { vm with heap := Coroutine.setResumable top vm.heap }
    | [] => vm

/-- Resume the top coroutine with some values, and whichever comes next with what came of it, until
no more than `floor` coroutines are active. -/
def loop (host : Host σ) (floor : Nat) : (fuel : Nat) → List Value → Schedule σ (List Value)
  | 0, _ => throw .exhausted
  | fuel + 1, values => do
    match (← get).active with
    | [] => return values
    | top :: below =>
      match ← Coroutine.resume host fuel top values with
      | .switched next args =>
        activate next
        loop host floor fuel args
      | .finished results =>
        retire
        if below.length ≤ floor then
          return results
        else
          readyTop
          loop host floor fuel results
      | .yielded results =>
        retire
        if below.length ≤ floor then
          throw (.usage .yieldFromRoot)
        else
          readyTop
          loop host floor fuel results

/-- Run a coroutine until it and every coroutine it started has finished.  After a failure no
coroutine is active; only a defect leaves things as they are. -/
def execute (host : Host σ) (fuel : Nat) (root : Ref .coroutine) (args : List Value) :
    Schedule σ (List Value) := fun vm =>
  let floor := vm.active.length
  match loop host floor fuel args { vm with active := root :: vm.active } with
  | .ok values vm => .ok values vm
  | .error (.runtime f trace) vm => .error (.runtime f trace) { vm with active := [] }
  | .error (.usage e) vm => .error (.usage e) { vm with active := [] }
  | .error e vm => .error e vm

/-- Make a coroutine with the scheduler's capacities and run it. -/
def executeNew (host : Host σ) (fuel : Nat) (entry : Value) (context : Option (Ref .context))
    (args : List Value) : Schedule σ (List Value) := do
  let config := (← get).config
  let made ← ofDefect (Coroutine.make host.sizes entry context config)
  let root ← allocate fun h => h.newCoroutine made
  execute host fuel root args

/-- Run a closure in a new coroutine. -/
def executeFunction (host : Host σ) (fuel : Nat) (r : Ref .function) (args : List Value) :
    Schedule σ (List Value) :=
  executeNew host fuel (.function r) none args

/-- Run a closure in a new coroutine, its first frame directly in the given context. -/
def executeInContext (host : Host σ) (fuel : Nat) (r : Ref .function) (context : Ref .context)
    (args : List Value) : Schedule σ (List Value) :=
  executeNew host fuel (.function r) (some context) args

/-- Call any value that can be called, and run it to its end. -/
def call (host : Host σ) (fuel : Nat) (callee : Value) (args : List Value) :
    Schedule σ (List Value) := do
  if callee.invokable then
    executeNew host fuel callee none args
  else
    throw (.runtime (.notCallable ((← get).heap.display callee)) [])

/-- Run the entry function of a unit, bound to the given context or to a new root. -/
def executeUnit (host : Host σ) (fuel : Nat) (unit : Ref .unit) (args : List Value)
    (context : Option (Ref .context)) : Schedule σ (List Value) := do
  let context ← match context with
    | some c => pure c
    | none => allocate fun h => h.newContext none
  match (← get).heap.entryFunction unit (some context) with
  | .error e => throw (.usage e)
  | .ok (r, h) =>
    modify fun vm => { vm with heap := h }
    executeFunction host fuel r args

/-- The text of a value: a string as it is, what a table's `__str` answers if it has one, and the
plain rendering otherwise. -/
def stringify (host : Host σ) (fuel : Nat) (v : Value) : Schedule σ String := do
  match v with
  | .str s => return s
  | v =>
    match (← get).heap.metamethod v "__str" with
    | none => return (← get).heap.stringify v
    | some method =>
      match ← call host fuel method [v] with
      | .str s :: _ => return s
      | other :: _ => return (← get).heap.stringify other
      | [] => return (← get).heap.stringify .nil

end Vm

end ScriptVm
