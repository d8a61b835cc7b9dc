import ScriptVm.Heap.Scope
import ScriptVm.Machine.Exec

/-!
# Calls and returns

Every call goes through `invoke`: the `Call` instruction, metamethods, calls made
by asynchronous steps and the entry of a coroutine.  The arguments lie on the
value stack from `base` upward, and the results end up there as well, cut off or
filled up to the number that the caller wants.

Bytecode and asynchronous functions get a frame.  Pure and effectful functions of
the host are done before `invoke` is.
-/

namespace ScriptVm.Exec

variable {σ : Type}

/-- Make a frame for a closure whose arguments start at `base`.  It runs in the given context, or in
a new child of the context the closure is bound to. -/
def enter (host : Host σ) (r : Ref .function) (base : Nat) (returnSize : Option Nat)
    (context : Option (Ref .context)) : Exec σ Unit := do
  let prototype := (← heap).prototype r
  let argumentCount ← heightLess base
  let localsBase ← height
  let privateBase ← ofDefect (host.sizes.add localsBase prototype.locals)
  let context ← match context with
    | some c => pure c
    | none => allocate fun h => h.newContext (h.function r).parent
  modify fun m => m.onHeap fun h => h.declareVariables context prototype.declared
  modify fun m => m.onValues fun values => values.fillTo privateBase
  modify fun m => m.onFrames fun frames => frames.push {
    activity := .bytecode r context
    stackBase := base
    argumentCount
    localsBase
    privateBase
    ip := 0
    nextIp := 0
    delimiterBase := m.memory.delimiters.size
    tryBase := m.memory.marks.size
    returnSize
    progress := .none }

/-- Let an asynchronous function open a call, with the arguments still on the stack. -/
def openCall (host : Host σ) (r : Ref .asyncExternal) : Exec σ Nat := do
  let m ← get
  let (object, state) := host.openAsync r ⟨m.heap, m.memory, m.config⟩ m.state
  set { m with state }
  return object

/-- Make a frame for a call of an asynchronous function. -/
def enterAsync (host : Host σ) (r : Ref .asyncExternal) (base : Nat) (returnSize : Option Nat) :
    Exec σ Unit := do
  let object ← openCall host r
  let argumentCount ← heightLess base
  modify fun m => m.onFrames fun frames => frames.push {
    activity := .async ⟨r, object, []⟩
    stackBase := base
    argumentCount
    localsBase := m.memory.values.size
    privateBase := m.memory.values.size
    ip := 0
    nextIp := 0
    delimiterBase := m.memory.delimiters.size
    tryBase := m.memory.marks.size
    returnSize
    progress := .none }

/-- Run an effectful function of the host on its arguments. -/
def runEffect (host : Host σ) (r : Ref .effectExternal) (args : List Value) :
    Exec σ (List Value) := do
  let m ← get
  let (result, state) := host.callEffect r ⟨m.heap, m.memory, m.config⟩ args m.state
  set { m with state }
  ofFault result

/-- Call a value with the arguments from `base` upward. -/
def invoke (host : Host σ) (callee : Value) (base : Nat) (returnSize : Option Nat) :
    Exec σ Unit := do
  match callee with
  | .function r => enter host r base returnSize none
  | .pureFn r =>
    let args ← takeFrom base
    let results ← ofFault (host.callPure r (← heap) args)
    pushAll results
    shape host.sizes base returnSize
  | .effectFn r =>
    let args ← takeFrom base
    let results ← runEffect host r args
    pushAll results
    shape host.sizes base returnSize
  | .asyncFn r => enterAsync host r base returnSize
  | other => fault (.notCallable ((← heap).display other))

/-- Remove the current frame and leave its results where its arguments started. -/
def leave (host : Host σ) (results : List Value) : Exec σ Unit := do
  let f ← frame
  modify fun m => m.onFrames Stack.dropLast
  modify fun m => m.onValues fun values => values.truncate f.stackBase
  pushAll results
  shape host.sizes f.stackBase f.returnSize
  modify fun m => m.onDelimiters fun delimiters => delimiters.truncate f.delimiterBase
  modify fun m => m.onMarks fun marks => marks.truncate f.tryBase

/-- Return the run of values since the innermost delimiter. -/
def ret (host : Host σ) : Exec σ Unit := do
  let start ← popDelimiter
  let results ← takeFrom start
  leave host results

/-- The call of an asynchronous frame with one more argument list in its history. -/
def recordStep (f : Frame) (history : List (List Value)) : Frame :=
  match f.activity with
  | .async call => { f with activity := .async { call with history } }
  | .bytecode _ _ => f

/-- Ask an asynchronous function of the host for its next step. -/
def askStep (host : Host σ) (r : Ref .asyncExternal) (object : Nat) (history : List (List Value)) :
    Exec σ AsyncStep := do
  let m ← get
  let (result, state) := host.stepAsync r object m.heap history m.state
  set { m with state }
  ofFault result

/-- Run the next step of the asynchronous call on top of the call stack.  It gets the values above
the frame's base: the arguments at first, what came of the previous step later. -/
def stepAsync (host : Host σ) (f : Frame) (call : AsyncCall) : Exec σ (Option Exit) := do
  let args ← takeFrom f.stackBase
  let history := call.history ++ [args]
  modifyFrame fun f => recordStep f history
  match ← askStep host call.function call.object history with
  | .finish results =>
    leave host results
    return none
  | .yield values => return some (.yielded values)
  | .switch coroutine args => return some (.switched coroutine args)
  | .call callee args =>
    pushAll args
    invoke host callee f.stackBase none
    return none

end ScriptVm.Exec
