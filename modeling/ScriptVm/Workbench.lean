import ScriptVm.Workbench.Answer
import ScriptVm.Workbench.Command

/-!
# The workbench

A scheduler with a host of scripts, some named objects, and the numbers under
which objects are shown.  `Workbench.run` performs a command and answers with
what was recorded meanwhile and what came of it.

A refused command changes nothing but what it had already done: a run that
faults keeps its effects on the heap.
-/

namespace ScriptVm

/-- A workbench. -/
structure Workbench where
  /-- The scheduler; its host's state is what was recorded during the present command. -/
  vm : Vm (Array Scripted.Event)
  /-- The functions of the host. -/
  library : Scripted.Library
  /-- The system calls. -/
  syscalls : Fin 8 → Option (List Scripted.SyscallScript)
  /-- Lists of values by name, the latest first. -/
  values : List (String × List Value)
  /-- Units by name, the latest first. -/
  units : List (String × Ref .unit)
  /-- Contexts by name, the latest first. -/
  contexts : List (String × Ref .context)
  /-- The numbers of the objects shown so far. -/
  numbering : Numbering

namespace Workbench

/-- An empty workbench whose coroutines have the given capacities. -/
def new (config : Config) : Workbench where
  vm := .new config #[]
  library := default
  syscalls := fun _ => none
  values := []
  units := []
  contexts := []
  numbering := .empty

/-- Work at the bench, which may be refused. -/
abbrev Work := EStateM Refusal Workbench

namespace Work

/-- The heap. -/
def heap : Work Heap := do
  return (← get).vm.heap

/-- Change the heap. -/
def modifyHeap (f : Heap → Heap) : Work Unit :=
  modify fun b => { b with vm := { b.vm with heap := f b.vm.heap } }

/-- Change the heap and take what came of it. -/
def onHeap {α : Type} (f : Heap → α × Heap) : Work α := do
  let (a, h) := f (← heap)
  modifyHeap fun _ => h
  return a

/-- A result, or the refusal for a fault. -/
def ofFault {α : Type} : Except Fault α → Work α
  | .ok a => pure a
  | .error f => throw (.fault f)

/-- A result, or the refusal for a usage error. -/
def ofUsage {α : Type} : Except UsageError α → Work α
  | .ok a => pure a
  | .error e => throw (.failure (.usage e))

/-- A result, or the refusal for a defect. -/
def ofDefect {α : Type} : Except Defect α → Work α
  | .ok a => pure a
  | .error d => throw (.failure (.defect d))

/-- Let the scheduler work. -/
def schedule {α : Type} (act : Schedule (Array Scripted.Event) α) : Work (Except Failure α) :=
  fun b => match act b.vm with
    | .ok a vm => .ok (.ok a) { b with vm }
    | .error e vm => .ok (.error e) { b with vm }

/-- Let the scheduler work, and refuse the command if it fails. -/
def scheduled {α : Type} (act : Schedule (Array Scripted.Event) α) : Work α := do
  match ← schedule act with
  | .ok a => return a
  | .error e => throw (.failure e)

/-- The host. -/
def host : Work (Host (Array Scripted.Event)) := do
  let b ← get
  return b.library.host b.syscalls

/-- Give a list of values a name, if there is one to give. -/
def keep (name : Option String) (values : List Value) : Work Unit :=
  match name with
  | some name => modify fun b => { b with values := (name, values) :: b.values }
  | none => pure ()

/-! ### New values -/

/-- A new vector. -/
def newVector (items : List Value) : Work Value := do
  return .vector (← onHeap fun h => h.newVector items)

/-- A new table with entries stored in order.  Only a table can be its metatable. -/
def newTable (entries : List (Value × Value)) (metatable : Value) : Work Value := do
  let t ← onHeap Heap.newTable
  modifyHeap fun h => entries.foldl (fun h (key, value) => h.writeEntry t key value) h
  match metatable with
  | .table m => modifyHeap fun h => h.modifyTable t fun table => { table with metatable := some m }
  | _ => pure ()
  return .table t

/-- A new pure function. -/
def newPure (script : Scripted.PureScript) : Work Value := do
  let n := (← get).library.pures.size
  modify fun b => { b with library := { b.library with pures := b.library.pures.push script } }
  return .pureFn ⟨n⟩

/-- A new effectful function. -/
def newEffect (script : Scripted.EffectScript) : Work Value := do
  let n := (← get).library.effects.size
  modify fun b => { b with library := { b.library with effects := b.library.effects.push script } }
  return .effectFn ⟨n⟩

/-- A new asynchronous function. -/
def newAsync (script : List Scripted.AsyncScript) : Work Value := do
  let n := (← get).library.asyncs.size
  modify fun b => { b with library := { b.library with asyncs := b.library.asyncs.push script } }
  return .asyncFn ⟨n⟩

/-- A new closure; the prototype has to exist. -/
def newFunction (unit : Ref .unit) (index : Nat) (context : Option (Ref .context)) :
    Work Value := do
  let (r, h) ← ofDefect ((← heap).newFunction unit index context)
  modifyHeap fun _ => h
  return .function r

/-- The unit of a source. -/
def buildUnit : UnitSource → Work CodeUnit
  | .listings strings functions entry => ofDefect (Listing.assembleUnit strings functions entry)
  | .binary bytes =>
    match CodeUnit.ofBinary bytes with
    | .ok u => pure u
    | .error e => throw (.unitFile e)

/-! ### Performing commands

What a command answers is shown only once the events have been numbered, so
performing it answers with a computation in the numbering state. -/

/-- An answer to be shown. -/
abbrev Pending := StateM Numbering Answer

/-- Answer with how many entries and how many buckets a table has. -/
def tableSizes (t : Ref .table) : Work Pending := do
  let table := (← heap).table t
  return pure (.numbers [table.size, table.bucketCount])

/-- Perform a command on a table. -/
def onTable (t : Ref .table) : TableCommand → Work Pending
  | .store rule key value => do
    let keys := rule.comparer (← heap)
    modifyHeap fun h => h.modifyTable t fun table => table.insert keys key value
    tableSizes t
  | .append hash key value => do
    modifyHeap fun h => h.modifyTable t fun table => table.append hash key value
    tableSizes t
  | .find rule key => do
    let h ← heap
    let keys := rule.comparer h
    let id := (h.table t).find? keys key
    return .found id <$> h.view? ((h.table t).get? keys key)
  | .chain hash => do
    let ids := ((← heap).table t).chain hash
    return pure (.numbers ids)
  | .entry id => do
    let h ← heap
    match (h.table t).entries[id]? with
    | none => throw (.failure (.defect .outOfBounds))
    | some e => return do
      let key ← h.view e.key
      return .entry e.hash key (← h.view e.value)
  | .setMetatable m => do
    let metatable := match m with
      | .table m => some m
      | _ => none
    modifyHeap fun h => h.modifyTable t fun table => { table with metatable }
    return .value <$> (← heap).view (.table t)
  | .method name => do
    let h ← heap
    return .item <$> h.view? (h.tableMethod t name)
  | .inspect => do
    let h ← heap
    let table := h.table t
    return do
      return .table table.size table.bucketCount (← h.views table.keys) table.summary

/-- Perform a command on a vector. -/
def onVector (r : Ref .vector) : VectorCommand → Work Pending
  | .push v => do
    modifyHeap fun h => h.modifyVector r fun items => items.push v
    let size := ((← heap).vector r).size
    return pure (.number size)
  | .pop => do
    let last := ((← heap).vector r).back?
    modifyHeap fun h => h.modifyVector r Array.pop
    return .item <$> (← heap).view? last
  | .get i => do
    let h ← heap
    return .item <$> h.view? (h.vector r)[i]?
  | .set i v => do
    let inside := decide (i < ((← heap).vector r).size)
    modifyHeap fun h => h.modifyVector r fun items => items.setIfInBounds i v
    return pure (.flag inside)
  | .inspect => do
    let h ← heap
    return .vector <$> h.views (h.vector r).toList

/-- Perform a command on a context; what is read may be given a name. -/
def onContext (c : Ref .context) (name : Option String) : ContextCommand → Work Pending
  | .create var v => do
    modifyHeap fun h => h.createVariable c var v
    return .context <$> (← heap).viewContext c
  | .read var => do
    let v ← onHeap fun h => h.readVariable c var
    keep name [v]
    return .values <$> (← heap).views [v]
  | .write var v => do
    modifyHeap fun h => h.writeVariable c var v
    return pure .nothing
  | .inspect none => do
    return .context <$> (← heap).viewContext c
  | .inspect (some var) => do
    let h ← heap
    return do
      let view ← h.viewContext c
      let own ← h.view? ((h.context c).cells.get? var)
      return .contextName view (h.owns c var) ((h.context c).owners.contains var) own
  | .owner var => do
    let owner ← onHeap fun h => h.ownerOf c var
    return .number <$> Numbering.numberContext owner
  | .root => do
    return .number <$> Numbering.numberContext ((← heap).root c)

/-- Answer with a list of values, which may be given a name. -/
def produced (name : Option String) (values : List Value) : Work Pending := do
  keep name values
  return .values <$> (← heap).views values

/-- Make a coroutine with the scheduler's capacities. -/
def newCoroutine (name : Option String) (entry : Value) (context : Option (Ref .context)) :
    Work Pending := do
  let config := (← get).vm.config
  let made ← ofDefect (Coroutine.make (← host).sizes entry context config)
  let r ← onHeap fun h => h.newCoroutine made
  produced name [.coroutine r]

/-- The values that an exit carries. -/
def exitValues : Exit → List Value
  | .finished vs | .yielded vs | .switched _ vs => vs

/-- Resume a coroutine directly.  Only a defect refuses the command. -/
def resume (fuel : Nat) (r : Ref .coroutine) (args : List Value) (name : Option String) :
    Work Pending := do
  let exit ← schedule (Coroutine.resume (← host) fuel r args)
  match exit with
  | .ok exit => keep name (exitValues exit)
  | .error (.defect d) => throw (.failure (.defect d))
  | .error _ => pure ()
  let h ← heap
  return do
    let left ← viewExit h exit
    return .exit left (← h.viewCoroutine r)

/-- Perform a command; the values it produces may be given a name. -/
def perform (fuel : Nat) (name : Option String) : Command → Work Pending
  | .name name v => do
    keep (some name) [v]
    return .value <$> (← heap).view v
  | .inspect v => do
    return .value <$> (← heap).view v
  | .unit name source => do
    let u ← buildUnit source
    let r ← onHeap fun h => h.newUnit u
    modify fun b => { b with units := (name, r) :: b.units }
    return pure (.unit u)
  | .bind function c => do
    let r ← ofFault ((← heap).asFunction function)
    modifyHeap fun h => h.bind r c
    let summary := (← heap).functionSummary r
    return pure (.text summary)
  | .entry unit c => do
    let (r, h) ← ofUsage ((← heap).entryFunction unit c)
    modifyHeap fun _ => h
    produced name [.function r]
  | .runUnit unit args c => do
    produced name (← scheduled (Vm.executeUnit (← host) fuel unit args c))
  | .runFunction function args => do
    let r ← ofFault ((← heap).asFunction function)
    produced name (← scheduled (Vm.executeFunction (← host) fuel r args))
  | .runInContext function c args => do
    let r ← ofFault ((← heap).asFunction function)
    produced name (← scheduled (Vm.executeInContext (← host) fuel r c args))
  | .call callee args => do
    produced name (← scheduled (Vm.call (← host) fuel callee args))
  | .stringify v => do
    let text ← scheduled (Vm.stringify (← host) fuel v)
    return pure (.text text)
  | .syscall index script => do
    let slot ← ofUsage (syscallSlot index)
    modify fun b => { b with syscalls := fun i => if i = slot then script else b.syscalls i }
    let slots := (← get).syscalls
    return pure (.flags ((List.finRange 8).map fun i => (slots i).isSome))
  | .coroutine entry none => do
    let entry ← ofFault (Exec.coroutineEntry (← heap) entry)
    newCoroutine name entry none
  | .coroutine entry (some c) => do
    let r ← ofFault ((← heap).asFunction entry)
    newCoroutine name (.function r) (some c)
  | .resume coroutine args => do
    let r ← ofFault ((← heap).asCoroutine coroutine)
    resume fuel r args name
  | .setResumable coroutine => do
    let r ← ofFault ((← heap).asCoroutine coroutine)
    modifyHeap (Coroutine.setResumable r)
    return .coroutine <$> (← heap).viewCoroutine r
  | .inspectCoroutine coroutine => do
    let r ← ofFault ((← heap).asCoroutine coroutine)
    return .coroutine <$> (← heap).viewCoroutine r
  | .newContext name parent locals => do
    let r ← onHeap fun h => h.newContext parent
    modifyHeap fun h => locals.foldl (fun h (var, v) => h.createVariable r var v) h
    modify fun b => { b with contexts := (name, r) :: b.contexts }
    return .context <$> (← heap).viewContext r
  | .onContext c command => onContext c name command
  | .onTable table command => do
    let t ← ofFault ((← heap).asTable table)
    onTable t command
  | .onVector vector command => do
    let r ← ofFault ((← heap).asVector vector)
    onVector r command
  | .binary op x y => do
    let op ← ofDefect op.asBinary
    let h ← heap
    match ← ofFault (Operator.binary h op x y) with
    | some v => return .result <$> h.view v
    | none => return .overload (.ofBinary op) <$> h.view? (h.overloadMethod op x y)
  | .unary op x => do
    let op ← ofDefect op.asUnary
    let h ← heap
    match Operator.unary op x with
    | some v => return .result <$> h.view v
    | none =>
      let name := Overload.ofUnary op
      return .unaryOverload name <$> h.view? (h.metamethod x name)
  | .compare x y => do
    let comparison := compare (← heap) x y
    return pure (.comparison comparison)
  | .describe v => do
    return .portrait <$> portray (← heap) v

end Work

/-- What is answered to a command: what was recorded while it ran, and what came of it. -/
structure Reply where
  /-- What was recorded, in order. -/
  log : List EventView
  /-- What came of it. -/
  result : Except Refusal Answer

/-- Show what was recorded, and then the answer. -/
def showReply (events : List Scripted.Event) :
    Except Refusal (StateM Numbering Answer) → StateM Numbering Reply
  | .ok pending => do
    let log ← events.mapM viewEvent
    return ⟨log, .ok (← pending)⟩
  | .error refusal => do
    let log ← events.mapM viewEvent
    return ⟨log, .error refusal⟩

/-- Perform a command.  With each command objects are opened anew, under the numbers they have. -/
def run (fuel : Nat) (name : Option String) (command : Command) (b : Workbench) :
    Reply × Workbench :=
  let start := { b with vm := { b.vm with state := #[] } }
  let finish (result : Except Refusal (StateM Numbering Answer)) (b : Workbench) :=
    let (reply, numbering) := showReply b.vm.state.toList result b.numbering.afresh
    (reply, { b with numbering })
  match Work.perform fuel name command start with
  | .ok pending b => finish (.ok pending) b
  | .error refusal b => finish (.error refusal) b

end Workbench

end ScriptVm
