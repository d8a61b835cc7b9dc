import ScriptVm.Proofs.Lockstep.Steps

/-!
# What instructions uphold

Most of what can be said about all states of a machine is an invariant, and an
invariant is upheld by every instruction if it is upheld by the few elementary
changes that instructions are made of.  This file goes through the instructions
once, for any invariant.

The elementary changes come in four groups, and an invariant is a structure that
says that it is upheld by them.  A `Keeping` is upheld when the value stack changes,
a `CallKeeping` by every call as well, an `InstructionKeeping` by whatever else an
instruction does to the heap and to the delimiters, and a `StepKeeping` also when the
try marks change.  Three things are asked for where they are needed: an instruction
on tables may store an entry, a system call may do anything to the stacks, and a
return takes a frame off the call stack.

Main statements: `Exec.Upholds.invoke` (calls), `Exec.Upholds.perform`
(instructions) and `Exec.Upholds.step` (whole steps).
-/

namespace ScriptVm

variable {σ α β : Type}

/-- Whether an instruction on tables and vectors stores an entry. -/
def TableOp.stores : TableOp → Bool
  | .update | .updateLocal | .insert => true
  | _ => false

/-- The machine at the end of a computation. -/
def Exec.last : EStateM.Result Stop (Machine σ) α → Machine σ
  | .ok _ M => M
  | .error _ M => M

/-- What a computation of the machine answers. -/
def Exec.answer? : EStateM.Result Stop (Machine σ) α → Option α
  | .ok a _ => some a
  | .error _ _ => none

theorem Exec.ok_of_answer? {result : EStateM.Result Stop (Machine σ) α} {a : α}
    (h : answer? result = some a) : result = .ok a (last result) := by
  cases result with
  | ok b M =>
    cases h
    rfl
  | error e M => cases h

/-- The closure and the context of a bytecode frame. -/
def Frame.code? (f : Frame) : Option (Ref .function × Ref .context) :=
  match f.activity with
  | .bytecode r context => some (r, context)
  | .async _ => none

/-- A change of the current frame: it goes on in its code, or has made a step. -/
def Frame.Goes (φ : Frame → Frame) : Prop :=
  ∀ f,
    { φ f with activity := f.activity, ip := f.ip, nextIp := f.nextIp, progress := f.progress }
      = f ∧
    (φ f).code? = f.code?

theorem Frame.context?_eq (f : Frame) : f.context? = f.code?.map Prod.snd := by
  unfold context? code?
  cases f.activity <;> rfl

theorem Frame.Goes.context? {φ : Frame → Frame} (hφ : Goes φ) (f : Frame) :
    (φ f).context? = f.context? := by
  rw [context?_eq, (hφ f).2, ← context?_eq]

namespace Machine

/-- A frame that is put on top of the call stack. -/
structure Tops (M : Machine σ) (f : Frame) : Prop where
  delimiters : f.delimiterBase = M.memory.delimiters.size
  marks : f.tryBase = M.memory.marks.size

/-- The machine after a system call. -/
def called (M : Machine σ) (call : Syscall σ) : Machine σ :=
  { M with
    memory := (call M.heap M.memory M.state).memory
    state := (call M.heap M.memory M.state).state }

/-- The machine in which a closure has got a frame in a context of the given heap, with its
variables declared and room for its locals. -/
def entered (M : Machine σ) (h : Heap) (r : Ref .function) (context : Ref .context) (room : Nat)
    (f : Frame) : Machine σ :=
  { M with
    heap := h.declareVariables context (M.heap.prototype r).declared
    memory := { M.memory with
      values := M.memory.values.fillTo room
      frames := M.memory.frames.push f } }

/-- **What is upheld when the value stack changes.** -/
structure Keeping (σ : Type) where
  holds : Machine σ → Prop
  values : ∀ {M} (φ : Stack Value → Stack Value), holds M → holds (M.onValues φ)

/-- **What is upheld by every call.** -/
structure CallKeeping (host : Host σ) extends Keeping σ where
  frame : ∀ {M φ}, Frame.Goes φ → holds M →
    holds (M.onFrames fun frames => frames.modifyLast φ)
  /-- A closure gets a frame, in a new child of the context it is bound to. -/
  enter : ∀ {M} (r : Ref .function) (room : Nat) {f : Frame}, M.Tops f →
    f.activity = .bytecode r (M.heap.newContext (M.heap.function r).parent).1 → holds M →
    holds (M.entered (M.heap.newContext (M.heap.function r).parent).2 r
      (M.heap.newContext (M.heap.function r).parent).1 room f)
  enterAsync : ∀ {M} {f : Frame} {call : AsyncCall}, M.Tops f → f.activity = .async call →
    holds M →
    holds (M.onFrames fun frames => frames.push f)
  /-- An effectful function of the host is called. -/
  effect : ∀ {M} (r : Ref .effectExternal) (args : List Value), holds M →
    holds { M with state := (host.callEffect r ⟨M.heap, M.memory, M.config⟩ args M.state).2 }
  /-- An asynchronous function of the host opens a call. -/
  opening : ∀ {M} (r : Ref .asyncExternal), holds M →
    holds { M with state := (host.openAsync r ⟨M.heap, M.memory, M.config⟩ M.state).2 }
  /-- An asynchronous function of the host makes a step. -/
  async : ∀ {M} (r : Ref .asyncExternal) (object : Nat) (history : List (List Value)), holds M →
    holds { M with state := (host.stepAsync r object M.heap history M.state).2 }

/-- **What is upheld by every instruction** that sets and takes away no try mark, if the current
frame may look up variables from the contexts in `scope`. -/
structure InstructionKeeping (host : Host σ) extends CallKeeping host where
  scope : Ref .context → Prop
  root : ∀ {M c}, holds M → scope c → scope (M.heap.root c)
  delimiters : ∀ {M} (φ : Stack Nat → Stack Nat), holds M → holds (M.onDelimiters φ)
  table : ∀ {M}, holds M → holds (M.onHeap fun h => h.newTable.2)
  vector : ∀ {M} (items : List Value), holds M → holds (M.onHeap fun h => (h.newVector items).2)
  function : ∀ {M h' unit index r}, M.heap.newFunction unit index none = .ok (r, h') →
    holds M →
    holds (M.onHeap fun _ => h')
  coroutine : ∀ {M} (entry : Value) (config : Config), holds M →
    holds (M.onHeap fun h => (h.newCoroutine (.new entry none config)).2)
  metatable : ∀ {M} (t : Ref .table) (metatable : Option (Ref .table)), holds M →
    holds (M.onHeap fun h => h.modifyTable t fun table => { table with metatable })
  items : ∀ {M} (v : Ref .vector) (φ : Array Value → Array Value), holds M →
    holds (M.onHeap fun h => h.modifyVector v φ)
  bind : ∀ {M c} (r : Ref .function), scope c → holds M → holds (M.onHeap fun h => h.bind r c)
  read : ∀ {M c} (name : String), scope c → holds M →
    holds (M.onHeap fun h => (h.readVariable c name).2)
  write : ∀ {M c} (name : String) (value : Value), scope c → holds M →
    holds (M.onHeap fun h => h.writeVariable c name value)

/-- **What is upheld by a step.** -/
structure StepKeeping (host : Host σ) extends InstructionKeeping host where
  marks : ∀ {M} (φ : Stack TryMark → Stack TryMark), holds M → holds (M.onMarks φ)

end Machine

namespace Exec

/-- **A computation upholds an invariant**, however it ends. -/
def Upholds (K : Machine.Keeping σ) (x : Exec σ α) : Prop :=
  ∀ M, K.holds M → K.holds (last (x M))

namespace Upholds

/-! ### Rules -/

section

variable {K : Machine.Keeping σ}

theorem bind {x : Exec σ α} {f : α → Exec σ β} (hx : Upholds K x)
    (hf : ∀ a, Upholds K (f a)) : Upholds K (x >>= f) := by
  intro M hM
  have hlast := hx M hM
  rw [bind_apply]
  generalize x M = result at hlast
  cases result with
  | error e N => exact hlast
  | ok a N => exact hf a N hlast

/-- A computation that leaves the machine as it is. -/
theorem still {x : Exec σ α} (h : ∀ M, last (x M) = M) : Upholds K x := by
  intro M hM
  rw [h M]
  exact hM

theorem pure (a : α) : Upholds K (Pure.pure a : Exec σ α) :=
  still fun _ => rfl

theorem fault (f : Fault) : Upholds K (Exec.fault f : Exec σ α) :=
  still fun _ => rfl

theorem defect (d : Defect) : Upholds K (Exec.defect d : Exec σ α) :=
  still fun _ => rfl

theorem get : Upholds K (MonadState.get : Exec σ (Machine σ)) :=
  still fun _ => rfl

theorem heap : Upholds K (Exec.heap : Exec σ Heap) :=
  still fun _ => rfl

theorem height : Upholds K (Exec.height : Exec σ Nat) :=
  still fun _ => rfl

theorem ofFault (x : Except Fault α) : Upholds K (Exec.ofFault x : Exec σ α) := by
  cases x with
  | ok a => exact pure a
  | error f => exact fault f

theorem ofDefect (x : Except Defect α) : Upholds K (Exec.ofDefect x : Exec σ α) := by
  cases x with
  | ok a => exact pure a
  | error d => exact defect d

/-- What comes after a result that was there. -/
theorem ofDefectThen {x : Except Defect α} {f : α → Exec σ β}
    (hf : ∀ a, x = .ok a → Upholds K (f a)) : Upholds K (Exec.ofDefect x >>= f) := by
  cases x with
  | ok a => exact hf a rfl
  | error d => exact defect d

theorem change {φ : Machine σ → Machine σ} (h : ∀ M, K.holds M → K.holds (φ M)) :
    Upholds K (modify φ : Exec σ Unit) :=
  h

theorem ite {c : Prop} [Decidable c] {x y : Exec σ α} (hx : Upholds K x) (hy : Upholds K y) :
    Upholds K (if c then x else y) := by
  split
  · exact hx
  · exact hy

attribute [grind ←] bind pure fault defect get heap height ofFault ofDefect change
attribute [grind ←] Machine.Keeping.values

/-! ### The value stack -/

@[grind ←] theorem frame : Upholds K (Exec.frame : Exec σ Frame) := by
  grind [Exec.frame]

@[grind ←] theorem heightLess (n : Nat) : Upholds K (Exec.heightLess n : Exec σ Nat) := by
  grind [Exec.heightLess]

@[grind ←] theorem push (v : Value) : Upholds K (Exec.push v : Exec σ Unit) := by
  grind [Exec.push]

@[grind ←] theorem pushAll (vs : List Value) : Upholds K (Exec.pushAll vs : Exec σ Unit) := by
  grind [Exec.pushAll]

@[grind ←] theorem pop : Upholds K (Exec.pop : Exec σ Value) := by
  refine frame.bind fun f => height.bind fun n => ?_
  grind

@[grind ←] theorem popMany (n : Nat) : Upholds K (Exec.popMany n : Exec σ Unit) := by
  induction n with
  | zero => exact pure ()
  | succ n ih => exact pop.bind fun _ => ih

@[grind ←] theorem peek (n : Nat) : Upholds K (Exec.peek n : Exec σ Value) := by
  grind [Exec.peek]

@[grind ←] theorem replaceTop (n : Nat) (v : Value) :
    Upholds K (Exec.replaceTop n v : Exec σ Unit) := by
  grind [Exec.replaceTop]

@[grind ←] theorem overwriteTop (vs : List Value) :
    Upholds K (Exec.overwriteTop vs : Exec σ Unit) := by
  grind [Exec.overwriteTop]

@[grind ←] theorem slot (i : Nat) : Upholds K (Exec.slot i : Exec σ Value) := by
  grind [Exec.slot]

@[grind ←] theorem setSlot (i : Nat) (v : Value) :
    Upholds K (Exec.setSlot i v : Exec σ Unit) := by
  grind [Exec.setSlot]

@[grind ←] theorem takeFrom (n : Nat) : Upholds K (Exec.takeFrom n : Exec σ (List Value)) := by
  grind [Exec.takeFrom]

@[grind ←] theorem shape (sizes : Sizes) (base : Nat) (size : Option Nat) :
    Upholds K (Exec.shape sizes base size : Exec σ Unit) := by
  cases size <;> grind [Exec.shape]

@[grind ←] theorem checkDelimiter (n : Nat) :
    Upholds K (Exec.checkDelimiter n : Exec σ Nat) := by
  grind [Exec.checkDelimiter]

@[grind ←] theorem ownsDelimiter (f : Frame) :
    Upholds K (Exec.ownsDelimiter f : Exec σ Bool) := by
  grind [Exec.ownsDelimiter]

@[grind ←] theorem peekDelimiter : Upholds K (Exec.peekDelimiter : Exec σ Nat) := by
  grind [Exec.peekDelimiter]

@[grind ←] theorem dropWrite : Upholds K (Exec.dropWrite : Exec σ Unit) := by
  grind [Exec.dropWrite]

end

/-! ### Calls -/

end Upholds

/-- A closure gets its frame if the sum of the height and the number of its locals is a size. -/
theorem enter_of_room {host : Host σ} {r : Ref .function} {base room : Nat}
    (returnSize : Option Nat)
    (context : Option (Ref .context)) {M : Machine σ} (hbase : base ≤ M.memory.values.size)
    (hroom : host.sizes.add M.memory.values.size (M.heap.prototype r).locals = .ok room) :
    let place : Ref .context × Heap := match context with
      | some c => (c, M.heap)
      | none => M.heap.newContext (M.heap.function r).parent
    enter host r base returnSize context M = .ok () (M.entered place.2 r place.1 room
      ⟨.bytecode r place.1, base, M.memory.values.size - base, M.memory.values.size, room, 0, 0,
        M.memory.delimiters.size, M.memory.marks.size, returnSize, .none⟩) := by
  intro place
  cases context with
  | some c =>
    simp [enter, bind_apply, heightLess, hbase, hroom, ofDefect]
    rfl
  | none =>
    simp [enter, bind_apply, heightLess, hbase, hroom, ofDefect, allocate]
    rfl

/-- If it is none, nothing happens but a defect. -/
theorem enter_of_limit {host : Host σ} {r : Ref .function} {base : Nat} {d : Defect}
    (returnSize : Option Nat) (context : Option (Ref .context)) {M : Machine σ}
    (hbase : base ≤ M.memory.values.size)
    (hroom : host.sizes.add M.memory.values.size (M.heap.prototype r).locals = .error d) :
    enter host r base returnSize context M = .error (.defect d) M := by
  simp [enter, bind_apply, heightLess, hbase, hroom, ofDefect]

/-- Nor if the arguments start above the top. -/
theorem enter_of_high {host : Host σ} {r : Ref .function} {base : Nat} (returnSize : Option Nat)
    (context : Option (Ref .context)) {M : Machine σ} (hbase : ¬ base ≤ M.memory.values.size) :
    enter host r base returnSize context M = .error (.defect .outOfBounds) M := by
  simp [enter, bind_apply, heightLess, hbase]

/-- **What it takes to enter a closure**, in a given context or in a new one: nothing happens but a
defect, or the closure gets its frame. -/
theorem enter_cases (host : Host σ) (r : Ref .function) (base : Nat) (returnSize : Option Nat)
    (context : Option (Ref .context)) (M : Machine σ) :
    let place : Ref .context × Heap := match context with
      | some c => (c, M.heap)
      | none => M.heap.newContext (M.heap.function r).parent
    (∃ d, enter host r base returnSize context M = .error (.defect d) M) ∨
      ∃ room f, M.Tops f ∧ f.activity = .bytecode r place.1 ∧
        enter host r base returnSize context M = .ok () (M.entered place.2 r place.1 room f) := by
  intro place
  by_cases hbase : base ≤ M.memory.values.size
  · cases hroom : host.sizes.add M.memory.values.size (M.heap.prototype r).locals with
    | error d => exact .inl ⟨d, enter_of_limit returnSize context hbase hroom⟩
    | ok room =>
      exact .inr ⟨room, _, ⟨rfl, rfl⟩, rfl, enter_of_room returnSize context hbase hroom⟩
  · exact .inl ⟨.outOfBounds, enter_of_high returnSize context hbase⟩

/-- The machine after a system call: nothing happens if its slot is empty. -/
theorem last_syscall (host : Host σ) (i : Fin 8) (M : Machine σ) :
    last (syscall host i M) = (host.syscall i).elim M M.called := by
  cases hslot : host.syscall i with
  | none => simp [syscall, hslot, last]
  | some call =>
    cases hdefect : (call M.heap M.memory M.state).defect <;>
      simp [syscall, hslot, bind_apply, hdefect, Machine.called, last]

namespace Upholds

section

variable {host : Host σ} {K : Machine.CallKeeping host}

@[grind ←] theorem modifyFrame {φ : Frame → Frame} (hφ : Frame.Goes φ) :
    Upholds K.toKeeping (Exec.modifyFrame φ : Exec σ Unit) :=
  frame.bind fun _ => change fun _ hM => K.frame hφ hM

@[grind ←] theorem enter (r : Ref .function) (base : Nat) (returnSize : Option Nat) :
    Upholds K.toKeeping (Exec.enter host r base returnSize none) := by
  intro M hM
  rcases enter_cases host r base returnSize none M with ⟨d, h⟩ |
    ⟨room, f, htops, hactivity, h⟩
  · rw [h]
    exact hM
  · rw [h]
    exact K.enter r room htops hactivity hM

@[grind ←] theorem openCall (r : Ref .asyncExternal) :
    Upholds K.toKeeping (Exec.openCall host r) :=
  fun _ hM => K.opening r hM

@[grind ←] theorem enterAsync (r : Ref .asyncExternal) (base : Nat) (returnSize : Option Nat) :
    Upholds K.toKeeping (Exec.enterAsync host r base returnSize) :=
  (openCall r).bind fun _ => (heightLess base).bind fun _ =>
    change fun _ hM => K.enterAsync ⟨rfl, rfl⟩ rfl hM

@[grind ←] theorem runEffect (r : Ref .effectExternal) (args : List Value) :
    Upholds K.toKeeping (Exec.runEffect host r args) := by
  intro M hM
  have hrest : Upholds K.toKeeping (Exec.ofFault (σ := σ)
      (host.callEffect r ⟨M.heap, M.memory, M.config⟩ args M.state).1) := ofFault _
  exact hrest _ (K.effect r args hM)

@[grind ←] theorem askStep (r : Ref .asyncExternal) (object : Nat)
    (history : List (List Value)) : Upholds K.toKeeping (Exec.askStep host r object history) := by
  intro M hM
  have hrest : Upholds K.toKeeping (Exec.ofFault (σ := σ)
      (host.stepAsync r object M.heap history M.state).1) := ofFault _
  exact hrest _ (K.async r object history hM)

/-- **Every call.** -/
@[grind ←] theorem invoke (callee : Value) (base : Nat) (returnSize : Option Nat) :
    Upholds K.toKeeping (Exec.invoke host callee base returnSize) := by
  cases callee with
  | function r => exact enter r base returnSize
  | asyncFn r => exact enterAsync r base returnSize
  | pureFn r =>
    refine (takeFrom base).bind fun args => heap.bind fun h => (ofFault _).bind fun results => ?_
    exact (pushAll results).bind fun _ => shape _ base returnSize
  | effectFn r =>
    refine (takeFrom base).bind fun args => (runEffect r args).bind fun results => ?_
    exact (pushAll results).bind fun _ => shape _ base returnSize
  | _ => exact heap.bind fun h => fault _

/-! ### Operators -/

@[grind ←] theorem continueAt (phase : Nat) :
    Upholds K.toKeeping (Exec.continueAt phase : Exec σ Unit) :=
  modifyFrame fun _ => ⟨rfl, rfl⟩

@[grind ←] theorem callMethod (method : Value) (argc returns phase : Nat) :
    Upholds K.toKeeping (Exec.callMethod host method argc returns phase) := by
  grind [Exec.callMethod]

@[grind ←] theorem callOverload (op : BinaryOp) (method x y : Value) :
    Upholds K.toKeeping (Exec.callOverload host op method x y) := by
  grind [Exec.callOverload]

@[grind ←] theorem operateBinary (op : BinaryOp) :
    Upholds K.toKeeping (Exec.operateBinary host op) := by
  refine (peek 0).bind fun y => (peek 1).bind fun x => heap.bind fun h => ?_
  refine (ofFault _).bind fun value => ?_
  grind

@[grind ←] theorem finishBinary (op : BinaryOp) :
    Upholds K.toKeeping (Exec.finishBinary op : Exec σ Unit) := by
  cases op <;> grind [Exec.finishBinary]

@[grind ←] theorem orderEqual (op : BinaryOp) :
    Upholds K.toKeeping (Exec.orderEqual host op) := by
  refine pop.bind fun less => ite (replaceTop 2 _) ?_
  refine (peek 0).bind fun b => (peek 1).bind fun a => heap.bind fun h => ?_
  grind

@[grind ←] theorem orderFinish : Upholds K.toKeeping (Exec.orderFinish : Exec σ Unit) := by
  grind [Exec.orderFinish]

@[grind ←] theorem binaryOperator (op : BinaryOp) (phase : Nat) :
    Upholds K.toKeeping (Exec.binaryOperator host op phase) := by
  grind [Exec.binaryOperator]

@[grind ←] theorem unaryOperator (op : UnaryOp) (phase : Nat) :
    Upholds K.toKeeping (Exec.unaryOperator host op phase) := by
  grind [Exec.unaryOperator]

@[grind ←] theorem readEntry (throughMethod : Bool) :
    Upholds K.toKeeping (Exec.readEntry host throughMethod) := by
  refine (peek 0).bind fun key => (peek 1).bind fun container => heap.bind fun h => ?_
  grind

/-! ### Steps -/

theorem fetchNext (r : Ref .function) :
    Upholds K.toKeeping (Exec.fetchNext r : Exec σ (Op × Int64 × Nat)) := by
  refine (modifyFrame fun _ => by exact ⟨rfl, rfl⟩).bind fun _ => frame.bind fun f =>
    heap.bind fun h => ?_
  refine (ofFault _).bind fun instruction =>
    (modifyFrame fun _ => by exact ⟨rfl, rfl⟩).bind fun _ => ?_
  have hstart (op : Op) (imm : Int64) : Upholds K.toKeeping (do
      Exec.modifyFrame fun f => { f with progress := (Progress.start op imm).complete }
      return (op, imm, 0) : Exec σ (Op × Int64 × Nat)) :=
    (modifyFrame fun _ => by exact ⟨rfl, rfl⟩).bind fun _ => pure _
  cases instruction.op with
  | none => exact fault _
  | some op =>
    refine ite (heap.bind fun h => pop.bind fun v => (ofFault _).bind fun imm => ?_) ?_
    · exact hstart op imm
    · exact hstart op instruction.imm

theorem fetch (r : Ref .function) :
    Upholds K.toKeeping (Exec.fetch r : Exec σ (Op × Int64 × Nat)) := by
  refine frame.bind fun f =>
    ite (fetchNext r) ((modifyFrame fun _ => by exact ⟨rfl, rfl⟩).bind fun _ => ?_)
  cases f.progress.op with
  | some op => exact pure _
  | none => exact fetchNext r

theorem loadString (r : Ref .function) (imm : Int64) :
    Upholds K.toKeeping (Exec.loadString r imm : Exec σ Unit) := by
  grind [Exec.loadString]

theorem localSlot (imm : Int64) : Upholds K.toKeeping (Exec.localSlot imm : Exec σ Nat) := by
  grind [Exec.localSlot]

theorem loadLocal (imm : Int64) : Upholds K.toKeeping (Exec.loadLocal imm : Exec σ Unit) :=
  (localSlot imm).bind fun i => (slot i).bind push

theorem storeLocal (imm : Int64) : Upholds K.toKeeping (Exec.storeLocal imm : Exec σ Unit) :=
  (localSlot imm).bind fun i => pop.bind fun v => setSlot i v

theorem loadArgument (imm : Int64) :
    Upholds K.toKeeping (Exec.loadArgument imm : Exec σ Unit) := by
  grind [Exec.loadArgument]

theorem jumpTarget (r : Ref .function) (imm : Int64) :
    Upholds K.toKeeping (Exec.jumpTarget r imm : Exec σ Nat) := by
  grind [Exec.jumpTarget]

theorem condition (c : Condition) : Upholds K.toKeeping (Exec.condition c : Exec σ Bool) := by
  cases c with
  | always => exact pure true
  | _ => exact pop.bind fun v => pure _

theorem branch (r : Ref .function) (c : Condition) (imm : Int64) :
    Upholds K.toKeeping (Exec.branch r c imm : Exec σ Unit) := by
  refine (condition c).bind fun taken => ite ((jumpTarget r imm).bind fun target => ?_) (pure ())
  exact modifyFrame fun _ => ⟨rfl, rfl⟩

/-- One step of an asynchronous call, with a return still to be made. -/
theorem advanceAsync (f : Frame) (call : AsyncCall) :
    Upholds K.toKeeping (Exec.advanceAsync host f call) := by
  have hgoes (history : List (List Value)) : Frame.Goes fun f => recordStep f history := by
    intro f
    obtain ⟨activity⟩ := f
    cases activity <;> exact ⟨rfl, rfl⟩
  refine (takeFrom f.stackBase).bind fun args => (modifyFrame (hgoes _)).bind fun _ => ?_
  refine (askStep call.function call.object _).bind fun answer => ?_
  cases answer with
  | call callee args =>
    exact (pushAll args).bind fun _ => (invoke callee f.stackBase none).bind fun _ => pure _
  | _ => exact pure _

end

/-! ### Instructions -/

section

variable {host : Host σ} {K : Machine.InstructionKeeping host}

attribute [grind ←] Machine.InstructionKeeping.delimiters

/-- A new object. -/
theorem allocate {k : Kind} {make : Heap → Ref k × Heap}
    (h : ∀ M, K.holds M → K.holds (M.onHeap fun h => (make h).2)) :
    Upholds K.toKeeping (Exec.allocate make : Exec σ (Ref k)) :=
  h

@[grind ←] theorem pushDelimiter : Upholds K.toKeeping (Exec.pushDelimiter : Exec σ Unit) := by
  grind [Exec.pushDelimiter]

@[grind ←] theorem popDelimiter : Upholds K.toKeeping (Exec.popDelimiter : Exec σ Nat) := by
  refine frame.bind fun f => (ownsDelimiter f).bind fun own => ?_
  grind

/-- Writing an entry, if an entry may be stored. -/
theorem updateEntry
    (hentry : ∀ M t key value, K.holds M → K.holds (M.onHeap fun h => h.writeEntry t key value))
    (throughMethod : Bool) : Upholds K.toKeeping (Exec.updateEntry host throughMethod) := by
  refine (peek 0).bind fun key => (peek 1).bind fun container => (peek 2).bind fun value =>
    heap.bind fun h => ?_
  cases container with
  | vector v =>
    refine (ofFault _).bind fun index => ite (fault _) ?_
    exact (change fun M hM => K.items v _ hM).bind fun _ => dropWrite
  | _ =>
    refine (ofFault _).bind fun t => ?_
    split
    · exact (overwriteTop _).bind fun _ => callMethod _ 3 0 1
    · exact (change fun M hM => hentry M t key value hM).bind fun _ => dropWrite

/-- An instruction on tables and vectors, if an entry may be stored or is none of those that do. -/
theorem operateTable (op : TableOp)
    (hentry : op.stores → ∀ M t key value, K.holds M →
      K.holds (M.onHeap fun h => h.writeEntry t key value)) :
    Upholds K.toKeeping (Exec.operateTable host op) := by
  cases op with
  | setMeta =>
    refine heap.bind fun h => pop.bind fun v => (ofFault _).bind fun t => ?_
    refine pop.bind fun w => (ofFault _).bind fun m => ?_
    exact change fun M hM => K.metatable t m hM
  | getMeta => grind [Exec.operateTable]
  | read => exact readEntry true
  | readLocal => exact readEntry false
  | update => exact updateEntry (hentry rfl) true
  | updateLocal => exact updateEntry (hentry rfl) false
  | insert =>
    refine pop.bind fun value => pop.bind fun key => heap.bind fun h => (peek 0).bind fun v => ?_
    exact (ofFault _).bind fun t => change fun M hM => hentry rfl M t key value hM
  | push =>
    refine heap.bind fun h => pop.bind fun w => (ofFault _).bind fun v => pop.bind fun value => ?_
    exact change fun M hM => K.items v _ hM
  | pop =>
    refine heap.bind fun h => pop.bind fun w => (ofFault _).bind fun v => ?_
    split
    · exact (change fun M hM => K.items v Array.pop hM).bind fun _ => push _
    · exact fault _

theorem tableOperator (op : TableOp)
    (hentry : op.stores → ∀ M t key value, K.holds M →
      K.holds (M.onHeap fun h => h.writeEntry t key value)) (phase : Nat) :
    Upholds K.toKeeping (Exec.tableOperator host op phase) := by
  unfold Exec.tableOperator
  split
  · exact operateTable op hentry
  · exact pure ()

theorem readVariable {scope : Ref .context} (hscope : K.scope scope) :
    Upholds K.toKeeping (Exec.readVariable scope : Exec σ Unit) := by
  refine heap.bind fun h => pop.bind fun v => (ofFault _).bind fun name => bind ?_ push
  exact fun M hM => K.read name hscope hM

theorem writeVariable {scope : Ref .context} (hscope : K.scope scope) :
    Upholds K.toKeeping (Exec.writeVariable scope : Exec σ Unit) := by
  refine heap.bind fun h => pop.bind fun v => (ofFault _).bind fun name => pop.bind fun value => ?_
  exact change fun M hM => K.write name value hscope hM

theorem scopeOperator {context : Ref .context} (hscope : K.scope context) (op : ScopeOp) :
    Upholds K.toKeeping (Exec.scopeOperator context op : Exec σ Unit) := by
  cases op with
  | read => exact readVariable hscope
  | write => exact writeVariable hscope
  | readGlobal =>
    intro M hM
    rw [Exec.scopeOperator, bind_of_ok (heap_apply M)]
    exact readVariable (K.root hM hscope) M hM
  | writeGlobal =>
    intro M hM
    rw [Exec.scopeOperator, bind_of_ok (heap_apply M)]
    exact writeVariable (K.root hM hscope) M hM

theorem loadFunction (r : Ref .function) (imm : Int64) :
    Upholds K.toKeeping (Exec.loadFunction r imm : Exec σ Unit) := by
  intro M hM
  rw [Exec.loadFunction, bind_of_ok (heap_apply M)]
  split
  · exact hM
  · -- The heap that is written is the one just read, with one closure more.
    cases hmade : M.heap.newFunction (M.heap.function r).unit imm.toNatClampNeg none with
    | error d => exact hM
    | ok made =>
      obtain ⟨f, h⟩ := made
      exact push (.function f) _ (K.function hmade hM)

theorem loadConstant (c : Constant) (imm : Int64) :
    Upholds K.toKeeping (Exec.loadConstant host c imm) := by
  cases c with
  | newTable => exact (allocate fun M hM => K.table hM).bind fun t => push _
  | newVector =>
    refine get.bind fun m => (ofDefect _).bind fun _ => ?_
    exact (allocate fun M hM => K.vector [] hM).bind fun v => push _
  | argumentCount => exact frame.bind fun f => push _
  | _ => exact push _

theorem shapeRun (imm : Int64) : Upholds K.toKeeping (Exec.shapeRun host imm) :=
  popDelimiter.bind fun start => shape _ start _

/-- Every instruction on the stack but a return. -/
theorem control {context : Ref .context} (hscope : K.scope context) (op : ControlOp)
    (hop : op ≠ .ret) : Upholds K.toKeeping (Exec.control host context op) := by
  cases op with
  | dup => exact (peek 0).bind fun v => (push v).bind fun _ => pure none
  | pop => exact pop.bind fun _ => pure none
  | makeCoroutine =>
    refine heap.bind fun h => pop.bind fun v => (ofFault _).bind fun entry => get.bind fun m => ?_
    refine ofDefectThen fun made hmade => ?_
    obtain rfl : Coroutine.new entry none m.config = made := by
      rcases Coroutine.make_cases host.sizes entry none m.config with h | ⟨d, h, -⟩
      · exact Except.ok.inj (h.symm.trans hmade)
      · cases h.symm.trans hmade
    refine (allocate fun M hM => K.coroutine entry m.config hM).bind fun r => ?_
    exact (push _).bind fun _ => pure none
  | yield => exact peekDelimiter.bind fun start => (takeFrom start).bind fun _ => pure _
  | resume =>
    refine heap.bind fun h => pop.bind fun v => (ofFault _).bind fun r => ?_
    exact peekDelimiter.bind fun start => (takeFrom start).bind fun _ => pure _
  | delimit => exact pushDelimiter.bind fun _ => pure none
  | call =>
    refine pop.bind fun callee => peekDelimiter.bind fun base => ?_
    exact (invoke callee base none).bind fun _ => pure none
  | ret => exact absurd rfl hop
  | bind =>
    refine heap.bind fun h => (peek 0).bind fun v => (ofFault _).bind fun r => ?_
    exact (change fun M hM => K.bind r hscope hM).bind fun _ => pure none
  | undelimit => exact popDelimiter.bind fun _ => pure none
  | dupRun =>
    refine peekDelimiter.bind fun start => get.bind fun m => (ofDefect _).bind fun run => ?_
    exact pushDelimiter.bind fun _ => (pushAll run).bind fun _ => pure none
  | pack =>
    refine popDelimiter.bind fun start => (takeFrom start).bind fun items => ?_
    exact (allocate fun M hM => K.vector items hM).bind fun v => (push _).bind fun _ => pure none
  | unpack =>
    refine heap.bind fun h => pop.bind fun v => (ofFault _).bind fun r => heap.bind fun h => ?_
    exact pushDelimiter.bind fun _ => (pushAll _).bind fun _ => pure none
  | nop => exact pure none

/-- **Every instruction** but a return.  Instructions on tables, those on try marks and system calls
are asked for, on the machine at hand. -/
theorem execute {context : Ref .context} (hscope : K.scope context) (r : Ref .function) (op : Op)
    (imm : Int64) (phase : Nat) {M : Machine σ} (hM : K.holds M) (hret : op ≠ .control .ret)
    (htable : ∀ o, op = .table o → K.holds (last (Exec.tableOperator host o phase M)))
    (hguarded : ∀ o, op = .guarded o → K.holds (last (Exec.tryOperator r o imm M)))
    (hsyscall : ∀ i, op = .syscall i → K.holds (last (Exec.syscall host i M))) :
    K.holds (last (Exec.execute host r context op imm phase M)) := by
  have goes {x : Exec σ Unit} (hx : K.holds (last (x M))) :
      K.holds (last ((x >>= fun _ => Pure.pure none : Exec σ (Option Exit)) M)) := by
    rw [bind_apply]
    generalize x M = result at hx
    cases result <;> exact hx
  cases op with
  | binary o => exact goes (binaryOperator o phase M hM)
  | table o => exact goes (htable o rfl)
  | unary o => exact goes (unaryOperator o phase M hM)
  | scope o => exact goes (scopeOperator hscope o M hM)
  | loadFunction _ => exact goes (loadFunction r imm M hM)
  | loadString _ => exact goes (loadString r imm M hM)
  | loadInt w => cases w <;> exact goes (push _ M hM)
  | loadConstant c => exact goes (loadConstant c imm M hM)
  | loadLocal _ => exact goes (loadLocal imm M hM)
  | storeLocal _ => exact goes (storeLocal imm M hM)
  | loadArgument _ => exact goes (loadArgument imm M hM)
  | branch c _ => exact goes (branch r c imm M hM)
  | guarded o => exact goes (hguarded o rfl)
  | shape _ => exact goes (shapeRun imm M hM)
  | syscall i => exact goes (hsyscall i rfl)
  | control o => exact control hscope o (fun h => hret (by rw [h])) M hM

/-- **Every instruction**, with a return still to be made. -/
theorem perform {context : Ref .context} (hscope : K.scope context) (r : Ref .function) (op : Op)
    (imm : Int64) (phase : Nat) {M : Machine σ} (hM : K.holds M)
    (htable : ∀ o, op = .table o → K.holds (last (Exec.tableOperator host o phase M)))
    (hguarded : ∀ o, op = .guarded o → K.holds (last (Exec.tryOperator r o imm M)))
    (hsyscall : ∀ i, op = .syscall i → K.holds (last (Exec.syscall host i M))) :
    K.holds (last (Exec.perform host r context op imm phase M)) := by
  unfold Exec.perform
  split
  · have hreturn : Upholds K.toKeeping (do
        let start ← Exec.popDelimiter
        return Outcome.returns (← Exec.takeFrom start) : Exec σ Outcome) :=
      popDelimiter.bind fun start => (takeFrom start).bind fun results => pure _
    exact hreturn M hM
  · rename_i hret
    have hexecute := execute hscope r op imm phase hM hret htable hguarded hsyscall
    rw [bind_apply]
    generalize Exec.execute host r context op imm phase M = result at hexecute
    cases result <;> exact hexecute

/-- A system call, if its slot is empty or the call may be made. -/
theorem syscall (i : Fin 8)
    (hcall : ∀ call M, host.syscall i = some call → K.holds M → K.holds (M.called call)) :
    Upholds K.toKeeping (Exec.syscall host i) := by
  intro M hM
  rw [last_syscall]
  cases hslot : host.syscall i with
  | none => exact hM
  | some call => exact hcall call M hslot hM

end

/-! ### Try marks, returns and whole steps -/

section

variable {host : Host σ} {K : Machine.StepKeeping host}

theorem tryOperator (r : Ref .function) (op : TryOp) (imm : Int64) :
    Upholds K.toKeeping (Exec.tryOperator r op imm : Exec σ Unit) := by
  cases op with
  | enter w => exact (jumpTarget r imm).bind fun target => change fun M hM => K.marks _ hM
  | leave =>
    refine frame.bind fun f => get.bind fun m => ite ?_ (pure ())
    exact change fun M hM => K.marks _ hM
  | throw => exact pop.bind fun v => heap.bind fun h => fault _

/-- A return, if a frame may be taken off the call stack. -/
theorem leave (hdrop : ∀ M, K.holds M → K.holds (M.onFrames Stack.dropLast))
    (results : List Value) : Upholds K.toKeeping (Exec.leave host results) := by
  refine frame.bind fun f => (change hdrop).bind fun _ => (change fun M hM => K.values _ hM).bind
    fun _ => (pushAll results).bind fun _ => (shape _ _ _).bind fun _ => ?_
  exact (change fun M hM => K.delimiters _ hM).bind fun _ => change fun M hM => K.marks _ hM

/-- **Every step.**  Returns, instructions on tables and system calls are asked for. -/
theorem step (hdrop : ∀ M, K.holds M → K.holds (M.onFrames Stack.dropLast))
    (hcall : ∀ i call M, host.syscall i = some call → K.holds M → K.holds (M.called call))
    {M : Machine σ} (hM : K.holds M)
    (hscope : ∀ f r context, M.memory.frames.last? = some f →
      f.activity = .bytecode r context →
      K.scope context)
    (htable : ∀ f r context o imm phase N, M.memory.frames.last? = some f →
      f.activity = .bytecode r context → Exec.fetch r M = .ok (.table o, imm, phase) N →
      K.holds N →
      K.holds (last (Exec.tableOperator host o phase N))) :
    K.holds (last (Exec.step host M)) := by
  have hadvance : K.holds (last (Exec.advance host M)) := by
    rw [Exec.advance, bind_of_ok (get_apply M)]
    cases hf : M.memory.frames.last? with
    | none =>
      have hend : Upholds K.toKeeping (do
          return Outcome.exits (.finished (← Exec.takeFrom 0)) : Exec σ Outcome) :=
        (takeFrom 0).bind fun values => pure _
      exact hend M hM
    | some f =>
      dsimp only
      cases hactivity : f.activity with
      | async call => exact advanceAsync f call M hM
      | bytecode r context =>
        have hfetch : K.holds (last (Exec.fetch r M)) := fetch r M hM
        dsimp only
        rw [bind_apply]
        cases hnext : Exec.fetch r M with
        | error e N =>
          rw [hnext] at hfetch
          exact hfetch
        | ok next N =>
          obtain ⟨op, imm, phase⟩ := next
          rw [hnext] at hfetch
          have hN : K.holds N := hfetch
          refine perform (hscope f r context hf hactivity) r op imm phase hN ?_
            (fun o _ => tryOperator r o imm N hN) fun i _ => syscall i (hcall i) N hN
          rintro o rfl
          exact htable f r context o imm phase N hf hactivity hnext hN
  rw [step_eq, bind_apply]
  generalize Exec.advance host M = result at hadvance
  cases result with
  | error e N => exact hadvance
  | ok outcome N =>
    cases outcome with
    | goes => exact hadvance
    | exits e => exact hadvance
    | returns results =>
      have hreturn : Upholds K.toKeeping (do
          Exec.leave host results
          return none : Exec σ (Option Exit)) := (leave hdrop results).bind fun _ => pure none
      exact hreturn N hadvance

end

end Upholds

end Exec

end ScriptVm
