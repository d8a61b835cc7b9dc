import ScriptVm.Proofs.Assembly
import ScriptVm.Proofs.Atomicity
import ScriptVm.Proofs.Requests

/-!
# Places in the code

Only three things move a frame in its code: the next instruction is fetched, a
branch is taken, and a system call may do as it likes.  All other instructions
leave all frames in their places.  What they do to the call stack is one of a few
**hops**: the current instruction is to be entered again, an asynchronous call is
noted, or a new frame comes on top, which is at the start of its code.

A computation that makes hops only, and has no fault to make about code, goes
**straight** on.

Main statements: `Exec.Straight.execute` (instructions), `Exec.Straight.advanceAsync`
(steps of asynchronous calls) and `Exec.Straight.opening` (how a coroutine begins).
-/

namespace ScriptVm

variable {σ α β : Type}

/-- Whether a fault is about code that cannot be decoded, or left by a jump. -/
def Fault.ofCode : Fault → Bool
  | .unexpectedEndOfCode | .unknownOp _ | .invalidInstructionPointer _ _ => true
  | _ => false

/-- A check that has no such fault to make. -/
def Fault.Spared (x : Except Fault α) : Prop :=
  ∀ f, x = .error f → f.ofCode = false

namespace Fault

/-! ### Checks of values -/

theorem spared_integer (h : Heap) (v : Value) : Spared (h.integer v) := by
  intro f hf
  cases v <;> cases hf <;> rfl

theorem spared_string (h : Heap) (v : Value) : Spared (h.string v) := by
  intro f hf
  cases v <;> cases hf <;> rfl

theorem spared_asTable (h : Heap) (v : Value) : Spared (h.asTable v) := by
  intro f hf
  cases v <;> cases hf <;> rfl

theorem spared_asVector (h : Heap) (v : Value) : Spared (h.asVector v) := by
  intro f hf
  cases v <;> cases hf <;> rfl

theorem spared_asFunction (h : Heap) (v : Value) : Spared (h.asFunction v) := by
  intro f hf
  cases v <;> cases hf <;> rfl

theorem spared_asCoroutine (h : Heap) (v : Value) : Spared (h.asCoroutine v) := by
  intro f hf
  cases v <;> cases hf <;> rfl

theorem spared_coroutineEntry (h : Heap) (v : Value) : Spared (Exec.coroutineEntry h v) := by
  intro f hf
  cases v <;> cases hf <;> rfl

theorem spared_metatableOf (h : Heap) (v : Value) : Spared (Exec.metatableOf h v) := by
  intro f hf
  cases v <;> cases hf <;> rfl

/-- Dividing by zero is the only fault of an operator by itself. -/
theorem spared_binary (h : Heap) (op : BinaryOp) (x y : Value) :
    Spared (Operator.binary h op x y) := by
  intro f hf
  have hdivision : op = .div ∨ op = .mod := by
    cases op <;> first | exact .inl rfl | exact .inr rfl | skip
    case add => cases x <;> cases y <;> cases hf
    case lsh => cases x <;> cases y <;> cases hf
    case rsh => cases x <;> cases y <;> cases hf
    all_goals cases hf
  rcases hdivision with rfl | rfl
  all_goals
    simp only [Operator.binary] at hf
    split at hf
    · split at hf <;> cases hf
      rfl
    · cases hf

end Fault

/-- No function of the host answers with such a fault. -/
structure Host.Fair (host : Host σ) : Prop where
  pureFn : ∀ r heap args, Fault.Spared (host.callPure r heap args)
  effectFn : ∀ r scene args state, Fault.Spared (host.callEffect r scene args state).1
  asyncFn : ∀ r object heap history state,
    Fault.Spared (host.stepAsync r object heap history state).1

/-- A frame that has not begun. -/
structure Frame.Starts (f : Frame) : Prop where
  ip : f.ip = 0
  nextIp : f.nextIp = 0
  progress : f.progress = .none

namespace Stacks

/-- **What happens to the call stack while no frame moves in its code**, one change at a time. -/
inductive Hop : Stack Frame → Stack Frame → Prop
  /-- The current instruction is to be entered again. -/
  | again (frames : Stack Frame) (phase : Nat) :
      Hop frames (frames.modifyLast fun f => { f with
        progress := { f.progress with next := phase } })
  /-- An asynchronous call has made a step. -/
  | records (frames : Stack Frame) (history : List (List Value)) :
      Hop frames (frames.modifyLast fun f => Exec.recordStep f history)
  | enters (frames : Stack Frame) {f : Frame} (starts : f.Starts) : Hop frames (frames.push f)

abbrev Hops : Stack Frame → Stack Frame → Prop :=
  Relation.ReflTransGen Hop

end Stacks

namespace Exec

/-- **A computation that leaves all frames in their places**, and has no fault to make about
code. -/
structure Straight (x : Exec σ α) : Prop where
  frames : ∀ M, Stacks.Hops M.memory.frames (last (x M)).memory.frames
  faults : ∀ M f N, x M = .error (.fault f) N → f.ofCode = false

theorem Smooth.faultless {x : Exec σ α} (h : Smooth x) (M : Machine σ) (f : Fault)
    (N : Machine σ) (hfault : x M = .error (.fault f) N) : f.ofCode = false :=
  absurd hfault (h M f N)

namespace Straight

/-! ### Rules -/

theorem bind {x : Exec σ α} {f : α → Exec σ β} (hx : Straight x)
    (hf : ∀ a, Straight (f a)) : Straight (x >>= f) := by
  constructor
  · intro M
    have hfirst := hx.frames M
    rw [bind_apply]
    generalize x M = result at hfirst
    cases result with
    | error e N => exact hfirst
    | ok a N => exact hfirst.trans ((hf a).frames N)
  · intro M fault N h
    rw [bind_apply] at h
    cases hresult : x M with
    | error e L =>
      rw [hresult] at h
      cases h
      exact hx.faults M fault N hresult
    | ok a L =>
      rw [hresult] at h
      exact (hf a).faults L fault N h

theorem ite {c : Prop} [Decidable c] {x y : Exec σ α} (hx : Straight x) (hy : Straight y) :
    Straight (if c then x else y) := by
  split
  · exact hx
  · exact hy

/-- A computation that leaves the call stack alone. -/
theorem still {x : Exec σ α} (h : ∀ M, (last (x M)).memory.frames = M.memory.frames)
    (hfaults : ∀ M f N, x M = .error (.fault f) N → f.ofCode = false) : Straight x := by
  refine ⟨fun M => ?_, hfaults⟩
  rw [h M]

/-- A computation that only works on the value stack, and has no fault to make. -/
theorem smooth {x : Exec σ α} (h : ∀ K : Machine.Keeping σ, Upholds K x) (hsmooth : Smooth x) :
    Straight x := by
  refine still (fun M => ?_) hsmooth.faultless
  let K : Machine.Keeping σ :=
    { holds := fun N => N.memory.frames = M.memory.frames
      values := fun _ hN => hN }
  exact h K M rfl

theorem pure (a : α) : Straight (Pure.pure a : Exec σ α) :=
  smooth (fun _ => .pure a) (.pure a)

theorem get : Straight (MonadState.get : Exec σ (Machine σ)) :=
  smooth (fun _ => .get) .get

theorem heap : Straight (Exec.heap : Exec σ Heap) :=
  smooth (fun _ => .heap) (.of_ok fun M => ⟨M.heap, M, rfl⟩)

theorem fault {f : Fault} (hf : f.ofCode = false) : Straight (Exec.fault f : Exec σ α) := by
  refine still (fun _ => rfl) fun M g N h => ?_
  rw [fault_apply] at h
  cases h
  exact hf

theorem ofFault {x : Except Fault α} (hx : Fault.Spared x) :
    Straight (Exec.ofFault x : Exec σ α) := by
  cases x with
  | ok a => exact pure a
  | error f => exact fault (hx f rfl)

theorem ofDefect (x : Except Defect α) : Straight (Exec.ofDefect x : Exec σ α) :=
  smooth (fun _ => .ofDefect x) (.ofDefect x)

/-- A change of the machine that leaves its call stack alone. -/
theorem change {φ : Machine σ → Machine σ}
    (h : ∀ M, (φ M).memory.frames = M.memory.frames) : Straight (modify φ : Exec σ Unit) :=
  still h (Smooth.modify φ).faultless

theorem onHeap (φ : Heap → Heap) : Straight (modify fun m => m.onHeap φ : Exec σ Unit) :=
  change fun _ => rfl

theorem allocate {k : Kind} (make : Heap → Ref k × Heap) :
    Straight (Exec.allocate make : Exec σ (Ref k)) :=
  still (fun _ => rfl) (Smooth.allocate make).faultless

/-! ### The value stack and the delimiters -/

theorem frame : Straight (Exec.frame : Exec σ Frame) := smooth (fun _ => .frame) .frame

theorem height : Straight (Exec.height : Exec σ Nat) := smooth (fun _ => .height) .height

theorem heightLess (n : Nat) : Straight (Exec.heightLess n : Exec σ Nat) :=
  smooth (fun _ => .heightLess n) (.heightLess n)

theorem push (v : Value) : Straight (Exec.push v : Exec σ Unit) :=
  smooth (fun _ => .push v) (.push v)

theorem pushAll (vs : List Value) : Straight (Exec.pushAll vs : Exec σ Unit) :=
  smooth (fun _ => .pushAll vs) (.pushAll vs)

theorem shape (sizes : Sizes) (base : Nat) (size : Option Nat) :
    Straight (Exec.shape sizes base size : Exec σ Unit) :=
  smooth (fun _ => .shape sizes base size) (.shape sizes base size)

theorem dropWrite : Straight (Exec.dropWrite : Exec σ Unit) :=
  smooth (fun _ => .dropWrite) .dropWrite

theorem values (φ : Stack Value → Stack Value) :
    Straight (modify fun m => m.onValues φ : Exec σ Unit) :=
  change fun _ => rfl

theorem takeFrom (n : Nat) : Straight (Exec.takeFrom n : Exec σ (List Value)) :=
  get.bind fun _ => (ofDefect _).bind fun taken => (values _).bind fun _ => pure taken

theorem overwriteTop (vs : List Value) : Straight (Exec.overwriteTop vs : Exec σ Unit) :=
  (heightLess _).bind fun _ => values _

theorem slot (i : Nat) : Straight (Exec.slot i : Exec σ Value) :=
  get.bind fun _ => ofDefect _

theorem setSlot (i : Nat) (v : Value) : Straight (Exec.setSlot i v : Exec σ Unit) :=
  height.bind fun _ => ite (values _)
    (smooth (fun _ => .defect .outOfBounds) (.defect .outOfBounds))

theorem pop : Straight (Exec.pop : Exec σ Value) := by
  refine frame.bind fun f => height.bind fun n => ite (fault rfl) (get.bind fun m => ?_)
  cases m.memory.values.last? with
  | some v => exact (values _).bind fun _ => pure v
  | none => exact smooth (fun _ => .defect .stackUnderflow) (.defect .stackUnderflow)

theorem peek (n : Nat) : Straight (Exec.peek n : Exec σ Value) :=
  frame.bind fun _ => height.bind fun _ => ite (fault rfl) (get.bind fun _ => ofDefect _)

theorem replaceTop (n : Nat) (v : Value) : Straight (Exec.replaceTop n v : Exec σ Unit) := by
  have hpops : Straight (Exec.popMany n : Exec σ Unit) := by
    induction n with
    | zero => exact pure ()
    | succ n ih => exact pop.bind fun _ => ih
  exact hpops.bind fun _ => push v

theorem checkDelimiter (n : Nat) : Straight (Exec.checkDelimiter n : Exec σ Nat) :=
  height.bind fun _ => ite (fault rfl) (pure n)

theorem pushDelimiter : Straight (Exec.pushDelimiter : Exec σ Unit) :=
  change fun _ => rfl

theorem peekDelimiter : Straight (Exec.peekDelimiter : Exec σ Nat) := by
  refine frame.bind fun f => (get.bind fun m => pure _).bind fun own => ?_
  cases own with
  | false => exact checkDelimiter _
  | true => exact get.bind fun m => (ofDefect _).bind fun position => checkDelimiter position

theorem popDelimiter : Straight (Exec.popDelimiter : Exec σ Nat) := by
  refine frame.bind fun f => (get.bind fun m => pure _).bind fun own => ?_
  cases own with
  | false => exact checkDelimiter _
  | true =>
    refine get.bind fun m => (ofDefect _).bind fun position => ?_
    have hdrop : Straight (modify fun m => m.onDelimiters Stack.dropLast : Exec σ Unit) :=
      change fun _ => rfl
    exact hdrop.bind fun _ => checkDelimiter position

/-! ### Calls -/

theorem continueAt (phase : Nat) : Straight (Exec.continueAt phase : Exec σ Unit) := by
  refine frame.bind fun _ => ⟨fun M => ?_, Smooth.faultless (Smooth.modify _)⟩
  exact .single (.again M.memory.frames phase)

theorem record (history : List (List Value)) :
    Straight (Exec.modifyFrame fun f => recordStep f history : Exec σ Unit) := by
  refine frame.bind fun _ => ⟨fun M => ?_, Smooth.faultless (Smooth.modify _)⟩
  exact .single (.records M.memory.frames history)

/-- The host is asked something, which may change its state. -/
theorem answer {ρ : Type} (ask : Machine σ → Except Fault ρ × σ)
    (hask : ∀ M, Fault.Spared (ask M).1) :
    Straight (do
      let m ← MonadState.get
      MonadStateOf.set { m with state := (ask m).2 }
      Exec.ofFault (ask m).1 : Exec σ ρ) := by
  have hanswer (M : Machine σ) : Straight (Exec.ofFault (ask M).1 : Exec σ ρ) := ofFault (hask M)
  constructor
  · intro M
    exact (hanswer M).frames { M with state := (ask M).2 }
  · intro M f N h
    exact (hanswer M).faults { M with state := (ask M).2 } f N h

/-- A frame that begins comes on top. -/
theorem begin {make : Machine σ → Frame} (starts : ∀ M, (make M).Starts) :
    Straight (modify fun m => m.onFrames fun frames => frames.push (make m) : Exec σ Unit) :=
  ⟨fun M => .single (.enters M.memory.frames (starts M)), (Smooth.modify _).faultless⟩

section

variable (host : Host σ)

theorem openCall (r : Ref .asyncExternal) : Straight (Exec.openCall host r) :=
  ⟨fun M => .refl, fun _ _ _ h => by cases h⟩

theorem enterAsync (r : Ref .asyncExternal) (base : Nat) (returnSize : Option Nat) :
    Straight (Exec.enterAsync host r base returnSize) :=
  (openCall host r).bind fun _ => (heightLess base).bind fun _ => begin fun _ => ⟨rfl, rfl, rfl⟩

theorem enter (r : Ref .function) (base : Nat) (returnSize : Option Nat)
    (context : Option (Ref .context)) : Straight (Exec.enter host r base returnSize context) := by
  refine heap.bind fun h => (heightLess base).bind fun argumentCount => height.bind fun top => ?_
  refine (ofDefect _).bind fun room => ?_
  have hentered (c : Ref .context) : Straight (do
      modify fun m => m.onHeap fun h' => h'.declareVariables c (h.prototype r).declared
      modify fun m => m.onValues fun values => values.fillTo room
      modify fun m => m.onFrames fun frames => frames.push {
        activity := .bytecode r c
        stackBase := base
        argumentCount
        localsBase := top
        privateBase := room
        ip := 0
        nextIp := 0
        delimiterBase := m.memory.delimiters.size
        tryBase := m.memory.marks.size
        returnSize
        progress := .none } : Exec σ Unit) :=
    (onHeap _).bind fun _ => (values _).bind fun _ => begin fun _ => ⟨rfl, rfl, rfl⟩
  cases context with
  | some c => exact (pure c).bind hentered
  | none => exact (allocate _).bind hentered

end

section

variable {host : Host σ} (hhost : host.Fair)
include hhost

theorem runEffect (r : Ref .effectExternal) (args : List Value) :
    Straight (Exec.runEffect host r args) :=
  answer (fun m => host.callEffect r ⟨m.heap, m.memory, m.config⟩ args m.state)
    fun _ => hhost.effectFn r _ args _

theorem askStep (r : Ref .asyncExternal) (object : Nat) (history : List (List Value)) :
    Straight (Exec.askStep host r object history) :=
  answer (fun m => host.stepAsync r object m.heap history m.state)
    fun _ => hhost.asyncFn r object _ history _

/-- **Every call.** -/
theorem invoke (callee : Value) (base : Nat) (returnSize : Option Nat) :
    Straight (Exec.invoke host callee base returnSize) := by
  have hresults (results : List Value) : Straight (do
      Exec.pushAll results
      Exec.shape host.sizes base returnSize : Exec σ Unit) :=
    (pushAll results).bind fun _ => shape _ base returnSize
  cases callee with
  | function r => exact enter host r base returnSize none
  | asyncFn r => exact enterAsync host r base returnSize
  | pureFn r =>
    refine (takeFrom base).bind fun args => heap.bind fun h => ?_
    exact (ofFault (hhost.pureFn r h args)).bind hresults
  | effectFn r => exact (takeFrom base).bind fun args => (runEffect hhost r args).bind hresults
  | _ => exact heap.bind fun h => fault rfl

theorem callMethod (method : Value) (argc returns phase : Nat) :
    Straight (Exec.callMethod host method argc returns phase) :=
  (continueAt phase).bind fun _ => (heightLess argc).bind fun base =>
    invoke hhost method base (some returns)

/-- One step of an asynchronous call, with a return still to be made. -/
theorem advanceAsync (f : Frame) (call : AsyncCall) :
    Straight (Exec.advanceAsync host f call) := by
  refine (takeFrom f.stackBase).bind fun args => (record _).bind fun _ => ?_
  refine (askStep hhost call.function call.object _).bind fun answer => ?_
  cases answer with
  | call callee args =>
    exact (pushAll args).bind fun _ => (invoke hhost callee f.stackBase none).bind fun _ => pure _
  | _ => exact pure _

/-- **The opening of a coroutine.** -/
theorem opening (state : Lifecycle) (entry : Value) (context : Option (Ref .context))
    (args : List Value) : Straight (Coroutine.opening host state entry context args) := by
  refine ite (height.bind fun base => (pushAll args).bind fun _ => ?_) (pushAll args)
  split
  · exact enter host _ base none _
  · exact invoke hhost _ base none

/-! ### Operators -/

theorem callOverload (op : BinaryOp) (method x y : Value) :
    Straight (Exec.callOverload host op method x y) := by
  have hcall := callMethod hhost method 2 1 1
  have hcopies (a b : Value) : Straight (if op = .leq ∨ op = .geq then do
        Exec.push a
        Exec.push b
        Exec.callMethod host method 2 1 1
      else Exec.callMethod host method 2 1 1) :=
    ite ((push a).bind fun _ => (push b).bind fun _ => hcall) hcall
  unfold Exec.callOverload
  exact ite ((overwriteTop _).bind fun _ => hcopies _ _) (hcopies _ _)

theorem operateBinary (op : BinaryOp) : Straight (Exec.operateBinary host op) := by
  refine (peek 0).bind fun y => (peek 1).bind fun x => heap.bind fun h => ?_
  refine (ofFault (Fault.spared_binary h op x y)).bind fun value => ?_
  cases value with
  | some value => exact replaceTop 2 value
  | none =>
    dsimp only
    split
    · exact callOverload hhost op _ x y
    · split
      · exact replaceTop 2 _
      · exact replaceTop 2 _
      · exact fault rfl

theorem orderEqual (op : BinaryOp) : Straight (Exec.orderEqual host op) := by
  refine pop.bind fun less => ite (replaceTop 2 _) ?_
  refine (peek 0).bind fun b => (peek 1).bind fun a => heap.bind fun h => ?_
  split
  · exact callMethod hhost _ 2 1 2
  · exact fault rfl

theorem binaryOperator (op : BinaryOp) (phase : Nat) :
    Straight (Exec.binaryOperator host op phase) := by
  refine ite ?_ ?_
  · cases OrderPhase.ofNumber phase with
    | less => exact operateBinary hhost op
    | equal => exact orderEqual hhost op
    | finish => exact pop.bind fun equal => push _
  · cases OperatorPhase.ofNumber phase with
    | operate => exact operateBinary hhost op
    | finish =>
      have hjudge (φ : Value → Bool) : Straight (do
          let result ← Exec.pop
          Exec.push (.bool (φ result)) : Exec σ Unit) := pop.bind fun result => push _
      cases op <;> first | exact pure () | exact hjudge Value.truthy | exact hjudge (!·.truthy)

theorem unaryOperator (op : UnaryOp) (phase : Nat) :
    Straight (Exec.unaryOperator host op phase) := by
  unfold Exec.unaryOperator
  cases OperatorPhase.ofNumber phase with
  | finish => exact pure ()
  | operate =>
    refine (peek 0).bind fun x => ?_
    split
    · exact replaceTop 1 _
    · refine heap.bind fun h => ?_
      split
      · exact callMethod hhost _ 1 1 1
      · exact fault rfl

theorem readEntry (throughMethod : Bool) : Straight (Exec.readEntry host throughMethod) := by
  refine (peek 0).bind fun key => (peek 1).bind fun container => heap.bind fun h => ?_
  cases container with
  | vector v => exact replaceTop 2 _
  | _ =>
    refine (ofFault (Fault.spared_asTable h _)).bind fun t => ?_
    split
    · exact callMethod hhost _ 2 1 1
    · exact replaceTop 2 _

theorem updateEntry (throughMethod : Bool) : Straight (Exec.updateEntry host throughMethod) := by
  refine (peek 0).bind fun key => (peek 1).bind fun container => (peek 2).bind fun value =>
    heap.bind fun h => ?_
  cases container with
  | vector v =>
    refine (ofFault (Fault.spared_integer h key)).bind fun index => ite (fault rfl) ?_
    exact (onHeap _).bind fun _ => dropWrite
  | _ =>
    refine (ofFault (Fault.spared_asTable h _)).bind fun t => ?_
    split
    · exact (overwriteTop _).bind fun _ => callMethod hhost _ 3 0 1
    · exact (onHeap _).bind fun _ => dropWrite

theorem operateTable (op : TableOp) : Straight (Exec.operateTable host op) := by
  cases op with
  | setMeta =>
    refine heap.bind fun h => pop.bind fun v =>
      (ofFault (Fault.spared_asTable h v)).bind fun t => ?_
    refine pop.bind fun w => (ofFault (Fault.spared_metatableOf h w)).bind fun m => onHeap _
  | getMeta =>
    refine heap.bind fun h => pop.bind fun v =>
      (ofFault (Fault.spared_asTable h v)).bind fun t => ?_
    split
    · exact push _
    · exact push _
  | read => exact readEntry hhost true
  | readLocal => exact readEntry hhost false
  | update => exact updateEntry hhost true
  | updateLocal => exact updateEntry hhost false
  | insert =>
    refine pop.bind fun value => pop.bind fun key => heap.bind fun h => (peek 0).bind fun v => ?_
    exact (ofFault (Fault.spared_asTable h v)).bind fun t => onHeap _
  | push =>
    refine heap.bind fun h => pop.bind fun w =>
      (ofFault (Fault.spared_asVector h w)).bind fun v => ?_
    exact pop.bind fun value => onHeap _
  | pop =>
    refine heap.bind fun h => pop.bind fun w =>
      (ofFault (Fault.spared_asVector h w)).bind fun v => ?_
    split
    · exact (onHeap _).bind fun _ => push _
    · exact fault rfl

end

theorem tableOperator {host : Host σ} (hhost : host.Fair) (op : TableOp) (phase : Nat) :
    Straight (Exec.tableOperator host op phase) := by
  unfold Exec.tableOperator
  cases OperatorPhase.ofNumber phase with
  | operate => exact operateTable hhost op
  | finish => exact pure ()

theorem readVariable (scope : Ref .context) :
    Straight (Exec.readVariable scope : Exec σ Unit) := by
  refine heap.bind fun h => pop.bind fun v => (ofFault (Fault.spared_string h v)).bind
    fun name => ?_
  have hread : Straight (modifyGet fun m : Machine σ =>
      ((m.heap.readVariable scope name).1, { m with heap := (m.heap.readVariable scope name).2 })
      : Exec σ Value) :=
    still (fun _ => rfl) (Smooth.of_ok fun M => ⟨_, _, rfl⟩).faultless
  exact hread.bind push

theorem writeVariable (scope : Ref .context) :
    Straight (Exec.writeVariable scope : Exec σ Unit) := by
  refine heap.bind fun h => pop.bind fun v => (ofFault (Fault.spared_string h v)).bind
    fun name => ?_
  exact pop.bind fun value => onHeap _

theorem scopeOperator (context : Ref .context) (op : ScopeOp) :
    Straight (Exec.scopeOperator context op : Exec σ Unit) := by
  cases op with
  | read => exact readVariable context
  | write => exact writeVariable context
  | readGlobal => exact heap.bind fun h => readVariable (h.root context)
  | writeGlobal => exact heap.bind fun h => writeVariable (h.root context)

/-! ### Loads and the stack -/

theorem loadFunction (r : Ref .function) (imm : Int64) :
    Straight (Exec.loadFunction r imm : Exec σ Unit) := by
  refine heap.bind fun h => ite (fault rfl) ((ofDefect _).bind fun made => ?_)
  have hset : Straight (Exec.setHeap made.2 : Exec σ Unit) := change fun _ => rfl
  exact hset.bind fun _ => push _

theorem loadString (r : Ref .function) (imm : Int64) :
    Straight (Exec.loadString r imm : Exec σ Unit) := by
  refine heap.bind fun h => ?_
  dsimp only
  split
  · exact push _
  · exact fault rfl

theorem loadConstant (host : Host σ) (c : Constant) (imm : Int64) :
    Straight (Exec.loadConstant host c imm) := by
  cases c with
  | newTable => exact (allocate _).bind fun t => push _
  | newVector =>
    exact get.bind fun m => (ofDefect _).bind fun _ => (allocate _).bind fun v => push _
  | argumentCount => exact frame.bind fun f => push _
  | _ => exact push _

theorem localSlot (imm : Int64) : Straight (Exec.localSlot imm : Exec σ Nat) :=
  frame.bind fun _ => ite (fault rfl) (pure _)

theorem loadLocal (imm : Int64) : Straight (Exec.loadLocal imm : Exec σ Unit) :=
  (localSlot imm).bind fun i => (slot i).bind push

theorem storeLocal (imm : Int64) : Straight (Exec.storeLocal imm : Exec σ Unit) :=
  (localSlot imm).bind fun i => pop.bind fun v => setSlot i v

theorem loadArgument (imm : Int64) : Straight (Exec.loadArgument imm : Exec σ Unit) :=
  frame.bind fun _ => ite ((slot _).bind push) (push .nil)

theorem condition (c : Condition) : Straight (Exec.condition c : Exec σ Bool) := by
  cases c with
  | always => exact pure true
  | _ => exact pop.bind fun v => pure _

/-- Every instruction on try marks that does not jump. -/
theorem tryOperator (r : Ref .function) (op : TryOp) (imm : Int64)
    (hop : Op.jumps (.guarded op) = false) :
    Straight (Exec.tryOperator r op imm : Exec σ Unit) := by
  cases op with
  | enter w => cases hop
  | leave => exact frame.bind fun f => get.bind fun m => ite (change fun _ => rfl) (pure ())
  | throw => exact pop.bind fun v => heap.bind fun h => fault rfl

theorem shapeRun (host : Host σ) (imm : Int64) : Straight (Exec.shapeRun host imm) :=
  popDelimiter.bind fun start => shape _ start _

section

variable {host : Host σ} (hhost : host.Fair)
include hhost

/-- Every instruction on the stack but a return. -/
theorem control (context : Ref .context) (op : ControlOp) (hop : op ≠ .ret) :
    Straight (Exec.control host context op) := by
  cases op with
  | dup => exact (peek 0).bind fun v => (push v).bind fun _ => pure none
  | pop => exact pop.bind fun _ => pure none
  | makeCoroutine =>
    refine heap.bind fun h => pop.bind fun v => ?_
    refine (ofFault (Fault.spared_coroutineEntry h v)).bind fun entry => get.bind fun m => ?_
    exact (ofDefect _).bind fun made => (allocate _).bind fun r => (push _).bind fun _ => pure none
  | yield => exact peekDelimiter.bind fun start => (takeFrom start).bind fun _ => pure _
  | resume =>
    refine heap.bind fun h => pop.bind fun v =>
      (ofFault (Fault.spared_asCoroutine h v)).bind fun r => ?_
    exact peekDelimiter.bind fun start => (takeFrom start).bind fun _ => pure _
  | delimit => exact pushDelimiter.bind fun _ => pure none
  | call =>
    refine pop.bind fun callee => peekDelimiter.bind fun base => ?_
    exact (invoke hhost callee base none).bind fun _ => pure none
  | ret => exact absurd rfl hop
  | bind =>
    refine heap.bind fun h => (peek 0).bind fun v => ?_
    refine (ofFault (Fault.spared_asFunction h v)).bind fun r => ?_
    exact (onHeap _).bind fun _ => pure none
  | undelimit => exact popDelimiter.bind fun _ => pure none
  | dupRun =>
    refine peekDelimiter.bind fun start => get.bind fun m => (ofDefect _).bind fun run => ?_
    exact pushDelimiter.bind fun _ => (pushAll run).bind fun _ => pure none
  | pack =>
    refine popDelimiter.bind fun start => (takeFrom start).bind fun items => ?_
    exact (allocate _).bind fun v => (push _).bind fun _ => pure none
  | unpack =>
    refine heap.bind fun h => pop.bind fun v =>
      (ofFault (Fault.spared_asVector h v)).bind fun r => ?_
    exact heap.bind fun h => pushDelimiter.bind fun _ => (pushAll _).bind fun _ => pure none
  | nop => exact pure none

/-- **Every instruction** that neither jumps nor calls the system, with a return still to be
made. -/
theorem perform (r : Ref .function) (context : Ref .context) (op : Op) (imm : Int64) (phase : Nat)
    (hjumps : op.jumps = false) (hsyscall : ∀ i, op ≠ .syscall i) :
    Straight (Exec.perform host r context op imm phase) := by
  by_cases hret : op = .control .ret
  · rw [Exec.perform, if_pos hret]
    exact popDelimiter.bind fun start => (takeFrom start).bind fun results => pure _
  · rw [Exec.perform, if_neg hret]
    have goes {x : Exec σ Unit} (hx : Straight x) :
        Straight (x >>= fun _ => Pure.pure none : Exec σ (Option Exit)) :=
          hx.bind fun _ => pure none
    refine bind ?_ fun _ => pure _
    cases op with
    | binary o => exact goes (binaryOperator hhost o phase)
    | table o => exact goes (tableOperator hhost o phase)
    | unary o => exact goes (unaryOperator hhost o phase)
    | scope o => exact goes (scopeOperator context o)
    | loadFunction _ => exact goes (loadFunction r imm)
    | loadString _ => exact goes (loadString r imm)
    | loadInt w => cases w <;> exact goes (push _)
    | loadConstant c => exact goes (loadConstant host c imm)
    | loadLocal _ => exact goes (loadLocal imm)
    | storeLocal _ => exact goes (storeLocal imm)
    | loadArgument _ => exact goes (loadArgument imm)
    | branch c _ => cases hjumps
    | guarded o => exact goes (tryOperator r o imm hjumps)
    | shape _ => exact goes (shapeRun host imm)
    | syscall i => exact absurd rfl (hsyscall i)
    | control o => exact control hhost context o fun h => hret (congrArg _ h)

end

end Straight

end Exec

end ScriptVm
