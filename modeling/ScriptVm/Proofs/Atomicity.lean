import ScriptVm.Proofs.Aftermath
import ScriptVm.Proofs.Upkeep

/-!
# A fault changes no object

An instruction checks its operands before it changes an object.  That is what the
order of its elementary computations comes to: first come those that only look
at the heap (`Looks`), and after the first one that changes it come only those
that cannot fault any more (`Smooth`).  A computation of this form is `Atomic`:
if it stops with a fault, the heap is as it was before.

No state is assumed to be reachable here, and a host function whose fault the
instruction passes on has not written the heap either.

Main statements: `Exec.Atomic.step` (every phase of every instruction, and every
step of an asynchronous call), `fault_changes_no_object` (and what the resume
comes to in which that happens).
-/

namespace ScriptVm

variable {σ α β : Type}

namespace Exec

/-- **A computation that only looks at the heap**, however it ends. -/
def Looks (x : Exec σ α) : Prop :=
  ∀ M, (last (x M)).heap = M.heap

/-- **A computation that never stops with a fault.** -/
def Smooth (x : Exec σ α) : Prop :=
  ∀ M f N, x M ≠ .error (.fault f) N

/-- **A computation whose faults leave the heap as it was.** -/
def Atomic (x : Exec σ α) : Prop :=
  ∀ M f N, x M = .error (.fault f) N → N.heap = M.heap

/-! ### Computations that only look -/

namespace Looks

/-- Whatever any invariant is upheld by that allows for changes of the value stack. -/
theorem of_upholds {x : Exec σ α} (h : ∀ K : Machine.Keeping σ, Upholds K x) : Looks x := by
  intro M
  let K : Machine.Keeping σ :=
    { holds := fun N => N.heap = M.heap
      values := fun _ hN => hN }
  exact h K M rfl

theorem bind {x : Exec σ α} {f : α → Exec σ β} (hx : Looks x) (hf : ∀ a, Looks (f a)) :
    Looks (x >>= f) := by
  intro M
  have hlast := hx M
  rw [bind_apply]
  generalize x M = result at hlast
  cases result with
  | error e N => exact hlast
  | ok a N => exact (hf a N).trans hlast

theorem ite {c : Prop} [Decidable c] {x y : Exec σ α} (hx : Looks x) (hy : Looks y) :
    Looks (if c then x else y) := by
  split
  · exact hx
  · exact hy

theorem pure (a : α) : Looks (Pure.pure a : Exec σ α) := .of_upholds fun _ => .pure a

theorem fault (f : Fault) : Looks (Exec.fault f : Exec σ α) := .of_upholds fun _ => .fault f

theorem get : Looks (MonadState.get : Exec σ (Machine σ)) := .of_upholds fun _ => .get

theorem heap : Looks (Exec.heap : Exec σ Heap) := .of_upholds fun _ => .heap

theorem height : Looks (Exec.height : Exec σ Nat) := .of_upholds fun _ => .height

theorem ofFault (x : Except Fault α) : Looks (Exec.ofFault x : Exec σ α) :=
  .of_upholds fun _ => .ofFault x

theorem ofDefect (x : Except Defect α) : Looks (Exec.ofDefect x : Exec σ α) :=
  .of_upholds fun _ => .ofDefect x

/-- A change of the machine that leaves its heap alone. -/
theorem change {φ : Machine σ → Machine σ} (h : ∀ M, (φ M).heap = M.heap) :
    Looks (modify φ : Exec σ Unit) :=
  h

theorem frame : Looks (Exec.frame : Exec σ Frame) := .of_upholds fun _ => .frame

theorem heightLess (n : Nat) : Looks (Exec.heightLess n : Exec σ Nat) :=
  .of_upholds fun _ => .heightLess n

theorem push (v : Value) : Looks (Exec.push v : Exec σ Unit) := .of_upholds fun _ => .push v

theorem pushAll (vs : List Value) : Looks (Exec.pushAll vs : Exec σ Unit) :=
  .of_upholds fun _ => .pushAll vs

theorem pop : Looks (Exec.pop : Exec σ Value) := .of_upholds fun _ => .pop

theorem peek (n : Nat) : Looks (Exec.peek n : Exec σ Value) := .of_upholds fun _ => .peek n

theorem replaceTop (n : Nat) (v : Value) : Looks (Exec.replaceTop n v : Exec σ Unit) :=
  .of_upholds fun _ => .replaceTop n v

theorem overwriteTop (vs : List Value) : Looks (Exec.overwriteTop vs : Exec σ Unit) :=
  .of_upholds fun _ => .overwriteTop vs

theorem takeFrom (n : Nat) : Looks (Exec.takeFrom n : Exec σ (List Value)) :=
  .of_upholds fun _ => .takeFrom n

theorem shape (sizes : Sizes) (base : Nat) (size : Option Nat) :
    Looks (Exec.shape sizes base size : Exec σ Unit) :=
  .of_upholds fun _ => .shape sizes base size

theorem peekDelimiter : Looks (Exec.peekDelimiter : Exec σ Nat) :=
  .of_upholds fun _ => .peekDelimiter

theorem localSlot (imm : Int64) : Looks (Exec.localSlot imm : Exec σ Nat) := by
  refine frame.bind fun f => ite (fault _) (pure _)

theorem modifyFrame (φ : Frame → Frame) : Looks (Exec.modifyFrame φ : Exec σ Unit) :=
  frame.bind fun _ => change fun _ => rfl

theorem continueAt (phase : Nat) : Looks (Exec.continueAt phase : Exec σ Unit) :=
  modifyFrame _

theorem pushDelimiter : Looks (Exec.pushDelimiter : Exec σ Unit) :=
  change fun _ => rfl

theorem popDelimiter : Looks (Exec.popDelimiter : Exec σ Nat) := by
  have hcheck (n : Nat) : Looks (Exec.checkDelimiter n : Exec σ Nat) :=
    .of_upholds fun _ => .checkDelimiter n
  refine frame.bind fun f => bind (.of_upholds fun _ => .ownsDelimiter f) fun own => ?_
  cases own with
  | false => exact hcheck _
  | true =>
    refine get.bind fun m => (ofDefect _).bind fun position => ?_
    have hdrop : Looks (modify fun m => m.onDelimiters Stack.dropLast : Exec σ Unit) :=
      change fun _ => rfl
    exact hdrop.bind fun _ => hcheck position

/-- A computation of the host's state, and what it answers. -/
theorem answer {ρ : Type} (ask : Machine σ → Except Fault ρ × σ) :
    Looks (do
      let m ← MonadState.get
      MonadStateOf.set { m with state := (ask m).2 }
      Exec.ofFault (ask m).1 : Exec σ ρ) := by
  intro M
  exact (ofFault (ask M).1 { M with state := (ask M).2 } : _)

theorem askStep (host : Host σ) (r : Ref .asyncExternal) (object : Nat)
    (history : List (List Value)) : Looks (Exec.askStep host r object history) :=
  answer fun m => host.stepAsync r object m.heap history m.state

theorem fetchNext (r : Ref .function) :
    Looks (Exec.fetchNext r : Exec σ (Op × Int64 × Nat)) := by
  refine (modifyFrame _).bind fun _ => frame.bind fun f => heap.bind fun h => ?_
  refine (ofFault _).bind fun instruction => (modifyFrame _).bind fun _ => ?_
  cases instruction.op with
  | none => exact fault _
  | some op =>
    refine ite (heap.bind fun h => pop.bind fun v => (ofFault _).bind fun imm => ?_) ?_
    · exact (modifyFrame _).bind fun _ => pure _
    · exact (modifyFrame _).bind fun _ => pure _

theorem fetch (r : Ref .function) : Looks (Exec.fetch r : Exec σ (Op × Int64 × Nat)) := by
  refine frame.bind fun f => ite (fetchNext r) ((modifyFrame _).bind fun _ => ?_)
  cases f.progress.op with
  | some op => exact pure _
  | none => exact fetchNext r

end Looks

/-! ### Computations without faults -/

namespace Smooth

theorem bind {x : Exec σ α} {f : α → Exec σ β} (hx : Smooth x) (hf : ∀ a, Smooth (f a)) :
    Smooth (x >>= f) := by
  intro M fault N h
  rw [bind_apply] at h
  cases hresult : x M with
  | error e L =>
    rw [hresult] at h
    cases h
    exact hx M fault N hresult
  | ok a L =>
    rw [hresult] at h
    exact hf a L fault N h

/-- A computation that always goes on. -/
theorem of_ok {x : Exec σ α} (h : ∀ M, ∃ a N, x M = .ok a N) : Smooth x := by
  intro M f N hfault
  obtain ⟨a, L, hok⟩ := h M
  cases hok.symm.trans hfault

theorem pure (a : α) : Smooth (Pure.pure a : Exec σ α) := of_ok fun M => ⟨a, M, rfl⟩

theorem get : Smooth (MonadState.get : Exec σ (Machine σ)) := of_ok fun M => ⟨M, M, rfl⟩

theorem modify (φ : Machine σ → Machine σ) : Smooth (modify φ : Exec σ Unit) :=
  of_ok fun M => ⟨(), φ M, rfl⟩

theorem push (v : Value) : Smooth (Exec.push v : Exec σ Unit) := modify _

theorem pushAll (vs : List Value) : Smooth (Exec.pushAll vs : Exec σ Unit) := modify _

theorem allocate {k : Kind} (make : Heap → Ref k × Heap) :
    Smooth (Exec.allocate make : Exec σ (Ref k)) :=
  of_ok fun M => ⟨(make M.heap).1, { M with heap := (make M.heap).2 }, rfl⟩

theorem defect (d : Defect) : Smooth (Exec.defect d : Exec σ α) := by
  intro M f N h
  rw [defect_apply] at h
  cases h

theorem ofDefect (x : Except Defect α) : Smooth (Exec.ofDefect x : Exec σ α) := by
  cases x with
  | ok a => exact pure a
  | error d => exact defect d

theorem height : Smooth (Exec.height : Exec σ Nat) :=
  of_ok fun M => ⟨M.memory.values.size, M, rfl⟩

theorem openCall (host : Host σ) (r : Ref .asyncExternal) : Smooth (Exec.openCall host r) :=
  of_ok fun _ => ⟨_, _, rfl⟩

theorem heightLess (n : Nat) : Smooth (Exec.heightLess n : Exec σ Nat) := by
  refine height.bind fun top => ?_
  split
  · exact pure _
  · exact defect _

theorem frame : Smooth (Exec.frame : Exec σ Frame) := by
  refine get.bind fun m => ?_
  split
  · exact pure _
  · exact defect _

theorem takeFrom (start : Nat) : Smooth (Exec.takeFrom start : Exec σ (List Value)) :=
  get.bind fun _ => (ofDefect _).bind fun taken => (modify _).bind fun _ => .pure taken

theorem shape (sizes : Sizes) (base : Nat) (size : Option Nat) :
    Smooth (Exec.shape sizes base size : Exec σ Unit) := by
  cases size with
  | none => exact pure ()
  | some size =>
    refine (ofDefect _).bind fun goal => height.bind fun top => ?_
    split
    · exact modify _
    · exact modify _

theorem dropWrite : Smooth (Exec.dropWrite : Exec σ Unit) :=
  (heightLess 3).bind fun _ => modify _

/-- Entering a closure makes a context and declares its variables, and then has no fault to make. -/
theorem enter (host : Host σ) (r : Ref .function) (base : Nat) (returnSize : Option Nat)
    (context : Option (Ref .context)) : Smooth (Exec.enter host r base returnSize context) := by
  intro M f N h
  rcases enter_cases host r base returnSize context M with ⟨d, hdefect⟩ |
    ⟨room, g, -, -, hentered⟩
  · cases hdefect.symm.trans h
  · cases hentered.symm.trans h

theorem leave (host : Host σ) (results : List Value) : Smooth (Exec.leave host results) := by
  refine frame.bind fun f => (modify _).bind fun _ => (modify _).bind fun _ => ?_
  refine (pushAll results).bind fun _ => (shape _ _ _).bind fun _ => ?_
  exact (modify _).bind fun _ => modify _

/-- A system call that goes wrong is a defect. -/
theorem syscall (host : Host σ) (i : Fin 8) : Smooth (Exec.syscall host i) := by
  intro M f N h
  cases hslot : host.syscall i with
  | none => simp [Exec.syscall, hslot] at h
  | some call =>
    cases hdefect : (call M.heap M.memory M.state).defect <;>
      simp [Exec.syscall, hslot, bind_apply, hdefect] at h

end Smooth

/-! ### Checks before changes -/

theorem Looks.atomic {x : Exec σ α} (h : Looks x) : Atomic x := by
  intro M f N hfault
  have hlast := h M
  rwa [hfault] at hlast

theorem Smooth.atomic {x : Exec σ α} (h : Smooth x) : Atomic x := by
  intro M f N hfault
  exact absurd hfault (h M f N)

/-- What only looks may come before anything. -/
theorem Looks.then {x : Exec σ α} {f : α → Exec σ β} (hx : Looks x)
    (hf : ∀ a, Atomic (f a)) : Atomic (x >>= f) := by
  intro M fault N h
  have hlast := hx M
  rw [bind_apply] at h
  generalize x M = result at h hlast
  cases result with
  | error e L =>
    cases h
    exact hlast
  | ok a L => exact (hf a L fault N h).trans hlast

namespace Atomic

/-- What has no fault may come after anything. -/
theorem bind {x : Exec σ α} {f : α → Exec σ β} (hx : Atomic x) (hf : ∀ a, Smooth (f a)) :
    Atomic (x >>= f) := by
  intro M fault N h
  rw [bind_apply] at h
  cases hresult : x M with
  | error e L =>
    rw [hresult] at h
    cases h
    exact hx M fault N hresult
  | ok a L =>
    rw [hresult] at h
    exact absurd h (hf a L fault N)

theorem ite {c : Prop} [Decidable c] {x y : Exec σ α} (hx : Atomic x) (hy : Atomic y) :
    Atomic (if c then x else y) := by
  split
  · exact hx
  · exact hy

theorem fault (f : Fault) : Atomic (Exec.fault f : Exec σ α) := (Looks.fault f).atomic

theorem modify (φ : Machine σ → Machine σ) : Atomic (modify φ : Exec σ Unit) :=
  (Smooth.modify φ).atomic

variable (host : Host σ)

/-! ### Calls -/

/-- **Every call**: a callee that cannot be called, and a host function that faults. -/
theorem invoke (callee : Value) (base : Nat) (returnSize : Option Nat) :
    Atomic (Exec.invoke host callee base returnSize) := by
  have hresults (results : List Value) : Looks (do
      Exec.pushAll results
      Exec.shape host.sizes base returnSize : Exec σ Unit) :=
    (Looks.pushAll results).bind fun _ => .shape _ base returnSize
  cases callee with
  | function r => exact (Smooth.enter host r base returnSize none).atomic
  | asyncFn r =>
    exact ((Smooth.openCall host r).bind fun _ => (Smooth.heightLess base).bind fun _ =>
      .modify _).atomic
  | pureFn r =>
    refine ((Looks.takeFrom base).bind fun args => Looks.heap.bind fun h => ?_).atomic
    exact (Looks.ofFault _).bind hresults
  | effectFn r =>
    refine ((Looks.takeFrom base).bind fun args => Looks.bind ?_ hresults).atomic
    exact .answer fun m => host.callEffect r ⟨m.heap, m.memory, m.config⟩ args m.state
  | _ => exact Looks.heap.then fun h => fault _

theorem callMethod (method : Value) (argc returns phase : Nat) :
    Atomic (Exec.callMethod host method argc returns phase) :=
  (Looks.continueAt phase).then fun _ => (Looks.heightLess argc).then fun base =>
    invoke host method base (some returns)

theorem ret : Atomic (Exec.ret host) :=
  Looks.popDelimiter.then fun start => (Looks.takeFrom start).then fun results =>
    (Smooth.leave host results).atomic

theorem stepAsync (f : Frame) (call : AsyncCall) : Atomic (Exec.stepAsync host f call) := by
  refine (Looks.takeFrom f.stackBase).then fun args => (Looks.modifyFrame _).then fun _ => ?_
  refine (Looks.askStep host call.function call.object _).then fun answer => ?_
  cases answer with
  | finish results => exact (Smooth.leave host results).atomic.bind fun _ => .pure none
  | yield values => exact (Looks.pure _).atomic
  | switch coroutine args => exact (Looks.pure _).atomic
  | call callee args =>
    refine (Looks.pushAll args).then fun _ => ?_
    exact (invoke host callee f.stackBase none).bind fun _ => .pure none

/-! ### Operators -/

theorem callOverload (op : BinaryOp) (method x y : Value) :
    Atomic (Exec.callOverload host op method x y) := by
  have hcall := callMethod host method 2 1 1
  have hcopies (a b : Value) : Atomic (if op = .leq ∨ op = .geq then do
        Exec.push a
        Exec.push b
        Exec.callMethod host method 2 1 1
      else Exec.callMethod host method 2 1 1) :=
    ite ((Looks.push a).then fun _ => (Looks.push b).then fun _ => hcall) hcall
  unfold Exec.callOverload
  exact ite ((Looks.overwriteTop _).then fun _ => hcopies _ _) (hcopies _ _)

theorem operateBinary (op : BinaryOp) : Atomic (Exec.operateBinary host op) := by
  refine (Looks.peek 0).then fun y => (Looks.peek 1).then fun x => Looks.heap.then fun h => ?_
  refine (Looks.ofFault _).then fun value => ?_
  cases value with
  | some value => exact (Looks.replaceTop 2 value).atomic
  | none =>
    dsimp only
    split
    · exact callOverload host op _ x y
    · split
      · exact (Looks.replaceTop 2 _).atomic
      · exact (Looks.replaceTop 2 _).atomic
      · exact fault _

theorem finishBinary (op : BinaryOp) : Looks (Exec.finishBinary op : Exec σ Unit) :=
  .of_upholds fun K => by cases op <;> grind [Exec.finishBinary]

theorem orderEqual (op : BinaryOp) : Atomic (Exec.orderEqual host op) := by
  refine Looks.pop.then fun less => ite (Looks.replaceTop 2 _).atomic ?_
  refine (Looks.peek 0).then fun b => (Looks.peek 1).then fun a => Looks.heap.then fun h => ?_
  split
  · exact callMethod host _ 2 1 2
  · exact fault _

theorem binaryOperator (op : BinaryOp) (phase : Nat) :
    Atomic (Exec.binaryOperator host op phase) := by
  refine ite ?_ ?_
  · cases OrderPhase.ofNumber phase with
    | less => exact operateBinary host op
    | equal => exact orderEqual host op
    | finish => exact (Looks.pop.bind fun equal => .push _).atomic
  · cases OperatorPhase.ofNumber phase with
    | operate => exact operateBinary host op
    | finish => exact (finishBinary op).atomic

theorem unaryOperator (op : UnaryOp) (phase : Nat) :
    Atomic (Exec.unaryOperator host op phase) := by
  unfold Exec.unaryOperator
  cases OperatorPhase.ofNumber phase with
  | finish => exact (Looks.pure ()).atomic
  | operate =>
    refine (Looks.peek 0).then fun x => ?_
    split
    · exact (Looks.replaceTop 1 _).atomic
    · refine Looks.heap.then fun h => ?_
      split
      · exact callMethod host _ 1 1 1
      · exact fault _

/-! ### Tables, vectors and variables -/

theorem readEntry (throughMethod : Bool) : Atomic (Exec.readEntry host throughMethod) := by
  refine (Looks.peek 0).then fun key => (Looks.peek 1).then fun container => ?_
  refine Looks.heap.then fun h => ?_
  cases container with
  | vector v => exact (Looks.replaceTop 2 _).atomic
  | _ =>
    refine (Looks.ofFault _).then fun t => ?_
    split
    · exact callMethod host _ 2 1 1
    · exact (Looks.replaceTop 2 _).atomic

theorem updateEntry (throughMethod : Bool) : Atomic (Exec.updateEntry host throughMethod) := by
  refine (Looks.peek 0).then fun key => (Looks.peek 1).then fun container => ?_
  refine (Looks.peek 2).then fun value => Looks.heap.then fun h => ?_
  cases container with
  | vector v =>
    refine (Looks.ofFault _).then fun index => ite (fault _) ?_
    exact (modify _).bind fun _ => .dropWrite
  | _ =>
    refine (Looks.ofFault _).then fun t => ?_
    split
    · exact (Looks.overwriteTop _).then fun _ => callMethod host _ 3 0 1
    · exact (modify _).bind fun _ => .dropWrite

theorem operateTable (op : TableOp) : Atomic (Exec.operateTable host op) := by
  cases op with
  | setMeta =>
    refine Looks.heap.then fun h => Looks.pop.then fun v => (Looks.ofFault _).then fun t => ?_
    exact Looks.pop.then fun w => (Looks.ofFault _).then fun m => modify _
  | getMeta =>
    refine Looks.heap.then fun h => Looks.pop.then fun v => (Looks.ofFault _).then fun t => ?_
    split
    · exact (Looks.push _).atomic
    · exact (Looks.push _).atomic
  | read => exact readEntry host true
  | readLocal => exact readEntry host false
  | update => exact updateEntry host true
  | updateLocal => exact updateEntry host false
  | insert =>
    refine Looks.pop.then fun value => Looks.pop.then fun key => Looks.heap.then fun h => ?_
    exact (Looks.peek 0).then fun v => (Looks.ofFault _).then fun t => modify _
  | push =>
    refine Looks.heap.then fun h => Looks.pop.then fun w => (Looks.ofFault _).then fun v => ?_
    exact Looks.pop.then fun value => modify _
  | pop =>
    refine Looks.heap.then fun h => Looks.pop.then fun w => (Looks.ofFault _).then fun v => ?_
    split
    · exact (modify _).bind fun _ => .push _
    · exact fault _

theorem tableOperator (op : TableOp) (phase : Nat) :
    Atomic (Exec.tableOperator host op phase) := by
  unfold Exec.tableOperator
  cases OperatorPhase.ofNumber phase with
  | operate => exact operateTable host op
  | finish => exact (Looks.pure ()).atomic

/-- A lookup creates cells and caches only after its name has been found to be a string. -/
theorem readVariable (scope : Ref .context) :
    Atomic (Exec.readVariable scope : Exec σ Unit) := by
  refine Looks.heap.then fun h => Looks.pop.then fun v => (Looks.ofFault _).then fun name => ?_
  have hread : Smooth (modifyGet fun m : Machine σ =>
      ((m.heap.readVariable scope name).1, { m with heap := (m.heap.readVariable scope name).2 })
      : Exec σ Value) := .of_ok fun M => ⟨_, _, rfl⟩
  exact hread.atomic.bind .push

theorem writeVariable (scope : Ref .context) :
    Atomic (Exec.writeVariable scope : Exec σ Unit) := by
  refine Looks.heap.then fun h => Looks.pop.then fun v => (Looks.ofFault _).then fun name => ?_
  exact Looks.pop.then fun value => modify _

theorem scopeOperator (context : Ref .context) (op : ScopeOp) :
    Atomic (Exec.scopeOperator context op : Exec σ Unit) := by
  cases op with
  | read => exact readVariable context
  | write => exact writeVariable context
  | readGlobal => exact Looks.heap.then fun h => readVariable (h.root context)
  | writeGlobal => exact Looks.heap.then fun h => writeVariable (h.root context)

/-! ### Loads, jumps and the stack -/

theorem loadFunction (r : Ref .function) (imm : Int64) :
    Atomic (Exec.loadFunction r imm : Exec σ Unit) := by
  refine Looks.heap.then fun h => ite (fault _) ?_
  refine (Looks.ofDefect _).then fun made => ?_
  exact (modify _).bind fun _ => .push _

theorem loadString (r : Ref .function) (imm : Int64) :
    Atomic (Exec.loadString r imm : Exec σ Unit) := by
  refine Looks.heap.then fun h => ?_
  dsimp only
  split
  · exact (Looks.push _).atomic
  · exact fault _

theorem loadConstant (c : Constant) (imm : Int64) : Smooth (Exec.loadConstant host c imm) := by
  cases c with
  | newTable => exact (Smooth.allocate _).bind fun t => .push _
  | newVector =>
    refine Smooth.get.bind fun m => (Smooth.ofDefect _).bind fun _ => ?_
    exact (Smooth.allocate _).bind fun v => .push _
  | argumentCount => exact Smooth.frame.bind fun f => .push _
  | _ => exact .push _

theorem slot (i : Nat) : Looks (Exec.slot i : Exec σ Value) := .of_upholds fun _ => .slot i

theorem loadLocal (imm : Int64) : Looks (Exec.loadLocal imm : Exec σ Unit) :=
  (Looks.localSlot imm).bind fun i => (slot i).bind .push

theorem storeLocal (imm : Int64) : Looks (Exec.storeLocal imm : Exec σ Unit) :=
  (Looks.localSlot imm).bind fun i => Looks.pop.bind fun v => .of_upholds fun _ => .setSlot i v

theorem loadArgument (imm : Int64) : Looks (Exec.loadArgument imm : Exec σ Unit) :=
  Looks.frame.bind fun _ => .ite ((slot _).bind .push) (.push .nil)

theorem jumpTarget (r : Ref .function) (imm : Int64) :
    Looks (Exec.jumpTarget r imm : Exec σ Nat) :=
  Looks.heap.bind fun _ => Looks.frame.bind fun _ => .ite (.fault _) (.pure _)

theorem condition (c : Condition) : Looks (Exec.condition c : Exec σ Bool) := by
  cases c with
  | always => exact .pure true
  | _ => exact Looks.pop.bind fun v => .pure _

theorem branch (r : Ref .function) (c : Condition) (imm : Int64) :
    Looks (Exec.branch r c imm : Exec σ Unit) := by
  refine (condition c).bind fun taken => .ite ?_ (.pure ())
  exact (jumpTarget r imm).bind fun target => .modifyFrame _

theorem tryOperator (r : Ref .function) (op : TryOp) (imm : Int64) :
    Looks (Exec.tryOperator r op imm : Exec σ Unit) := by
  cases op with
  | enter w => exact (jumpTarget r imm).bind fun target => .change fun _ => rfl
  | leave =>
    exact Looks.frame.bind fun f => Looks.get.bind fun m => .ite (.change fun _ => rfl) (.pure ())
  | throw => exact Looks.pop.bind fun v => Looks.heap.bind fun h => .fault _

theorem control (context : Ref .context) (op : ControlOp) :
    Atomic (Exec.control host context op) := by
  cases op with
  | dup => exact ((Looks.peek 0).bind fun v => (Looks.push v).bind fun _ => .pure none).atomic
  | pop => exact (Looks.pop.bind fun _ => .pure none).atomic
  | makeCoroutine =>
    refine Looks.heap.then fun h => Looks.pop.then fun v => (Looks.ofFault _).then fun entry => ?_
    refine Looks.get.then fun m => (Looks.ofDefect _).then fun made => ?_
    exact (Smooth.allocate _).atomic.bind fun r => (Smooth.push _).bind fun _ => .pure none
  | yield =>
    exact (Looks.peekDelimiter.bind fun start => (Looks.takeFrom start).bind fun _ =>
      .pure _).atomic
  | resume =>
    refine Looks.heap.then fun h => Looks.pop.then fun v => (Looks.ofFault _).then fun r => ?_
    exact (Looks.peekDelimiter.bind fun start => (Looks.takeFrom start).bind fun _ =>
      .pure _).atomic
  | delimit => exact (Looks.pushDelimiter.bind fun _ => .pure none).atomic
  | call =>
    refine Looks.pop.then fun callee => Looks.peekDelimiter.then fun base => ?_
    exact (invoke host callee base none).bind fun _ => .pure none
  | ret => exact (ret host).bind fun _ => .pure none
  | bind =>
    refine Looks.heap.then fun h => (Looks.peek 0).then fun v => (Looks.ofFault _).then fun r => ?_
    exact (modify _).bind fun _ => .pure none
  | undelimit => exact (Looks.popDelimiter.bind fun _ => .pure none).atomic
  | dupRun =>
    refine (Looks.peekDelimiter.bind fun start => Looks.get.bind fun m => ?_).atomic
    refine (Looks.ofDefect _).bind fun run => Looks.pushDelimiter.bind fun _ => ?_
    exact (Looks.pushAll run).bind fun _ => .pure none
  | pack =>
    refine Looks.popDelimiter.then fun start => (Looks.takeFrom start).then fun items => ?_
    exact (Smooth.allocate _).atomic.bind fun v => (Smooth.push _).bind fun _ => .pure none
  | unpack =>
    refine Looks.heap.then fun h => Looks.pop.then fun v => (Looks.ofFault _).then fun r => ?_
    refine (Looks.heap.bind fun h => Looks.pushDelimiter.bind fun _ => ?_).atomic
    exact (Looks.pushAll _).bind fun _ => .pure none
  | nop => exact (Looks.pure none).atomic

/-! ### Steps -/

/-- **Every phase of every instruction.** -/
theorem execute (r : Ref .function) (context : Ref .context) (op : Op) (imm : Int64)
    (phase : Nat) : Atomic (Exec.execute host r context op imm phase) := by
  have goes {x : Exec σ Unit} (hx : Atomic x) :
      Atomic (x >>= fun _ => Pure.pure none : Exec σ (Option Exit)) := hx.bind fun _ => .pure none
  cases op with
  | binary o => exact goes (binaryOperator host o phase)
  | table o => exact goes (tableOperator host o phase)
  | unary o => exact goes (unaryOperator host o phase)
  | scope o => exact goes (scopeOperator context o)
  | loadFunction _ => exact goes (loadFunction r imm)
  | loadString _ => exact goes (loadString r imm)
  | loadInt w => cases w <;> exact goes (Looks.push _).atomic
  | loadConstant c => exact goes (loadConstant host c imm).atomic
  | loadLocal _ => exact goes (loadLocal imm).atomic
  | storeLocal _ => exact goes (storeLocal imm).atomic
  | loadArgument _ => exact goes (loadArgument imm).atomic
  | branch c _ => exact goes (branch r c imm).atomic
  | guarded o => exact goes (tryOperator r o imm).atomic
  | shape _ => exact goes (Looks.popDelimiter.bind fun start => .shape _ start _).atomic
  | syscall i => exact goes (Smooth.syscall host i).atomic
  | control o => exact control host context o

/-- **Every step.**  If it stops with a fault, the heap is as it was before. -/
theorem step : Atomic (Exec.step host) := by
  refine Looks.get.then fun m => ?_
  split
  · exact ((Looks.takeFrom 0).bind fun values => .pure _).atomic
  · split
    · exact (Looks.fetch _).then fun _ => execute host _ _ _ _ _
    · exact stepAsync host _ _

end Atomic

end Exec

/-! ### The resume in which it happens -/

namespace Heap

/-- Two heaps that differ in one coroutine at most. -/
structure ChangesOnly (h : Heap) (r : Ref .coroutine) (h' : Heap) : Prop where
  units : h'.units = h.units
  functions : h'.functions = h.functions
  contexts : h'.contexts = h.contexts
  tables : h'.tables = h.tables
  vectors : h'.vectors = h.vectors
  count : h'.coroutines.size = h.coroutines.size
  coroutines : ∀ q, q ≠ r → h'.coroutine q = h.coroutine q

theorem changesOnly_modifyCoroutine (h : Heap) (r : Ref .coroutine) (φ : Coroutine → Coroutine) :
    h.ChangesOnly r (h.modifyCoroutine r φ) where
  units := rfl
  functions := rfl
  contexts := rfl
  tables := rfl
  vectors := rfl
  count := Store.size_modify _ _ _
  coroutines _ hne := coroutine_modify_of_ne hne φ

end Heap

/-- The scheduler after a coroutine has stopped with a fault. -/
def Vm.afterFault (vm : Vm σ) (r : Ref .coroutine) (N : Machine σ) : Vm σ :=
  { vm with
    heap := Coroutine.checkIn r .stopped N.memory.clear N.heap
    state := N.state }

namespace Coroutine

variable {host : Host σ} {vm : Vm σ} {r : Ref .coroutine} {args : List Value} {M N : Machine σ}
  {f : Fault}

/-- What is left of a run from one of its machines on. -/
theorem body_of_runs (runs : vm.Runs host r args M) :
    ∃ n, ∀ fuel, body host (n + fuel) (vm.heap.coroutine r).state (vm.heap.coroutine r).entry
        (vm.heap.coroutine r).entryContext args (checkOut r vm.heap vm.state)
      = Exec.run host fuel M := by
  induction runs with
  | begun begins =>
    refine ⟨0, fun fuel => ?_⟩
    rw [Nat.zero_add, body_eq]
    exact Exec.bind_of_ok begins
  | @goes M N before step ih =>
    obtain ⟨n, hn⟩ := ih
    refine ⟨n + 1, fun fuel => ?_⟩
    rw [Nat.add_assoc, Nat.add_comm 1 fuel, hn (fuel + 1), Exec.run, Exec.bind_of_ok step]

/-- A step that faults is what the resume comes to, if it gets that far. -/
theorem resume_of_fault (accepted : canResume (vm.heap.coroutine r).state)
    (runs : vm.Runs host r args M) (faults : Exec.step host M = .error (.fault f) N) :
    ∃ enough, ∀ fuel, enough ≤ fuel → resume host fuel r args vm
      = .error (.runtime f (N.heap.backtrace N.memory)) (vm.afterFault r N) := by
  obtain ⟨n, hn⟩ := body_of_runs runs
  refine ⟨n + 1, fun fuel hfuel => ?_⟩
  obtain ⟨more, rfl⟩ := Nat.exists_eq_add_of_le hfuel
  have hbody := hn (more + 1)
  rw [Exec.run, Exec.bind_of_error faults, ← Nat.add_assoc, Nat.add_right_comm] at hbody
  unfold resume
  dsimp only
  rw [if_pos accepted, hbody]
  rfl

theorem run_eq_fault (fuel : Nat) (runs : vm.Runs host r args M)
    (hrun : Exec.run host fuel M = .error (.fault f) N) :
    ∃ K, vm.Runs host r args K ∧ Exec.step host K = .error (.fault f) N := by
  induction fuel generalizing M with
  | zero => cases hrun
  | succ fuel ih =>
    rw [Exec.run, Exec.bind_apply] at hrun
    cases hstep : Exec.step host M with
    | error e L =>
      rw [hstep] at hrun
      cases hrun
      exact ⟨M, runs, hstep⟩
    | ok answer L =>
      rw [hstep] at hrun
      cases answer with
      | some exit => cases hrun
      | none => exact ih (.goes runs hstep) hrun

/-- **Where a fault comes from**: from a step, or from what a function of the host has answered that
is itself the entry of the coroutine. -/
theorem resume_eq_fault {fuel : Nat} {vm' : Vm σ} {trace : List TraceLine}
    (h : resume host fuel r args vm = .error (.runtime f trace) vm') :
    canResume (vm.heap.coroutine r).state ∧
      ∃ N, (begin host vm r args = .error (.fault f) N ∨
          ∃ M, vm.Runs host r args M ∧ Exec.step host M = .error (.fault f) N) ∧
        vm' = vm.afterFault r N ∧ trace = N.heap.backtrace N.memory := by
  by_cases haccepted : canResume (vm.heap.coroutine r).state
  case neg =>
    rw [resume_refused host fuel args haccepted] at h
    cases h
  refine ⟨haccepted, ?_⟩
  unfold resume at h
  dsimp only at h
  rw [if_pos haccepted] at h
  cases hbody : body host fuel (vm.heap.coroutine r).state (vm.heap.coroutine r).entry
      (vm.heap.coroutine r).entryContext args (checkOut r vm.heap vm.state) with
  | ok exit N =>
    rw [hbody] at h
    cases h
  | error e N =>
    rw [hbody] at h
    cases e with
    | defect d => cases h
    | exhausted => cases h
    | fault g =>
      cases h
      refine ⟨N, ?_, rfl, rfl⟩
      rw [body_eq, Exec.bind_apply] at hbody
      cases hbegin : begin host vm r args with
      | error e L =>
        rw [begin] at hbegin
        rw [hbegin] at hbody
        cases hbody
        exact .inl rfl
      | ok u L =>
        have hruns : vm.Runs host r args L := .begun hbegin
        rw [begin] at hbegin
        rw [hbegin] at hbody
        exact .inr (run_eq_fault fuel hruns hbody)

end Coroutine

/-- **A fault changes no object.**  If a step of a coroutine that is resumed stops with a fault,
then the heap is as it was before the step.  The resume passes the fault on and leaves all objects
as they were, except that the coroutine has stopped and its stacks are empty; and no other coroutine
has changed since the beginning of the resume. -/
theorem fault_changes_no_object {host : Host σ} {vm : Vm σ} {r : Ref .coroutine}
    {args : List Value}
    {M N : Machine σ} {f : Fault} (accepted : Coroutine.canResume (vm.heap.coroutine r).state)
    (runs : vm.Runs host r args M) (faults : Exec.step host M = .error (.fault f) N) :
    N.heap = M.heap ∧
    ∃ enough trace vm',
      (∀ fuel, enough ≤ fuel →
        Coroutine.resume host fuel r args vm = .error (.runtime f trace) vm') ∧
      M.heap.ChangesOnly r vm'.heap ∧
      (vm'.heap.coroutine r).state = .stopped ∧
      (vm'.heap.coroutine r).memory.values.toList = [] ∧
      (vm'.heap.coroutine r).memory.frames.toList = [] ∧
      (vm'.heap.coroutine r).memory.delimiters.toList = [] ∧
      (vm'.heap.coroutine r).memory.marks.toList = [] ∧
      ∀ q, q ≠ r → vm.heap.coroutines.Holds q →
        vm'.heap.coroutine q = vm.heap.coroutine q := by
  have hheap : N.heap = M.heap := Exec.Atomic.step host M f N faults
  obtain ⟨enough, hresume⟩ := Coroutine.resume_of_fault accepted runs faults
  refine ⟨hheap, enough, _, vm.afterFault r N, hresume, ?_⟩
  have honly : M.heap.ChangesOnly r (vm.afterFault r N).heap := by
    rw [← hheap]
    exact Heap.changesOnly_modifyCoroutine _ _ _
  have hgrows := runs.grows
  have hr : N.heap.coroutines.Holds r := by
    rw [hheap]
    exact hgrows.holds (Heap.holds_modifyCoroutine.mpr runs.holds)
  have hself : (vm.afterFault r N).heap.coroutine r
      = { N.heap.coroutine r with state := .stopped, memory := N.memory.clear } :=
    Heap.coroutine_modify_self hr _
  refine ⟨honly, ?_, ?_, ?_, ?_, ?_, fun q hne hq => ?_⟩
  · rw [hself]
  · rw [hself]
    exact Stack.toList_clear _
  · rw [hself]
    exact Stack.toList_clear _
  · rw [hself]
    exact Stack.toList_clear _
  · rw [hself]
    exact Stack.toList_clear _
  · calc (vm.afterFault r N).heap.coroutine q
        = M.heap.coroutine q := honly.coroutines q hne
      _ = (Coroutine.checkOut r vm.heap vm.state).heap.coroutine q :=
          hgrows.coroutine (Heap.holds_modifyCoroutine.mpr hq)
      _ = vm.heap.coroutine q := Heap.coroutine_modify_of_ne hne _

/-- A coroutine gets nothing that it could hand on: its third instruction finds no coroutine on the
stack. -/
theorem fault_changes_no_object_passing :
    Coroutine.canResume (Vm.passing.heap.coroutine ⟨0⟩).state ∧
    ∃ M N, Vm.passing.Runs .bare ⟨0⟩ [] M ∧
      Exec.step .bare M = .error (.fault (.assertionFailed .coroutine .nil "nil")) N ∧
      N.heap = M.heap ∧
      ∃ enough trace vm',
        (∀ fuel, enough ≤ fuel → Coroutine.resume .bare fuel ⟨0⟩ [] Vm.passing
          = .error (.runtime (.assertionFailed .coroutine .nil "nil") trace) vm') ∧
        M.heap.ChangesOnly ⟨0⟩ vm'.heap ∧
        (vm'.heap.coroutine ⟨0⟩).state = .stopped ∧
        vm'.heap.coroutine ⟨1⟩ = Vm.passing.heap.coroutine ⟨1⟩ := by
  have hfailure : Vm.failure? (Coroutine.resume .bare 9 ⟨0⟩ [] Vm.passing)
      = some (.runtime (.assertionFailed .coroutine .nil "nil") [⟨"passing", 2⟩]) := by
    decide +kernel
  obtain ⟨vm', hresume, -⟩ := Vm.error_of_failure? hfailure
  obtain ⟨haccepted, N, hbegin | ⟨M, hruns, hfaults⟩, -⟩ :=
    Coroutine.resume_eq_fault hresume
  · -- Entering a closure does not fault.
    have hopening : Exec.Smooth (Coroutine.opening .bare .initial (.function ⟨0⟩) none []
        : Exec Unit Unit) :=
      Exec.Smooth.height.bind fun base => (Exec.Smooth.pushAll []).bind fun _ =>
        .enter .bare ⟨0⟩ base none none
    exact absurd hbegin (hopening _ _ _)
  · obtain ⟨hheap, enough, trace, vm', hresume, honly, hstopped, -, -, -, -, hothers⟩ :=
      fault_changes_no_object haccepted hruns hfaults
    refine ⟨haccepted, M, N, hruns, hfaults, hheap, enough, trace, vm', hresume, honly,
      hstopped, ?_⟩
    exact hothers ⟨1⟩ (by decide) Nat.one_lt_two

end ScriptVm
