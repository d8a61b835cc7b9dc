import ScriptVm.Proofs.Atomicity

/-!
# Where effectful functions are called

An effectful function of the host is called at the end of a step.  Before that the
step has only looked at the heap; afterwards the results of the function are put
where they belong, and that does not look at the heap at all.  So a step can be
cut in two at the call, and whatever has become of the heap and of the host
meanwhile, the machine goes on from there.

What the step does up to the call does not depend on what the host's effectful
functions do.  That is how the call is recognised: `Exec.Calls` says what the
computation comes to for any functions in their place.

Main statement: `Exec.step_callsLast` (no step calls more than one effectful
function, and none does anything to the heap before it).
-/

namespace ScriptVm

variable {σ α β : Type}

/-- Effectful functions. -/
abbrev Host.Effects (σ : Type) :=
  Ref .effectExternal → Scene → List Value → σ → Except Fault (List Value) × σ

/-- The host with other effectful functions. -/
def Host.withEffects (host : Host σ) (effects : Host.Effects σ) : Host σ :=
  { host with callEffect := effects }

/-- **A call of an effectful function**: the machine that has come to it, the function and its
arguments, and where its results go. -/
structure EffectCall (σ : Type) where
  /-- The machine, with the arguments taken off the stack. -/
  machine : Machine σ
  function : Ref .effectExternal
  args : List Value
  /-- The position from which on the results lie. -/
  base : Nat
  /-- The number of results that the caller wants. -/
  returnSize : Option Nat

namespace Exec

/-- What is left to do of a call when an effectful function has answered, before `a` is answered. -/
def settle (sizes : Sizes) (base : Nat) (returnSize : Option Nat) (a : α)
    (answer : Except Fault (List Value)) : Exec σ α := do
  let results ← ofFault answer
  pushAll results
  shape sizes base returnSize
  return a

/-- A call that is answered by some functions. -/
def answered (sizes : Sizes) (effects : Host.Effects σ) (a : α) (call : EffectCall σ) :
    EStateM.Result Stop (Machine σ) α :=
  let M := call.machine
  let reply := effects call.function ⟨M.heap, M.memory, M.config⟩ call.args M.state
  settle sizes call.base call.returnSize a reply.1 { M with state := reply.2 }

/-- **A computation comes to a call** of an effectful function, whatever the functions are, and
answers `a` behind it. -/
def Calls (host : Host σ) (x : Host σ → Exec σ α) (a : α) (M : Machine σ)
    (call : EffectCall σ) : Prop :=
  ∀ effects, x (host.withEffects effects) M = answered host.sizes effects a call

/-- **A computation that calls an effectful function last**, if at all, and does nothing to the heap
before. -/
def CallsLast (host : Host σ) (x : Host σ → Exec σ α) (a : α) : Prop :=
  ∀ M, (∀ effects, x (host.withEffects effects) M = x host M) ∨
    ∃ call, call.machine.heap = M.heap ∧ Calls host x a M call

theorem settle_unit (sizes : Sizes) (base : Nat) (returnSize : Option Nat)
    (answer : Except Fault (List Value)) :
    settle sizes base returnSize () answer = (do
      let results ← ofFault answer
      pushAll results
      shape sizes base returnSize : Exec σ Unit) := by
  simp [settle]

/-- Another answer is given behind. -/
theorem settle_bind (sizes : Sizes) (base : Nat) (returnSize : Option Nat) (a : α)
    (answer : Except Fault (List Value)) :
    (settle sizes base returnSize () answer >>= fun _ => pure a : Exec σ α)
      = settle sizes base returnSize a answer := by
  simp [settle]

/-- Something that comes to a result may come before a call. -/
theorem Calls.after {host : Host σ} {y : Exec σ β} {x : β → Host σ → Exec σ α} {a : α}
    {b : β} {M N : Machine σ} {call : EffectCall σ} (hy : y M = .ok b N)
    (hx : Calls host (x b) a N call) : Calls host (fun host => y >>= fun b => x b host) a M call :=
  fun effects => (bind_of_ok hy).trans (hx effects)

/-- A call of an effectful function with the arguments from `base` upward. -/
theorem Calls.invoke {host : Host σ} {r : Ref .effectExternal} {base : Nat} {args : List Value}
    {M N : Machine σ} (hargs : takeFrom base M = .ok args N) (returnSize : Option Nat) :
    Calls host (fun host => invoke host (.effectFn r) base returnSize) () M
      ⟨N, r, args, base, returnSize⟩ := by
  refine after hargs fun effects => ?_
  rw [answered, settle_unit]
  rfl

/-- An answer is given behind a call. -/
theorem Calls.giving {host : Host σ} {x : Host σ → Exec σ Unit} {M : Machine σ}
    {call : EffectCall σ} (h : Calls host x () M call) (a : α) :
    Calls host (fun host => x host >>= fun _ => pure a) a M call := by
  intro effects
  show (x (host.withEffects effects) >>= _) M = _
  rw [answered, ← settle_bind, bind_apply, bind_apply, h effects, answered]

namespace CallsLast

variable {host : Host σ} {a : α}

/-- A computation in which no function is called. -/
theorem quiet {x : Host σ → Exec σ α}
    (h : ∀ effects, x (host.withEffects effects) = x host) : CallsLast host x a :=
  fun M => .inl fun effects => congrFun (h effects) M

/-- What only looks at the heap, and calls no function, may come first. -/
theorem afterQuiet {y : Host σ → Exec σ β} {x : β → Host σ → Exec σ α}
    (hy : Looks (y host)) (hquiet : ∀ effects, y (host.withEffects effects) = y host)
    (hx : ∀ b, CallsLast host (x b) a) :
    CallsLast host (fun host => y host >>= fun b => x b host) a := by
  intro M
  have hlast := hy M
  cases hresult : y host M with
  | error e N =>
    have hstops (effects : Host.Effects σ) :
        (y (host.withEffects effects) >>= fun b => x b (host.withEffects effects)) M
          = .error e N := by
      rw [hquiet effects]
      exact bind_of_error hresult
    exact .inl fun effects => (hstops effects).trans (bind_of_error hresult).symm
  | ok b N =>
    rw [hresult] at hlast
    have hgoes (effects : Host.Effects σ) :
        (y (host.withEffects effects) >>= fun b => x b (host.withEffects effects)) M
          = x b (host.withEffects effects) N := by
      rw [hquiet effects]
      exact bind_of_ok hresult
    rcases hx b N with hnone | ⟨call, hheap, hcalls⟩
    · left
      intro effects
      have hplain : (y host >>= fun b => x b host) M = x b host N := bind_of_ok hresult
      exact (hgoes effects).trans ((hnone effects).trans hplain.symm)
    · exact .inr ⟨call, hheap.trans hlast,
        fun effects => (hgoes effects).trans (hcalls effects)⟩

/-- What only looks at the heap may come first. -/
theorem after {y : Exec σ β} {x : β → Host σ → Exec σ α} (hy : Looks y)
    (hx : ∀ b, CallsLast host (x b) a) : CallsLast host (fun host => y >>= fun b => x b host) a :=
  afterQuiet (y := fun _ => y) hy (fun _ => rfl) hx

theorem ite {c : Prop} [Decidable c] {x y : Host σ → Exec σ α} (hx : CallsLast host x a)
    (hy : CallsLast host y a) : CallsLast host (fun host => if c then x host else y host) a := by
  by_cases hc : c
  · simpa only [if_pos hc] using hx
  · simpa only [if_neg hc] using hy

/-- An answer is given behind the call. -/
theorem giving {x : Host σ → Exec σ Unit} (hx : CallsLast host x ()) (a : α) :
    CallsLast host (fun host => x host >>= fun _ => pure a) a := by
  intro M
  rcases hx M with hnone | ⟨call, hheap, hcalls⟩
  · left
    intro effects
    show (x (host.withEffects effects) >>= _) M = (x host >>= _) M
    rw [bind_apply, bind_apply, hnone effects]
  · exact .inr ⟨call, hheap, hcalls.giving a⟩

/-! ### Calls -/

/-- **Every call.** -/
theorem invoke (callee : Value) (base : Nat) (returnSize : Option Nat) :
    CallsLast host (fun host => Exec.invoke host callee base returnSize) () := by
  cases callee with
  | effectFn r =>
    intro M
    have hlast := Looks.takeFrom base M
    cases hargs : takeFrom base M with
    | error e N => exact .inl fun effects => (bind_of_error hargs).trans (bind_of_error hargs).symm
    | ok args N =>
      rw [hargs] at hlast
      exact .inr ⟨_, hlast, .invoke hargs returnSize⟩
  | _ => exact quiet fun _ => rfl

theorem callMethod (method : Value) (argc returns phase : Nat) :
    CallsLast host (fun host => Exec.callMethod host method argc returns phase) () :=
  after (Looks.continueAt phase) fun _ => after (Looks.heightLess argc) fun base =>
    invoke method base (some returns)

/-- One step of an asynchronous call: it may call an effectful function. -/
theorem stepAsync (f : Frame) (call : AsyncCall) :
    CallsLast host (fun host => Exec.stepAsync host f call) none := by
  refine after (Looks.takeFrom f.stackBase) fun args => after (Looks.modifyFrame _) fun _ => ?_
  refine afterQuiet (Looks.askStep host call.function call.object _) (fun _ => rfl) fun answer => ?_
  cases answer with
  | call callee args =>
    exact after (Looks.pushAll args) fun _ => (invoke callee f.stackBase none).giving none
  | _ => exact quiet fun _ => rfl

/-! ### Operators -/

theorem callOverload (op : BinaryOp) (method x y : Value) :
    CallsLast host (fun host => Exec.callOverload host op method x y) () := by
  have hcall : CallsLast host (fun host => Exec.callMethod host method 2 1 1) () :=
    callMethod method 2 1 1
  have hcopies (a b : Value) : CallsLast host (fun host => if op = .leq ∨ op = .geq then do
        Exec.push a
        Exec.push b
        Exec.callMethod host method 2 1 1
      else Exec.callMethod host method 2 1 1) () :=
    ite (after (Looks.push a) fun _ => after (Looks.push b) fun _ => hcall) hcall
  exact ite (after (Looks.overwriteTop _) fun _ => hcopies _ _) (hcopies _ _)

theorem operateBinary (op : BinaryOp) :
    CallsLast host (fun host => Exec.operateBinary host op) () := by
  refine after (Looks.peek 0) fun y => after (Looks.peek 1) fun x => after Looks.heap fun h => ?_
  refine after (Looks.ofFault _) fun value => ?_
  cases value with
  | some value => exact quiet fun _ => rfl
  | none =>
    cases hmethod : h.overloadMethod op x y with
    | some method => simpa only [hmethod] using callOverload op method x y
    | none => exact quiet fun _ => rfl

theorem orderEqual (op : BinaryOp) : CallsLast host (fun host => Exec.orderEqual host op) () := by
  refine after Looks.pop fun less => ite (quiet fun _ => rfl) ?_
  refine after (Looks.peek 0) fun b => after (Looks.peek 1) fun a => after Looks.heap fun h => ?_
  cases hmethod : h.binaryMethod a b "__equ" (Overload.ofBinary op).latterFirst with
  | some method => simpa only [hmethod] using callMethod method 2 1 2
  | none => exact quiet fun _ => rfl

theorem binaryOperator (op : BinaryOp) (phase : Nat) :
    CallsLast host (fun host => Exec.binaryOperator host op phase) () := by
  refine ite ?_ ?_
  · cases OrderPhase.ofNumber phase with
    | less => exact operateBinary op
    | equal => exact orderEqual op
    | finish => exact quiet fun _ => rfl
  · cases OperatorPhase.ofNumber phase with
    | operate => exact operateBinary op
    | finish => exact quiet fun _ => rfl

theorem unaryOperator (op : UnaryOp) (phase : Nat) :
    CallsLast host (fun host => Exec.unaryOperator host op phase) () := by
  unfold Exec.unaryOperator
  cases OperatorPhase.ofNumber phase with
  | finish => exact quiet fun _ => rfl
  | operate =>
    refine after (Looks.peek 0) fun x => ?_
    cases hvalue : Operator.unary op x with
    | some value => exact quiet fun _ => rfl
    | none =>
      refine after Looks.heap fun h => ?_
      cases hmethod : h.metamethod x (Overload.ofUnary op) with
      | some method => simpa only [hmethod] using callMethod method 1 1 1
      | none => exact quiet fun _ => rfl

theorem readEntry (throughMethod : Bool) :
    CallsLast host (fun host => Exec.readEntry host throughMethod) () := by
  refine after (Looks.peek 0) fun key => after (Looks.peek 1) fun container => ?_
  refine after Looks.heap fun h => ?_
  cases container with
  | vector v => exact quiet fun _ => rfl
  | _ =>
    refine after (Looks.ofFault _) fun t => ?_
    cases hmethod : if throughMethod then h.tableMethod t "__ren" else none with
    | some method => simpa only [hmethod] using callMethod method 2 1 1
    | none => exact quiet fun _ => rfl

theorem updateEntry (throughMethod : Bool) :
    CallsLast host (fun host => Exec.updateEntry host throughMethod) () := by
  refine after (Looks.peek 0) fun key => after (Looks.peek 1) fun container => ?_
  refine after (Looks.peek 2) fun value => after Looks.heap fun h => ?_
  cases container with
  | vector v => exact quiet fun _ => rfl
  | _ =>
    refine after (Looks.ofFault _) fun t => ?_
    cases hmethod : if throughMethod then h.tableMethod t "__uen" else none with
    | some method =>
      simpa only [hmethod] using after (Looks.overwriteTop _) fun _ => callMethod method 3 0 1
    | none => exact quiet fun _ => rfl

theorem tableOperator (op : TableOp) (phase : Nat) :
    CallsLast host (fun host => Exec.tableOperator host op phase) () := by
  unfold Exec.tableOperator
  cases OperatorPhase.ofNumber phase with
  | finish => exact quiet fun _ => rfl
  | operate =>
    cases op with
    | read => exact readEntry true
    | readLocal => exact readEntry false
    | update => exact updateEntry true
    | updateLocal => exact updateEntry false
    | _ => exact quiet fun _ => rfl

/-! ### Steps -/

/-- **Every phase of every instruction.** -/
theorem execute (r : Ref .function) (context : Ref .context) (op : Op) (imm : Int64) (phase : Nat) :
    CallsLast host (fun host => Exec.execute host r context op imm phase) none := by
  cases op with
  | binary o => exact (binaryOperator o phase).giving none
  | table o => exact (tableOperator o phase).giving none
  | unary o => exact (unaryOperator o phase).giving none
  | control o =>
    cases o with
    | call =>
      refine after Looks.pop fun callee => after Looks.peekDelimiter fun base => ?_
      exact (invoke callee base none).giving none
    | _ => exact quiet fun _ => rfl
  | loadInt w => cases w <;> exact quiet fun _ => rfl
  | _ => exact quiet fun _ => rfl

/-- A coroutine that is resumed calls its entry. -/
theorem opening (state : Lifecycle) (entry : Value) (context : Option (Ref .context))
    (args : List Value) :
    CallsLast host (fun host => Coroutine.opening host state entry context args) () := by
  unfold Coroutine.opening
  refine ite ?_ (quiet fun _ => rfl)
  refine after Looks.height fun base => after (Looks.pushAll args) fun _ => ?_
  split
  · exact quiet fun _ => rfl
  · exact invoke _ base none

end CallsLast

/-- **An effectful function is called at the end of a step.**  Whatever the host's effectful
functions are, the step does the same and calls none of them; or it looks at the heap, comes to a
call and leaves the rest to the function and to `settle`. -/
theorem step_callsLast (host : Host σ) : CallsLast host Exec.step none := by
  refine CallsLast.after Looks.get fun M => ?_
  cases hframe : M.memory.frames.last? with
  | none => exact .quiet fun _ => rfl
  | some f =>
    cases hactivity : f.activity with
    | async call => simpa only [hactivity] using CallsLast.stepAsync f call
    | bytecode r context =>
      simp only [hactivity]
      exact CallsLast.after (Looks.fetch r) fun next => .execute r context next.1 next.2.1 next.2.2

end Exec

end ScriptVm
