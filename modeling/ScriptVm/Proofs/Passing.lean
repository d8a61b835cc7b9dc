import ScriptVm.Proofs.Closures
import ScriptVm.Proofs.Places

/-!
# What an instruction passes on

An instruction gets the values it leaves behind from those it finds, from the
host, or it makes them.  Then they refer to no closure, but for the one
instruction that makes a closure, of a unit that it has found.  All others leave
the closures as they are, but for the contexts these are bound to, so they stay
fixed while they run; and everything they leave behind refers to closures of some
sort if everything they find does, and all that the host keeps.

Main statements: `Exec.Passes.execute` (instructions), `Exec.Passes.stepAsync`
(steps of asynchronous calls), `Exec.Passes.opening` (how a coroutine begins) and
`Exec.step_closed` (all steps).
-/

namespace ScriptVm

variable {σ α β : Type} {good : Ref .function → Prop} {fit : Prototype → Prop}
  {keeps : (Ref .function → Prop) → σ → Prop}

/-! ### Computations -/

/-- The machine and its host refer to no closures but good ones, and these are all of some sort. -/
structure Machine.Whole (fit : Prototype → Prop)
    (keeps : (Ref .function → Prop) → σ → Prop)
    (good : Ref .function → Prop) (M : Machine σ) : Prop where
  heap : M.heap.Whole fit good
  memory : M.memory.Among good
  state : keeps good M.state

namespace Exec

/-- **A computation that passes on what it finds**: it makes no closure, refers to none that are not
there, and what it answers has a property of its own. -/
def Passes (fit : Prototype → Prop) (keeps : (Ref .function → Prop) → σ → Prop)
    (good : Ref .function → Prop) (post : α → Prop) (x : Exec σ α) : Prop :=
  ∀ M, M.Whole fit keeps good → (last (x M)).Whole fit keeps good ∧ ∀ a N,
    x M = .ok a N → post a

/-- A computation without an answer. -/
abbrev Keeps (fit : Prototype → Prop) (keeps : (Ref .function → Prop) → σ → Prop)
    (good : Ref .function → Prop) (x : Exec σ Unit) : Prop :=
  Passes fit keeps good (fun _ => True) x

namespace Passes

variable {post : α → Prop} {post' : β → Prop}

/-! #### Rules -/

theorem bind {x : Exec σ α} {f : α → Exec σ β} (hx : Passes fit keeps good post x)
    (hf : ∀ a, post a → Passes fit keeps good post' (f a)) :
    Passes fit keeps good post' (x >>= f) := by
  intro M hM
  obtain ⟨hlast, hpost⟩ := hx M hM
  rw [bind_apply]
  cases hresult : x M with
  | error e N =>
    rw [hresult] at hlast
    exact ⟨hlast, fun _ _ h => by cases h⟩
  | ok a N =>
    rw [hresult] at hlast
    exact hf a (hpost a N hresult) N hlast

theorem ite {c : Prop} [Decidable c] {x y : Exec σ α} (hx : Passes fit keeps good post x)
    (hy : Passes fit keeps good post y) : Passes fit keeps good post (if c then x else y) := by
  split
  · exact hx
  · exact hy

theorem pure {a : α} (ha : post a) : Passes fit keeps good post (Pure.pure a : Exec σ α) := by
  refine fun M hM => ⟨hM, fun b N h => ?_⟩
  cases h
  exact ha

/-- An answer of which nothing is to be known. -/
theorem done (a : α) : Passes fit keeps good (fun _ => True) (Pure.pure a : Exec σ α) :=
  pure trivial

theorem fault (f : Fault) : Passes fit keeps good post (Exec.fault f : Exec σ α) :=
  fun M hM => ⟨hM, fun _ _ h => by cases h⟩

theorem defect (d : Defect) : Passes fit keeps good post (Exec.defect d : Exec σ α) :=
  fun M hM => ⟨hM, fun _ _ h => by cases h⟩

theorem ofFault {x : Except Fault α} (hx : ∀ a, x = .ok a → post a) :
    Passes fit keeps good post (Exec.ofFault x : Exec σ α) := by
  cases x with
  | ok a => exact pure (hx a rfl)
  | error f => exact fault f

theorem ofDefect {x : Except Defect α} (hx : ∀ a, x = .ok a → post a) :
    Passes fit keeps good post (Exec.ofDefect x : Exec σ α) := by
  cases x with
  | ok a => exact pure (hx a rfl)
  | error d => exact defect d

theorem unsaid (x : Except Defect α) :
    Passes fit keeps good (fun _ => True) (Exec.ofDefect x : Exec σ α) :=
  ofDefect fun _ _ => trivial

theorem checked (x : Except Fault α) :
    Passes fit keeps good (fun _ => True) (Exec.ofFault x : Exec σ α) :=
  ofFault fun _ _ => trivial

theorem get :
    Passes fit keeps good (fun M => M.Whole fit keeps good)
      (MonadState.get : Exec σ (Machine σ)) := by
  refine fun M hM => ⟨hM, fun a N h => ?_⟩
  cases h
  exact hM

theorem heap : Passes fit keeps good (fun h => h.Whole fit good) (Exec.heap : Exec σ Heap) := by
  refine fun M hM => ⟨hM, fun a N h => ?_⟩
  cases h
  exact hM.heap

theorem change {φ : Machine σ → Machine σ}
    (h : ∀ M : Machine σ, M.Whole fit keeps good → (φ M).Whole fit keeps good) :
    Keeps fit keeps good (modify φ : Exec σ Unit) :=
  fun M hM => ⟨h M hM, fun _ _ _ => trivial⟩

theorem onHeap {φ : Heap → Heap} (h : ∀ h : Heap, h.Whole fit good → (φ h).Whole fit good) :
    Keeps fit keeps good (modify fun m => m.onHeap φ : Exec σ Unit) :=
  change fun _ hM => ⟨h _ hM.heap, hM.memory, hM.state⟩

theorem allocate {kind : Kind} {make : Heap → Ref kind × Heap}
    (h : ∀ h : Heap, h.Whole fit good → (make h).2.Whole fit good) :
    Passes fit keeps good (fun _ => True) (Exec.allocate make : Exec σ (Ref kind)) :=
  fun _ hM => ⟨⟨h _ hM.heap, hM.memory, hM.state⟩, fun _ _ _ => trivial⟩

theorem values {φ : Stack Value → Stack Value}
    (h : ∀ s : Stack Value, Value.AllAmong good s.toList → Value.AllAmong good (φ s).toList) :
    Keeps fit keeps good (modify fun m => m.onValues φ : Exec σ Unit) :=
  change fun _ hM => ⟨hM.heap, ⟨h _ hM.memory.values, hM.memory.frames⟩, hM.state⟩

/-! #### The stack -/

theorem frame : Passes fit keeps good (fun f => f.Among good) (Exec.frame : Exec σ Frame) := by
  refine get.bind fun M hM => ?_
  cases hf : M.memory.frames.last? with
  | some f => exact pure (hM.memory.last hf)
  | none => exact defect _

theorem modifyFrame {φ : Frame → Frame} (h : ∀ f : Frame, f.Among good → (φ f).Among good) :
    Keeps fit keeps good (Exec.modifyFrame φ : Exec σ Unit) := by
  refine frame.bind fun _ _ => change fun M hM =>
    ⟨hM.heap, ⟨hM.memory.values, fun g hg => ?_⟩, hM.state⟩
  rcases Stack.mem_modifyLast (s := M.memory.frames) hg with hold | ⟨f, hf, rfl⟩
  · exact hM.memory.frames g hold
  · exact h f (hM.memory.last hf)

theorem height : Passes fit keeps good (fun _ => True) (Exec.height : Exec σ Nat) :=
  get.bind fun _ _ => done _

theorem heightLess (n : Nat) :
    Passes fit keeps good (fun _ => True) (Exec.heightLess n : Exec σ Nat) :=
  height.bind fun _ _ => ite (done _) (defect _)

theorem pushAll {vs : List Value} (hvs : Value.AllAmong good vs) :
    Keeps fit keeps good (Exec.pushAll vs : Exec σ Unit) := by
  refine values fun s hs => ?_
  rw [Stack.toList_pushAll]
  exact hs.append hvs

theorem push {v : Value} (hv : v.Among good) :
    Keeps fit keeps good (Exec.push v : Exec σ Unit) := by
  refine values fun s hs => ?_
  rw [Stack.toList_push]
  exact hs.append (.cons hv .nil)

theorem truncate (n : Nat) :
    Keeps fit keeps good (modify fun m => m.onValues fun values =>
      values.truncate n : Exec σ Unit) := by
  refine values fun s hs => ?_
  rw [Stack.toList_truncate]
  exact hs.some (List.take_subset _ _)

theorem fillTo (n : Nat) :
    Keeps fit keeps good (modify fun m => m.onValues fun values =>
      values.fillTo n : Exec σ Unit) := by
  refine values fun s hs => ?_
  rw [Stack.toList_fillTo]
  refine hs.append fun v hv => ?_
  rw [List.eq_of_mem_replicate hv]
  exact Value.among_nil

theorem dropLast :
    Keeps fit keeps good (modify fun m => m.onValues fun values =>
      values.dropLast : Exec σ Unit) := by
  refine values fun s hs => ?_
  rw [Stack.toList_dropLast]
  exact hs.some (List.dropLast_subset _)

theorem pop : Passes fit keeps good (fun v => v.Among good) (Exec.pop : Exec σ Value) := by
  refine frame.bind fun f _ => height.bind fun n _ => ite (fault _) (get.bind fun M hM => ?_)
  cases hv : M.memory.values.last? with
  | none => exact defect _
  | some v =>
    rw [Stack.last?_eq_getLast?] at hv
    have hamong : v.Among good := hM.memory.values v (List.mem_of_getLast? hv)
    exact dropLast.bind fun _ _ => pure hamong

theorem peek (n : Nat) :
    Passes fit keeps good (fun v => v.Among good) (Exec.peek n : Exec σ Value) := by
  refine frame.bind fun _ _ => height.bind fun _ _ => ite (fault _) (get.bind fun M hM => ?_)
  refine ofDefect fun v hv => ?_
  rw [Stack.top_eq] at hv
  split at hv
  · next hget =>
    cases hv
    exact hM.memory.values _ (List.mem_reverse.mp (List.mem_of_getElem? hget))
  · cases hv

theorem replaceTop (n : Nat) {v : Value} (hv : v.Among good) :
    Keeps fit keeps good (Exec.replaceTop n v : Exec σ Unit) := by
  have hpops : Keeps fit keeps good (Exec.popMany n : Exec σ Unit) := by
    induction n with
    | zero => exact done _
    | succ n ih => exact pop.bind fun _ _ => ih
  exact hpops.bind fun _ _ => push hv

theorem overwriteTop {vs : List Value} (hvs : Value.AllAmong good vs) :
    Keeps fit keeps good (Exec.overwriteTop vs : Exec σ Unit) := by
  refine (heightLess _).bind fun start _ => values fun s hs => ?_
  rw [Stack.toList_pushAll, Stack.toList_truncate]
  exact (hs.some (List.take_subset _ _)).append hvs

theorem slot (i : Nat) :
    Passes fit keeps good (fun v => v.Among good) (Exec.slot i : Exec σ Value) := by
  refine get.bind fun M hM => ofDefect fun v hv => ?_
  rw [Stack.get_eq] at hv
  split at hv
  · next hget =>
    cases hv
    exact hM.memory.values _ (List.mem_of_getElem? hget)
  · cases hv

theorem setSlot (i : Nat) {v : Value} (hv : v.Among good) :
    Keeps fit keeps good (Exec.setSlot i v : Exec σ Unit) := by
  refine height.bind fun _ _ => ite (values fun s hs => ?_) (defect _)
  rw [Stack.toList_write]
  intro w hw
  rcases List.mem_or_eq_of_mem_set hw with hold | rfl
  · exact hs w hold
  · exact hv

/-- The values of a run. -/
theorem valuesFrom {M : Machine σ} (hM : M.Whole fit keeps good) {start : Nat} {vs : List Value}
    (hvs : M.memory.values.valuesFrom start = .ok vs) : Value.AllAmong good vs := by
  rw [Stack.valuesFrom_eq] at hvs
  split at hvs
  · cases hvs
    exact hM.memory.values.some (List.drop_subset _ _)
  · cases hvs

theorem takeFrom (start : Nat) :
    Passes fit keeps good (fun vs => Value.AllAmong good vs)
      (Exec.takeFrom start : Exec σ (List Value)) := by
  refine get.bind fun M hM => (ofDefect fun vs hvs => valuesFrom hM hvs).bind fun vs hvs => ?_
  exact (truncate _).bind fun _ _ => pure hvs

theorem shape (sizes : Sizes) (base : Nat) (size : Option Nat) :
    Keeps fit keeps good (Exec.shape sizes base size : Exec σ Unit) := by
  cases size with
  | none => exact done _
  | some size =>
    refine (unsaid _).bind fun goal _ => ?_
    exact height.bind fun _ _ => ite (truncate goal) (fillTo goal)

theorem dropWrite : Keeps fit keeps good (Exec.dropWrite : Exec σ Unit) :=
  (heightLess 3).bind fun _ _ => truncate _

/-! #### Delimiters -/

/-- A change of the delimiters. -/
theorem delimiters {φ : Machine σ → Stack Nat → Stack Nat} :
    Keeps fit keeps good (modify fun m => m.onDelimiters (φ m) : Exec σ Unit) :=
  change fun _ hM => ⟨hM.heap, ⟨hM.memory.values, hM.memory.frames⟩, hM.state⟩

/-- A change of the try marks. -/
theorem marks {φ : Machine σ → Stack TryMark → Stack TryMark} :
    Keeps fit keeps good (modify fun m => m.onMarks (φ m) : Exec σ Unit) :=
  change fun _ hM => ⟨hM.heap, ⟨hM.memory.values, hM.memory.frames⟩, hM.state⟩

theorem checkDelimiter (n : Nat) :
    Passes fit keeps good (fun _ => True) (Exec.checkDelimiter n : Exec σ Nat) :=
  height.bind fun _ _ => ite (fault _) (done _)

theorem peekDelimiter :
    Passes fit keeps good (fun _ => True) (Exec.peekDelimiter : Exec σ Nat) := by
  refine frame.bind fun f _ => (get.bind fun m _ => done _).bind fun own _ => ?_
  cases own with
  | false => exact checkDelimiter _
  | true =>
    exact get.bind fun m _ => (unsaid _).bind fun position _ => checkDelimiter position

theorem popDelimiter : Passes fit keeps good (fun _ => True) (Exec.popDelimiter : Exec σ Nat) := by
  refine frame.bind fun f _ => (get.bind fun m _ => done _).bind fun own _ => ?_
  cases own with
  | false => exact checkDelimiter _
  | true =>
    refine get.bind fun m _ => (unsaid _).bind fun position _ => ?_
    exact delimiters.bind fun _ _ => checkDelimiter position

/-! #### Calls -/

theorem continueAt (phase : Nat) : Keeps fit keeps good (Exec.continueAt phase : Exec σ Unit) :=
  modifyFrame fun _ hf => hf

/-- A frame comes on top. -/
theorem begin {make : Machine σ → Frame} (hmake : ∀ M, (make M).Among good) :
    Keeps fit keeps good (modify fun m => m.onFrames fun frames =>
      frames.push (make m) : Exec σ Unit) := by
  refine change fun M hM => ⟨hM.heap, ⟨hM.memory.values, fun f hf => ?_⟩, hM.state⟩
  have hlist : f ∈ M.memory.frames.toList ++ [make M] :=
    Stack.toList_push M.memory.frames _ ▸ hf
  rcases List.mem_append.mp hlist with hold | hnew
  · exact hM.memory.frames f hold
  · rw [List.mem_singleton] at hnew
    exact hnew ▸ hmake M

section

variable (host : Host σ)

theorem enter {r : Ref .function} (hr : good r) (base : Nat) (returnSize : Option Nat)
    (context : Option (Ref .context)) :
    Keeps fit keeps good (Exec.enter host r base returnSize context) := by
  refine heap.bind fun h _ => (heightLess base).bind fun argumentCount _ => ?_
  refine height.bind fun top _ => (unsaid _).bind fun room _ => ?_
  have hentered (c : Ref .context) : Keeps fit keeps good (do
      modify fun m => m.onHeap fun h' => h'.declareVariables c (h.prototype r).declared
      modify fun m => m.onValues fun values => values.fillTo room
      modify fun m => m.onFrames fun frames => frames.push {
        activity := .bytecode r c
        stackBase := base
        argumentCount
        localsBase := top
        privateBase := room
        ip := 0
        nextIp := 0
        delimiterBase := m.memory.delimiters.size
        tryBase := m.memory.marks.size
        returnSize
        progress := .none } : Exec σ Unit) :=
    (onHeap fun _ hh => hh.declareVariables c _).bind fun _ _ => (fillTo room).bind fun _ _ =>
      begin fun _ => hr
  cases context with
  | some c => exact (done c).bind fun c _ => hentered c
  | none => exact (allocate fun _ hh => hh.newContext _).bind fun c _ => hentered c

theorem leave {results : List Value} (hresults : Value.AllAmong good results) :
    Keeps fit keeps good (Exec.leave host results) := by
  refine frame.bind fun f _ => ?_
  have hdrop : Keeps fit keeps good (modify fun m => m.onFrames Stack.dropLast : Exec σ Unit) := by
    refine change fun M hM => ⟨hM.heap, ⟨hM.memory.values, fun g hg => ?_⟩, hM.state⟩
    have hlist : g ∈ M.memory.frames.toList.dropLast :=
      Stack.toList_dropLast M.memory.frames ▸ hg
    exact hM.memory.frames g (List.dropLast_subset _ hlist)
  refine hdrop.bind fun _ _ => (truncate _).bind fun _ _ => (pushAll hresults).bind fun _ _ => ?_
  exact (shape _ _ _).bind fun _ _ => delimiters.bind fun _ _ => marks

end

section

variable {host : Host σ} (hhost : host.Honest fit keeps)
include hhost

theorem openCall (r : Ref .asyncExternal) :
    Passes fit keeps good (fun _ => True) (Exec.openCall host r) :=
  fun _ hM => ⟨⟨hM.heap, hM.memory, hhost.opening r _ hM.heap hM.memory hM.state⟩,
    fun _ _ _ => trivial⟩

theorem enterAsync (r : Ref .asyncExternal) (base : Nat) (returnSize : Option Nat) :
    Keeps fit keeps good (Exec.enterAsync host r base returnSize) :=
  (openCall hhost r).bind fun _ _ => (heightLess base).bind fun _ _ =>
    begin fun _ _ h => absurd h List.not_mem_nil

theorem runEffect (r : Ref .effectExternal) {args : List Value} (hargs : Value.AllAmong good args) :
    Passes fit keeps good (fun vs => Value.AllAmong good vs) (Exec.runEffect host r args) := by
  refine get.bind fun M hM => ?_
  obtain ⟨hanswers, hstate⟩ :=
    hhost.effectFn r ⟨M.heap, M.memory, M.config⟩ hM.heap hM.memory hargs hM.state
  have hset : Keeps fit keeps good (MonadStateOf.set
      { M with state := (host.callEffect r ⟨M.heap, M.memory, M.config⟩ args M.state).2 }
      : Exec σ Unit) :=
    fun _ _ => ⟨⟨hM.heap, hM.memory, hstate⟩, fun _ _ _ => trivial⟩
  exact hset.bind fun _ _ => ofFault hanswers

theorem askStep (r : Ref .asyncExternal) (object : Nat) {history : List (List Value)}
    (hhistory : ∀ args ∈ history, Value.AllAmong good args) :
    Passes fit keeps good (fun answer => answer.Among good)
      (Exec.askStep host r object history) := by
  refine get.bind fun M hM => ?_
  obtain ⟨hanswers, hstate⟩ := hhost.asyncFn r object hM.heap hhistory hM.state
  have hset : Keeps fit keeps good (MonadStateOf.set
      { M with state := (host.stepAsync r object M.heap history M.state).2 } : Exec σ Unit) :=
    fun _ _ => ⟨⟨hM.heap, hM.memory, hstate⟩, fun _ _ _ => trivial⟩
  exact hset.bind fun _ _ => ofFault hanswers

/-- **Every call.** -/
theorem invoke {callee : Value} (hcallee : callee.Among good) (base : Nat)
    (returnSize : Option Nat) : Keeps fit keeps good (Exec.invoke host callee base returnSize) := by
  have hresults {results : List Value} (h : Value.AllAmong good results) : Keeps fit keeps good (do
      Exec.pushAll results
      Exec.shape host.sizes base returnSize : Exec σ Unit) :=
    (pushAll h).bind fun _ _ => shape _ base returnSize
  cases callee with
  | function r => exact enter host (Value.among_function.mp hcallee) base returnSize none
  | asyncFn r => exact enterAsync hhost r base returnSize
  | pureFn r =>
    refine (takeFrom base).bind fun args hargs => heap.bind fun h hh => ?_
    exact (ofFault fun vs hvs => hhost.pureFn hh hargs hvs).bind fun _ hvs => hresults hvs
  | effectFn r =>
    refine (takeFrom base).bind fun args hargs => (runEffect hhost r hargs).bind ?_
    exact fun _ hvs => hresults hvs
  | _ => exact heap.bind fun h _ => fault _

theorem callMethod {method : Value} (hmethod : method.Among good) (argc returns phase : Nat) :
    Keeps fit keeps good (Exec.callMethod host method argc returns phase) :=
  (continueAt phase).bind fun _ _ => (heightLess argc).bind fun base _ =>
    invoke hhost hmethod base (some returns)

/-- **Every step of an asynchronous call.** -/
theorem stepAsync {f : Frame} (hf : f.Among good) {call : AsyncCall}
    (hcall : f.activity = .async call) :
    Passes fit keeps good (fun exit => ∀ e, exit = some e → e.Among good)
      (Exec.stepAsync host f call) := by
  have hold : ∀ args ∈ call.history, Value.AllAmong good args := by
    unfold Frame.Among at hf
    rwa [hcall] at hf
  refine (takeFrom f.stackBase).bind fun args hargs => ?_
  have hhistory : ∀ vs ∈ call.history ++ [args], Value.AllAmong good vs := by
    intro vs hvs
    rcases List.mem_append.mp hvs with hvs | hvs
    · exact hold vs hvs
    · rw [List.mem_singleton] at hvs
      exact hvs ▸ hargs
  have hrecord :
      Keeps fit keeps good (Exec.modifyFrame fun f => recordStep f (call.history ++ [args])
        : Exec σ Unit) := by
    refine modifyFrame fun g hg => ?_
    unfold recordStep
    split
    · exact hhistory
    · exact hg
  refine hrecord.bind fun _ _ => (askStep hhost _ _ hhistory).bind fun answer hanswer => ?_
  cases answer with
  | finish vs => exact (leave host hanswer).bind fun _ _ => pure nofun
  | yield vs =>
    refine pure fun e he => ?_
    cases he
    exact hanswer
  | switch q vs =>
    refine pure fun e he => ?_
    cases he
    exact hanswer
  | call callee vs =>
    refine (pushAll hanswer.2).bind fun _ _ => (invoke hhost hanswer.1 _ none).bind fun _ _ => ?_
    exact pure nofun

/-- **The opening of a coroutine.** -/
theorem opening (state : Lifecycle) {entry : Value} (hentry : entry.Among good)
    (context : Option (Ref .context)) {args : List Value} (hargs : Value.AllAmong good args) :
    Keeps fit keeps good (Coroutine.opening host state entry context args) := by
  refine ite (height.bind fun base _ => (pushAll hargs).bind fun _ _ => ?_) (pushAll hargs)
  split
  · exact enter host (Value.among_function.mp hentry) base none _
  · exact invoke hhost hentry base none

/-! #### Operators -/

theorem callOverload (op : BinaryOp) {method x y : Value} (hmethod : method.Among good)
    (hx : x.Among good) (hy : y.Among good) :
    Keeps fit keeps good (Exec.callOverload host op method x y) := by
  obtain ⟨hfirst, hsecond⟩ : ((Overload.ofBinary op).order x y).1.Among good
      ∧ ((Overload.ofBinary op).order x y).2.Among good := by
    unfold Overload.order
    split
    · exact ⟨hy, hx⟩
    · exact ⟨hx, hy⟩
  have hcall := callMethod hhost hmethod 2 1 1
  have hcopies {a b : Value} (ha : a.Among good) (hb : b.Among good) :
      Keeps fit keeps good (if op = .leq ∨ op = .geq then do
        Exec.push a
        Exec.push b
        Exec.callMethod host method 2 1 1
      else Exec.callMethod host method 2 1 1) :=
    ite ((push ha).bind fun _ _ => (push hb).bind fun _ _ => hcall) hcall
  unfold Exec.callOverload
  exact ite ((overwriteTop (.cons hfirst (.cons hsecond .nil))).bind fun _ _ =>
    hcopies hfirst hsecond) (hcopies hfirst hsecond)

theorem operateBinary (op : BinaryOp) : Keeps fit keeps good (Exec.operateBinary host op) := by
  refine (peek 0).bind fun y hy => (peek 1).bind fun x hx => heap.bind fun h hh => ?_
  have hnative (value : Option Value) (hvalue : Operator.binary h op x y = .ok value) :
      ∀ v, value = some v → v.Among good := by
    rintro v rfl
    exact Value.among_of_scalar (Operator.scalar_binary hvalue)
  refine (ofFault hnative).bind fun value hvalue => ?_
  cases value with
  | some value => exact replaceTop 2 (hvalue value rfl)
  | none =>
    dsimp only
    split
    · next hmethod => exact callOverload hhost op (hh.binaryMethod hmethod) hx hy
    · split
      · exact replaceTop 2 (Value.among_bool _)
      · exact replaceTop 2 (Value.among_bool _)
      · exact fault _

theorem orderEqual (op : BinaryOp) : Keeps fit keeps good (Exec.orderEqual host op) := by
  refine pop.bind fun less _ => ite (replaceTop 2 (Value.among_bool _)) ?_
  refine (peek 0).bind fun b _ => (peek 1).bind fun a _ => heap.bind fun h hh => ?_
  split
  · next hmethod => exact callMethod hhost (hh.binaryMethod hmethod) 2 1 2
  · exact fault _

theorem binaryOperator (op : BinaryOp) (phase : Nat) :
    Keeps fit keeps good (Exec.binaryOperator host op phase) := by
  have hjudge (φ : Value → Bool) : Keeps fit keeps good (do
      let result ← Exec.pop
      Exec.push (.bool (φ result)) : Exec σ Unit) :=
    pop.bind fun result _ => push (Value.among_bool _)
  refine ite ?_ ?_
  · cases OrderPhase.ofNumber phase with
    | less => exact operateBinary hhost op
    | equal => exact orderEqual hhost op
    | finish => exact hjudge Value.truthy
  · cases OperatorPhase.ofNumber phase with
    | operate => exact operateBinary hhost op
    | finish =>
      cases op <;> first | exact done () | exact hjudge Value.truthy | exact hjudge (!·.truthy)

theorem unaryOperator (op : UnaryOp) (phase : Nat) :
    Keeps fit keeps good (Exec.unaryOperator host op phase) := by
  unfold Exec.unaryOperator
  cases OperatorPhase.ofNumber phase with
  | finish => exact done ()
  | operate =>
    refine (peek 0).bind fun x _ => ?_
    split
    · next hvalue => exact replaceTop 1 (Value.among_of_scalar (Operator.scalar_unary hvalue))
    · refine heap.bind fun h hh => ?_
      split
      · next hmethod => exact callMethod hhost (hh.metamethod hmethod) 1 1 1
      · exact fault _

/-! #### Tables, vectors and variables -/

omit hhost in
theorem among_vectorItem {items : Array Value} (hitems : Value.AllAmong good items.toList)
    (key : Value) :
    (Exec.vectorItem items key).Among good := by
  cases key with
  | int i =>
    show (if i < 0 then Value.nil else items.getD i.toNatClampNeg .nil).Among good
    split
    · exact Value.among_nil
    · rw [Array.getD_eq_getD_getElem?]
      cases hitem : items[i.toNatClampNeg]? with
      | none => exact Value.among_nil
      | some x =>
        rw [← Array.getElem?_toList] at hitem
        exact hitems x (List.mem_of_getElem? hitem)
  | _ => exact Value.among_nil

theorem readEntry (throughMethod : Bool) :
    Keeps fit keeps good (Exec.readEntry host throughMethod) := by
  refine (peek 0).bind fun key _ => (peek 1).bind fun container _ => heap.bind fun h hh => ?_
  cases container with
  | vector v =>
    exact replaceTop 2 (among_vectorItem (hh.vectors v) key)
  | _ =>
    refine (checked _).bind fun t _ => ?_
    split
    · next hmethod =>
      cases throughMethod with
      | true => exact callMethod hhost (hh.tableMethod hmethod) 2 1 1
      | false => cases hmethod
    · cases hread : h.readEntry t key with
      | none => exact replaceTop 2 Value.among_nil
      | some v => exact replaceTop 2 (hh.readEntry hread)

theorem updateEntry (throughMethod : Bool) :
    Keeps fit keeps good (Exec.updateEntry host throughMethod) := by
  refine (peek 0).bind fun key hkey => (peek 1).bind fun container hcontainer => ?_
  refine (peek 2).bind fun value hvalue => heap.bind fun h hh => ?_
  cases container with
  | vector v =>
    refine (checked _).bind fun index _ => ite (fault _) ?_
    refine (onHeap fun _ hh => hh.modifyVector v fun items hitems => ?_).bind fun _ _ => dropWrite
    rw [Array.toList_setIfInBounds]
    intro x hx
    rcases List.mem_or_eq_of_mem_set hx with hold | rfl
    · exact hitems x hold
    · exact hvalue
  | _ =>
    refine (checked _).bind fun t _ => ?_
    split
    · next hmethod =>
      cases throughMethod with
      | true =>
        refine (overwriteTop (.cons hcontainer (.cons hkey (.cons hvalue .nil)))).bind fun _ _ => ?_
        exact callMethod hhost (hh.tableMethod hmethod) 3 0 1
      | false => cases hmethod
    · exact (onHeap fun _ hh => hh.writeEntry t hkey hvalue).bind fun _ _ => dropWrite

theorem operateTable (op : TableOp) : Keeps fit keeps good (Exec.operateTable host op) := by
  cases op with
  | setMeta =>
    refine heap.bind fun h _ => pop.bind fun v _ => (checked _).bind fun t _ => ?_
    refine pop.bind fun w _ => (checked _).bind fun m _ => ?_
    exact onHeap fun _ hh => hh.modifyTable t fun _ hu => hu
  | getMeta =>
    refine heap.bind fun h _ => pop.bind fun v _ => (checked _).bind fun t _ => ?_
    split
    · exact push (Value.among_table _)
    · exact push Value.among_nil
  | read => exact readEntry hhost true
  | readLocal => exact readEntry hhost false
  | update => exact updateEntry hhost true
  | updateLocal => exact updateEntry hhost false
  | insert =>
    refine pop.bind fun value hvalue => pop.bind fun key hkey => heap.bind fun h _ => ?_
    refine (peek 0).bind fun v _ => (checked _).bind fun t _ => ?_
    exact onHeap fun _ hh => hh.writeEntry t hkey hvalue
  | push =>
    refine heap.bind fun h _ => pop.bind fun w _ => (checked _).bind fun v _ => ?_
    refine pop.bind fun value hvalue => onHeap fun _ hh => hh.modifyVector v fun items hitems => ?_
    rw [Array.toList_push]
    exact hitems.append (.cons hvalue .nil)
  | pop =>
    refine heap.bind fun h hh => pop.bind fun w _ => (checked _).bind fun v _ => ?_
    split
    · next value hvalue =>
      have hamong : value.Among good := by
        rw [← Array.getLast?_toList] at hvalue
        exact hh.vectors v value (List.mem_of_getLast? hvalue)
      refine (onHeap fun _ hh => hh.modifyVector v fun items hitems => ?_).bind fun _ _ =>
        push hamong
      rw [Array.toList_pop]
      exact hitems.some (List.dropLast_subset _)
    · exact fault _

theorem tableOperator (op : TableOp) (phase : Nat) :
    Keeps fit keeps good (Exec.tableOperator host op phase) := by
  unfold Exec.tableOperator
  cases OperatorPhase.ofNumber phase with
  | operate => exact operateTable hhost op
  | finish => exact done ()

end

theorem readVariable (scope : Ref .context) :
    Keeps fit keeps good (Exec.readVariable scope : Exec σ Unit) := by
  refine heap.bind fun h _ => pop.bind fun v _ => (checked _).bind fun name _ => ?_
  have hread : Passes fit keeps good (fun v => v.Among good) (modifyGet fun m : Machine σ =>
      ((m.heap.readVariable scope name).1, { m with heap := (m.heap.readVariable scope name).2 })
      : Exec σ Value) := by
    refine fun M hM => ⟨⟨hM.heap.readVariable scope name, hM.memory, hM.state⟩,
      fun v N h => ?_⟩
    cases h
    exact (hM.heap.toAmong.readVariable scope name).1
  exact hread.bind fun _ hv => push hv

theorem writeVariable (scope : Ref .context) :
    Keeps fit keeps good (Exec.writeVariable scope : Exec σ Unit) := by
  refine heap.bind fun h _ => pop.bind fun v _ => (checked _).bind fun name _ => ?_
  exact pop.bind fun value hvalue => onHeap fun _ hh => hh.writeVariable scope name hvalue

theorem scopeOperator (context : Ref .context) (op : ScopeOp) :
    Keeps fit keeps good (Exec.scopeOperator context op : Exec σ Unit) := by
  cases op with
  | read => exact readVariable context
  | write => exact writeVariable context
  | readGlobal => exact heap.bind fun h _ => readVariable (h.root context)
  | writeGlobal => exact heap.bind fun h _ => writeVariable (h.root context)

/-! #### Loads and the stack -/

theorem loadString (r : Ref .function) (imm : Int64) :
    Keeps fit keeps good (Exec.loadString r imm : Exec σ Unit) := by
  refine heap.bind fun h _ => ?_
  dsimp only
  split
  · exact push (Value.among_str _)
  · exact fault _

theorem loadConstant (host : Host σ) (c : Constant) (imm : Int64) :
    Keeps fit keeps good (Exec.loadConstant host c imm) := by
  cases c with
  | newTable => exact (allocate fun _ hh => hh.newTable).bind fun t _ => push (Value.among_table t)
  | newVector =>
    refine get.bind fun m _ => (unsaid _).bind fun _ _ => ?_
    exact (allocate fun _ hh => hh.newVector .nil).bind fun v _ => push (Value.among_vector v)
  | argumentCount => exact frame.bind fun f _ => push (Value.among_int _)
  | nil => exact push Value.among_nil
  | float => exact push (Value.among_float _)
  | true | false => exact push (Value.among_bool _)

theorem localSlot (imm : Int64) :
    Passes fit keeps good (fun _ => True) (Exec.localSlot imm : Exec σ Nat) :=
  frame.bind fun _ _ => ite (fault _) (done _)

theorem loadLocal (imm : Int64) : Keeps fit keeps good (Exec.loadLocal imm : Exec σ Unit) :=
  (localSlot imm).bind fun i _ => (slot i).bind fun _ hv => push hv

theorem storeLocal (imm : Int64) : Keeps fit keeps good (Exec.storeLocal imm : Exec σ Unit) :=
  (localSlot imm).bind fun i _ => pop.bind fun _ hv => setSlot i hv

theorem loadArgument (imm : Int64) : Keeps fit keeps good (Exec.loadArgument imm : Exec σ Unit) :=
  frame.bind fun _ _ => ite ((slot _).bind fun _ hv => push hv) (push Value.among_nil)

theorem condition (c : Condition) :
    Passes fit keeps good (fun _ => True) (Exec.condition c : Exec σ Bool) := by
  cases c with
  | always => exact done true
  | _ => exact pop.bind fun v _ => done _

theorem jumpTarget (r : Ref .function) (imm : Int64) :
    Passes fit keeps good (fun _ => True) (Exec.jumpTarget r imm : Exec σ Nat) :=
  heap.bind fun _ _ => frame.bind fun _ _ => ite (fault _) (done _)

theorem branch (r : Ref .function) (c : Condition) (imm : Int64) :
    Keeps fit keeps good (Exec.branch r c imm : Exec σ Unit) := by
  refine (condition c).bind fun taken _ => ite ?_ (done ())
  exact (jumpTarget r imm).bind fun target _ => modifyFrame fun _ hf => hf

theorem tryOperator (r : Ref .function) (op : TryOp) (imm : Int64) :
    Keeps fit keeps good (Exec.tryOperator r op imm : Exec σ Unit) := by
  cases op with
  | enter w => exact (jumpTarget r imm).bind fun target _ => marks
  | leave => exact frame.bind fun f _ => get.bind fun m _ => ite marks (done ())
  | throw => exact pop.bind fun v _ => heap.bind fun h _ => fault _

theorem shapeRun (host : Host σ) (imm : Int64) : Keeps fit keeps good (Exec.shapeRun host imm) :=
  popDelimiter.bind fun start _ => shape _ start _

section

variable {host : Host σ} (hhost : host.Honest fit keeps)
include hhost

/-- Every instruction on the stack. -/
theorem control (context : Ref .context) (op : ControlOp) :
    Passes fit keeps good (fun exit => ∀ e, exit = some e → e.Among good)
      (Exec.control host context op) := by
  have hnone : Passes fit keeps good (fun exit => ∀ e, exit = some e → e.Among good)
      (Pure.pure none : Exec σ (Option Exit)) := pure nofun
  cases op with
  | dup => exact (peek 0).bind fun v hv => (push hv).bind fun _ _ => hnone
  | pop => exact pop.bind fun _ _ => hnone
  | makeCoroutine =>
    refine heap.bind fun h _ => pop.bind fun v hv => ?_
    have hentry (entry : Value) (hmade : coroutineEntry h v = .ok entry) : entry.Among good := by
      cases v <;> cases hmade <;> exact hv
    refine (ofFault hentry).bind fun entry hentry => get.bind fun m _ => ?_
    have hmake (made : Coroutine) (hmade : Coroutine.make host.sizes entry none m.config
      = .ok made) :
        made.Among good := by
      rcases Coroutine.make_cases host.sizes entry none m.config with h | ⟨d, h, -⟩
      · cases h.symm.trans hmade
        exact ⟨fun _ => hentry, .new _⟩
      · cases h.symm.trans hmade
    refine (ofDefect hmake).bind fun made hmade => ?_
    refine (allocate fun _ hh => hh.newCoroutine hmade).bind fun r _ => ?_
    exact (push (Value.among_coroutine r)).bind fun _ _ => hnone
  | yield =>
    refine peekDelimiter.bind fun start _ => (takeFrom start).bind fun vs hvs => pure fun e he => ?_
    cases he
    exact hvs
  | resume =>
    refine heap.bind fun h _ => pop.bind fun v _ => (checked _).bind fun r _ => ?_
    refine peekDelimiter.bind fun start _ => (takeFrom start).bind fun vs hvs => pure fun e he => ?_
    cases he
    exact hvs
  | delimit => exact delimiters.bind fun _ _ => hnone
  | call =>
    refine pop.bind fun callee hcallee => peekDelimiter.bind fun base _ => ?_
    exact (invoke hhost hcallee base none).bind fun _ _ => hnone
  | ret =>
    have hret : Keeps fit keeps good (Exec.ret host) :=
      popDelimiter.bind fun start _ => (takeFrom start).bind fun _ hvs => leave host hvs
    exact hret.bind fun _ _ => hnone
  | bind =>
    refine heap.bind fun h _ => (peek 0).bind fun v _ => (checked _).bind fun r _ => ?_
    exact (onHeap fun _ hh => hh.bind r context).bind fun _ _ => hnone
  | undelimit => exact popDelimiter.bind fun _ _ => hnone
  | dupRun =>
    refine peekDelimiter.bind fun start _ => get.bind fun m hm => ?_
    refine (ofDefect fun vs hvs => valuesFrom hm hvs).bind fun run hrun => ?_
    exact delimiters.bind fun _ _ => (pushAll hrun).bind fun _ _ => hnone
  | pack =>
    refine popDelimiter.bind fun start _ => (takeFrom start).bind fun items hitems => ?_
    refine (allocate fun _ hh => hh.newVector hitems).bind fun v _ => ?_
    exact (push (Value.among_vector v)).bind fun _ _ => hnone
  | unpack =>
    refine heap.bind fun h _ => pop.bind fun v _ => (checked _).bind fun r _ => ?_
    refine heap.bind fun h hh => delimiters.bind fun _ _ => ?_
    exact (pushAll (hh.vectors r)).bind fun _ _ => hnone
  | nop => exact hnone

/-- **Every instruction** that neither makes a closure nor calls the system. -/
theorem execute (r : Ref .function) (context : Ref .context) (op : Op) (imm : Int64) (phase : Nat)
    (hmakes : ∀ w, op ≠ .loadFunction w) (hsyscall : ∀ i, op ≠ .syscall i) :
    Passes fit keeps good (fun exit => ∀ e, exit = some e → e.Among good)
      (Exec.execute host r context op imm phase) := by
  have goes {x : Exec σ Unit} (hx : Keeps fit keeps good x) :
      Passes fit keeps good (fun exit => ∀ e, exit = some e → e.Among good)
        (x >>= fun _ => Pure.pure none : Exec σ (Option Exit)) := hx.bind fun _ _ => pure nofun
  cases op with
  | binary o => exact goes (binaryOperator hhost o phase)
  | table o => exact goes (tableOperator hhost o phase)
  | unary o => exact goes (unaryOperator hhost o phase)
  | scope o => exact goes (scopeOperator context o)
  | loadFunction w => exact absurd rfl (hmakes w)
  | loadString _ => exact goes (loadString r imm)
  | loadInt w => cases w <;> exact goes (push (Value.among_int _))
  | loadConstant c => exact goes (loadConstant host c imm)
  | loadLocal _ => exact goes (loadLocal imm)
  | storeLocal _ => exact goes (storeLocal imm)
  | loadArgument _ => exact goes (loadArgument imm)
  | branch c _ => exact goes (branch r c imm)
  | guarded o => exact goes (tryOperator r o imm)
  | shape _ => exact goes (shapeRun host imm)
  | syscall i => exact absurd rfl (hsyscall i)
  | control o => exact control hhost context o

end

/-! #### Fetching -/

theorem fetchNext (r : Ref .function) :
    Passes fit keeps good (fun _ => True) (Exec.fetchNext r : Exec σ (Op × Int64 × Nat)) := by
  refine bind (modifyFrame fun _ hf => hf) fun _ _ => frame.bind fun f _ => heap.bind fun h _ => ?_
  refine (checked _).bind fun instruction _ => bind (modifyFrame fun _ hf => hf) fun _ _ => ?_
  cases instruction.op with
  | none => exact fault _
  | some op =>
    have hnext (imm : Int64) : Passes fit keeps good (fun _ => True) (do
        Exec.modifyFrame fun f => { f with progress := (Progress.start op imm).complete }
        return (op, imm, 0) : Exec σ (Op × Int64 × Nat)) :=
      bind (modifyFrame fun _ hf => hf) fun _ _ => done _
    exact ite (heap.bind fun h _ => pop.bind fun v _ => (checked _).bind fun imm _ => hnext imm)
      ((done _).bind fun imm _ => hnext imm)

theorem fetch (r : Ref .function) :
    Passes fit keeps good (fun _ => True) (Exec.fetch r : Exec σ (Op × Int64 × Nat)) := by
  refine frame.bind fun f _ => ite (fetchNext r) (bind (modifyFrame fun _ hf => hf) fun _ _ => ?_)
  split
  · exact done _
  · exact fetchNext r

end Passes

end Exec

/-! ### Steps -/

/-- All closures that the heap refers to are of some sort. -/
def Heap.Closed (fit : Prototype → Prop) (h : Heap) : Prop :=
  h.Whole fit (h.ClosureOf fit)

/-- All closures that the machine and its host refer to are of some sort. -/
def Machine.Closed (fit : Prototype → Prop) (keeps : (Ref .function → Prop) → σ → Prop)
    (M : Machine σ) : Prop :=
  M.Whole fit keeps (M.heap.ClosureOf fit)

theorem Heap.Whole.closed {h : Heap} (hh : h.Whole fit good) : h.Closed fit := by
  obtain rfl := hh.closures
  exact hh

theorem Machine.Whole.closed {M : Machine σ} (hM : M.Whole fit keeps good) :
    M.Closed fit keeps := by
  obtain rfl := hM.heap.closures
  exact hM

namespace Heap

variable {h : Heap} (closure : Closure)

/-- A closure that is made leaves the others as they are. -/
theorem ClosureOf.add {r : Ref .function} (hr : h.ClosureOf fit r) :
    { h with functions := (h.functions.add closure).2 }.ClosureOf fit r := by
  obtain ⟨hheld, hcode⟩ := hr
  have hsame : (h.functions.add closure).2.get r = h.functions.get r :=
    h.functions.get_add_of_holds closure hheld
  refine ⟨Nat.lt_of_lt_of_le hheld (by rw [Store.size_add]; exact Nat.le_succ _), ?_⟩
  unfold Heap.function
  rw [hsame]
  exact hcode

/-- A new closure is of the sort that its unit is of. -/
theorem closureOf_add (hunit : h.UnitOf fit closure.unit) :
    { h with functions := (h.functions.add closure).2 }.ClosureOf fit
    (h.functions.add closure).1 := by
  refine ⟨by rw [Store.Holds, Store.size_add]; exact Nat.lt_succ_self _, ?_⟩
  unfold Heap.function
  rw [h.functions.get_add_self closure]
  exact hunit

/-- The heap with one more closure. -/
theorem Closed.add (hh : h.Closed fit) :
    Closed fit { h with functions := (h.functions.add closure).2 } :=
  ⟨(hh.toAmong.mono fun _ hr => hr.add closure).congr rfl rfl rfl rfl, rfl⟩

end Heap

namespace Exec

variable {host : Host σ}

/-- What is left is closed, and so are the values that leave the coroutine. -/
structure Leaves (fit : Prototype → Prop) (keeps : (Ref .function → Prop) → σ → Prop)
    (result : EStateM.Result Stop (Machine σ) (Option Exit)) : Prop where
  closed : (last result).Closed fit keeps
  exits : ∀ e N, result = .ok (some e) N → e.Among (N.heap.ClosureOf fit)

theorem Passes.leaves {x : Exec σ (Option Exit)}
    (hx : Passes fit keeps good (fun exit => ∀ e, exit = some e → e.Among good) x)
    {M : Machine σ} (hM : M.Whole fit keeps good) : Leaves fit keeps (x M) := by
  obtain ⟨hlast, hpost⟩ := hx M hM
  refine ⟨hlast.closed, fun e N h => ?_⟩
  have hgood : N.heap.ClosureOf fit = good := by
    rw [h] at hlast
    exact hlast.heap.closures
  rw [hgood]
  exact hpost (some e) N h e rfl

theorem Leaves.of_unit {x : Exec σ Unit} {M : Machine σ} (hx : (last (x M)).Closed fit keeps) :
    Leaves fit keeps ((x >>= fun _ => pure none : Exec σ (Option Exit)) M) := by
  rw [bind_apply]
  generalize x M = result at hx
  cases result with
  | error e N => exact ⟨hx, fun _ _ h => by cases h⟩
  | ok u N => exact ⟨hx, fun _ _ h => by cases h⟩

/-- The instruction that makes a closure, of the unit it is in. -/
theorem loadFunction_closed (hhost : host.Honest fit keeps) {r : Ref .function} (imm : Int64)
    {M : Machine σ} (hM : M.Closed fit keeps) (hr : M.heap.ClosureOf fit r) :
    (last (loadFunction r imm M)).Closed fit keeps := by
  let unit := (M.heap.function r).unit
  rw [loadFunction, bind_of_ok (heap_apply M)]
  dsimp only
  split
  · exact hM
  · cases hnew : M.heap.newFunction unit imm.toNatClampNeg none with
    | error d =>
      have herror : (ofDefect (.error d) : Exec σ (Ref .function × Heap)) M
        = .error (.defect d) M := rfl
      rw [bind_of_error herror]
      exact hM
    | ok made =>
      unfold Heap.newFunction at hnew
      split at hnew
      · cases hnew
        let closure : Closure := ⟨unit, imm.toNatClampNeg, none⟩
        have hset := Heap.Closed.add closure hM.heap
        have hmade := Heap.closureOf_add closure hr.2
        have hmemory := hM.memory.mono fun _ hq => Heap.ClosureOf.add closure hq
        have hstate := hhost.mono (fun _ hq => Heap.ClosureOf.add closure hq) hM.state
        let N : Machine σ :=
          { M with heap := { M.heap with functions := (M.heap.functions.add closure).2 } }
        exact (Passes.push (Value.among_function.mpr hmade) N ⟨hset, hmemory, hstate⟩).1.closed
      · cases hnew

/-- **Every step** leaves only references to closures of the sort. -/
theorem step_closed (hhost : host.Honest fit keeps) {M : Machine σ} (hM : M.Closed fit keeps) :
    Leaves fit keeps (step host M) := by
  rw [step, bind_of_ok (get_apply M)]
  dsimp only
  cases hf : M.memory.frames.last? with
  | none =>
    refine (Passes.takeFrom 0).bind (fun vs hvs => Passes.pure fun e he => ?_) |>.leaves hM
    cases he
    exact hvs
  | some f =>
    dsimp only
    cases hactivity : f.activity with
    | async call => exact (Passes.stepAsync hhost (hM.memory.last hf) hactivity).leaves hM
    | bytecode r context =>
      have hr : M.heap.ClosureOf fit r := by
        have hamong := hM.memory.last hf
        unfold Frame.Among at hamong
        rwa [hactivity] at hamong
      have hfetch := (Passes.fetch r M hM).1
      dsimp only
      rw [bind_apply]
      cases hfetched : fetch r M with
      | error e N =>
        rw [hfetched] at hfetch
        exact ⟨hfetch.closed, fun _ _ h => by cases h⟩
      | ok what N =>
        obtain ⟨op, imm, phase⟩ := what
        rw [hfetched] at hfetch
        have hN : N.Whole fit keeps (M.heap.ClosureOf fit) := hfetch
        dsimp only
        by_cases hmakes : ∃ w, op = .loadFunction w
        · obtain ⟨w, rfl⟩ := hmakes
          rw [← hN.heap.closures] at hr
          exact .of_unit (loadFunction_closed hhost imm hN.closed hr)
        · by_cases hsyscall : ∃ i, op = .syscall i
          · obtain ⟨i, rfl⟩ := hsyscall
            refine .of_unit ?_
            rw [last_syscall]
            cases hslot : host.syscall i with
            | none => exact hN.closed
            | some call =>
              obtain ⟨hmemory, hstate⟩ := hhost.syscall hslot hN.heap hN.memory hN.state
              have hcalled : (N.called call).Whole fit keeps (M.heap.ClosureOf fit) :=
                ⟨hN.heap, hmemory, hstate⟩
              exact hcalled.closed
          · exact (Passes.execute hhost r context op imm phase (not_exists.mp hmakes)
              (not_exists.mp hsyscall)).leaves hN

end Exec

/-! ### How a coroutine begins -/

namespace Coroutine

variable {host : Host σ} {vm : Vm σ} {args : List Value}

/-- A coroutine is taken out of the heap. -/
theorem checkOut_whole (hheap : vm.heap.Whole fit good) (hstate : keeps good vm.state)
    (r : Ref .coroutine) : (checkOut r vm.heap vm.state).Whole fit keeps good :=
  ⟨⟨hheap.toAmong.modifyCoroutine r ⟨nofun, .new _⟩, hheap.closures⟩,
    (hheap.coroutines r).memory, hstate⟩

/-- **The opening of a resume.** -/
theorem begin_whole (hhost : host.Honest fit keeps) (hheap : vm.heap.Whole fit good)
    (hstate : keeps good vm.state) (r : Ref .coroutine) (hargs : Value.AllAmong good args) :
    (Exec.last (begin host vm r args)).Whole fit keeps good := by
  have hM := checkOut_whole hheap hstate r
  by_cases hinitial : (vm.heap.coroutine r).state = .initial
  · exact (Exec.Passes.opening hhost _ ((hheap.coroutines r).entry hinitial) _ hargs _ hM).1
  · have hbegin : begin host vm r args = Exec.pushAll args (checkOut r vm.heap vm.state) := by
      rw [begin, opening, if_neg hinitial]
    rw [hbegin]
    exact (Exec.Passes.pushAll hargs _ hM).1

end Coroutine

end ScriptVm
