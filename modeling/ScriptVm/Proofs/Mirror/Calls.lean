import ScriptVm.Machine.Call
import ScriptVm.Proofs.Mirror

/-!
# Calls and returns, in a mirror

A function of the host may look at the heap and at its arguments.  `Host.Oblivious`
says that it answers twins alike: it does not look at which coroutine is which,
nor at those that are set aside, nor at the stacks of the running one beyond what
twins have in common.

Main statements: `Mirrors.invoke` (a call) and `Mirrors.leave` (a return).
-/

namespace ScriptVm

variable {σ : Type} {m : Mirror σ} {host : Host σ}

/-- What a step of an asynchronous function asks for, as it is in two heaps. -/
inductive AsyncStep.Twin (T : Likeness) : AsyncStep → AsyncStep → Prop
  | finish {vs vs' : List Value} (values : Value.Twins T vs vs') : Twin T (.finish vs) (.finish vs')
  | yield {vs vs' : List Value} (values : Value.Twins T vs vs') : Twin T (.yield vs) (.yield vs')
  | switch {r r' : Ref .coroutine} {args args' : List Value} (paired : T.pairs r r')
      (values : Value.Twins T args args') : Twin T (.switch r args) (.switch r' args')
  | call {f f' : Value} {args args' : List Value} (callee : f.Twin T f')
      (values : Value.Twins T args args') : Twin T (.call f args) (.call f' args')

/-- What control leaves a coroutine with, as it is in two heaps. -/
inductive Exit.Twin (T : Likeness) : Exit → Exit → Prop
  | finished {vs vs' : List Value} (values : Value.Twins T vs vs') :
      Twin T (.finished vs) (.finished vs')
  | yielded {vs vs' : List Value} (values : Value.Twins T vs vs') :
      Twin T (.yielded vs) (.yielded vs')
  | switched {r r' : Ref .coroutine} {args args' : List Value} (paired : T.pairs r r')
      (values : Value.Twins T args args') : Twin T (.switched r args) (.switched r' args')

/-- What comes of a system call, as it is in two heaps. -/
structure SyscallResult.Twin (T : Likeness) (states : Likeness → σ → σ → Prop)
    (x y : SyscallResult σ) : Prop where
  memory : x.memory.Twin T y.memory
  state : states T x.state y.state
  defect : y.defect = x.defect

/-- **The host tells no twins apart**: its functions answer alike in heaps that are twins, but for
the coroutines that are set aside.  Twins may differ in the capacities of their stacks and in the
numbers of buckets of their tables, so a function that reads these is left out as well. -/
structure Host.Oblivious (host : Host σ) (states : Likeness → σ → σ → Prop)
    (aside : Ref .coroutine → Prop) : Prop where
  /-- States stay alike when more coroutines are paired. -/
  mono : ∀ {T U : Likeness} {s s' : σ}, T ≤ U → states T s s' → states U s s'
  pure :
    ∀ (q : Ref .pureExternal) {T : Likeness} {h h' : Heap} {args args' : List Value} {s s' : σ},
    h.Twin T aside h' → Value.Twins T args args' → states T s s' →
    Replies (Value.Twins T) (host.callPure q h args) (host.callPure q h' args')
  effect : ∀ (q : Ref .effectExternal) {T : Likeness} {h h' : Heap} {memory memory' : Stacks}
    (config : Config) {args args' : List Value} {s s' : σ},
    h.Twin T aside h' → memory.Twin T memory' → Value.Twins T args args' → states T s s' →
    Replies (Value.Twins T) (host.callEffect q ⟨h, memory, config⟩ args s).1
      (host.callEffect q ⟨h', memory', config⟩ args' s').1 ∧
    states T (host.callEffect q ⟨h, memory, config⟩ args s).2
      (host.callEffect q ⟨h', memory', config⟩ args' s').2
  opening : ∀ (q : Ref .asyncExternal) {T : Likeness} {h h' : Heap} {memory memory' : Stacks}
    (config : Config) {s s' : σ}, h.Twin T aside h' → memory.Twin T memory' → states T s s' →
    (host.openAsync q ⟨h', memory', config⟩ s').1
      = (host.openAsync q ⟨h, memory, config⟩ s).1 ∧
    states T (host.openAsync q ⟨h, memory, config⟩ s).2
      (host.openAsync q ⟨h', memory', config⟩ s').2
  async : ∀ (q : Ref .asyncExternal) (object : Nat) {T : Likeness} {h h' : Heap}
    {history history' : List (List Value)} {s s' : σ}, h.Twin T aside h' →
    List.Forall₂ (Value.Twins T) history history' → states T s s' →
    Replies (AsyncStep.Twin T) (host.stepAsync q object h history s).1
      (host.stepAsync q object h' history' s').1 ∧
    states T (host.stepAsync q object h history s).2 (host.stepAsync q object h' history' s').2
  syscall : ∀ {i : Fin 8} {call : Syscall σ}, host.syscall i = some call → ∀ {T : Likeness}
    {h h' : Heap} {memory memory' : Stacks} {s s' : σ}, h.Twin T aside h' →
    memory.Twin T memory' →
    states T s s' → (call h memory s).Twin T states (call h' memory' s')

namespace Mirrors

variable {callee callee' : Value} {vs vs' : List Value}

/-! ### Calls and returns -/

theorem set {M M' : Machine σ} (twin : M.Twin m M') :
    Mirrors m (MonadStateOf.set M) (MonadStateOf.set M') Equal :=
  fun _ _ _ => .ok twin rfl

/-- A frame is pushed that depends on the machine. -/
theorem pushFrame {f g : Machine σ → Frame}
    (h : ∀ M M', M.Twin m M' → (f M).Twin m.like (g M')) :
    Mirrors (σ := σ) m
      (MonadState.modifyGet fun M => ((), M.onFrames fun frames => frames.push (f M)))
      (MonadState.modifyGet fun M => ((), M.onFrames fun frames => frames.push (g M))) Equal := by
  refine modify fun M M' twin => twin.onFrames ?_
  rw [Stack.toList_push, Stack.toList_push]
  exact List.rel_append twin.memory.frames (.cons (h M M' twin) .nil)

/-- **A closure that is known is entered.** -/
theorem enter {r : Ref .function} {p : Ref .unit × Nat} (hr : m.like.home r = some p) (base : Nat)
    (returnSize : Option Nat) (context : Option (Ref .context)) :
    Mirrors m (Exec.enter host r base returnSize context)
      (Exec.enter host r base returnSize context) Equal := by
  unfold Exec.enter
  refine heap.bind fun h h' hh => ?_
  have hzero := hh.code_zero hr
  dsimp only
  rw [(hh.prototype r).locals, (hh.prototype r).declared]
  refine (heightLess base).andThen fun argumentCount => height.andThen fun localsBase => ?_
  refine (ofDefect _).andThen fun privateBase => ?_
  have hframe (c : Ref .context) (M M' : Machine σ) (twin : M.Twin m M') : Frame.Twin m.like
      { activity := .bytecode r c
        stackBase := base
        argumentCount
        localsBase
        privateBase
        ip := 0
        nextIp := 0
        delimiterBase := M.memory.delimiters.size
        tryBase := M.memory.marks.size
        returnSize
        progress := .none }
      { activity := .bytecode r c
        stackBase := base
        argumentCount
        localsBase
        privateBase
        ip := 0
        nextIp := 0
        delimiterBase := M'.memory.delimiters.size
        tryBase := M'.memory.marks.size
        returnSize
        progress := .none } := by
    rw [twin.memory.delimiters_size_eq, twin.memory.marks_size_eq]
    exact ⟨.bytecode r c, hzero, hzero, .idle rfl, rfl⟩
  cases context with
  | some c =>
    exact (onHeap fun H H' hH => hH.declareVariables c _).andThen fun _ =>
      (fillTo privateBase).andThen fun _ => pushFrame (hframe c)
  | none =>
    refine (allocate fun H H' hH => ?_).andThen fun c =>
      (onHeap fun H H' hH => hH.declareVariables c _).andThen fun _ =>
        (fillTo privateBase).andThen fun _ => pushFrame (hframe c)
    rw [hH.function_eq]
    exact hH.newContext _

section

variable (oblivious : host.Oblivious m.states m.aside)
include oblivious

theorem openCall (r : Ref .asyncExternal) :
    Mirrors m (Exec.openCall host r) (Exec.openCall host r) Equal := by
  refine get fun M M' twin => ?_
  obtain ⟨h, memory, config, s⟩ := M
  obtain ⟨h', memory', config', s'⟩ := M'
  obtain rfl : config' = config := twin.config
  obtain ⟨hobject, hstate⟩ := oblivious.opening r config' twin.heap twin.memory twin.state
  have htwin :
      Machine.Twin m ⟨h, memory, config', (host.openAsync r ⟨h, memory, config'⟩ s).2⟩
        ⟨h', memory', config', (host.openAsync r ⟨h', memory', config'⟩ s').2⟩ :=
    { twin with state := hstate }
  exact (set htwin).andThen fun _ => pure hobject

theorem enterAsync (r : Ref .asyncExternal) (base : Nat) (returnSize : Option Nat) :
    Mirrors m (Exec.enterAsync host r base returnSize) (Exec.enterAsync host r base returnSize)
      Equal := by
  refine (openCall oblivious r).andThen fun object => (heightLess base).andThen fun argumentCount =>
    pushFrame fun M M' twin => ?_
  rw [twin.memory.delimiters_size_eq, twin.memory.marks_size_eq, twin.memory.height_eq]
  exact ⟨.async r object .nil, rfl, rfl, .idle rfl, rfl⟩

theorem runEffect (r : Ref .effectExternal) (hvs : Value.Twins m.like vs vs') :
    Mirrors m (Exec.runEffect host r vs) (Exec.runEffect host r vs') (Value.Twins m.like) := by
  refine get fun M M' twin => ?_
  obtain ⟨h, memory, config, s⟩ := M
  obtain ⟨h', memory', config', s'⟩ := M'
  obtain rfl : config' = config := twin.config
  obtain ⟨hreply, hstate⟩ := oblivious.effect r config' twin.heap twin.memory hvs twin.state
  have htwin :
      Machine.Twin m ⟨h, memory, config', (host.callEffect r ⟨h, memory, config'⟩ vs s).2⟩
        ⟨h', memory', config', (host.callEffect r ⟨h', memory', config'⟩ vs' s').2⟩ :=
    { twin with state := hstate }
  exact (set htwin).andThen fun _ => ofFault hreply

/-- **A call.** -/
theorem invoke (hcallee : callee.Twin m.like callee') (base : Nat) (returnSize : Option Nat) :
    Mirrors m (Exec.invoke host callee base returnSize) (Exec.invoke host callee' base returnSize)
      Equal := by
  have hresults {x x' : List Value → Exec σ (List Value)}
      (hx : ∀ vs vs', Value.Twins m.like vs vs' →
        Mirrors m (x vs) (x' vs') (Value.Twins m.like)) :
      Mirrors m
        (do
          let args ← Exec.takeFrom base
          let results ← x args
          Exec.pushAll results
          Exec.shape host.sizes base returnSize)
        (do
          let args ← Exec.takeFrom base
          let results ← x' args
          Exec.pushAll results
          Exec.shape host.sizes base returnSize) Equal :=
    (takeFrom base).bind fun vs vs' hvs => (hx vs vs' hvs).bind fun _ _ hresults =>
      (pushAll hresults).andThen fun _ => shape _ base returnSize
  have hrefused : Mirrors m
      (do Exec.fault (.notCallable ((← Exec.heap).display callee)) : Exec σ Unit)
      (do Exec.fault (.notCallable ((← Exec.heap).display callee'))) Equal :=
    heap.bind fun h h' hh => by
      rw [hh.display_eq hcallee]
      exact fault _
  cases hcallee with
  | coroutine paired => exact hrefused
  | plain hplain =>
    cases callee with
    | function r =>
      obtain ⟨p, hp⟩ := hplain.known r rfl
      exact enter hp base returnSize none
    | pureFn r =>
      refine hresults (x := fun args => do Exec.ofFault (host.callPure r (← Exec.heap) args)) ?_
      intro vs vs' hvs M M' twin
      exact ofFault (oblivious.pure r twin.heap hvs twin.state) M M' twin
    | effectFn r => exact hresults fun vs vs' hvs => runEffect oblivious r hvs
    | asyncFn r => exact enterAsync oblivious r base returnSize
    | _ => exact hrefused

end

/-- **A return.** -/
theorem leave (hvs : Value.Twins m.like vs vs') :
    Mirrors m (Exec.leave host vs) (Exec.leave host vs') Equal := by
  refine frame.bind fun f f' hf => ?_
  rw [hf.rest]
  have hframes : Mirrors (σ := σ) m
      (MonadState.modifyGet fun M => ((), M.onFrames Stack.dropLast))
      (MonadState.modifyGet fun M => ((), M.onFrames Stack.dropLast)) Equal := by
    refine modify fun M M' twin => twin.onFrames ?_
    rw [Stack.toList_dropLast, Stack.toList_dropLast, List.dropLast_eq_take, List.dropLast_eq_take,
      twin.memory.frames.length_eq]
    exact List.forall₂_take _ twin.memory.frames
  refine hframes.andThen fun _ => (truncate f.stackBase).andThen fun _ =>
    (pushAll hvs).andThen fun _ =>
    (shape _ f.stackBase f.returnSize).andThen fun _ => ?_
  refine (modify fun M M' twin => twin.onDelimiters ?_).andThen fun _ =>
    modify fun M M' twin => twin.onMarks ?_
  · rw [Stack.toList_truncate, Stack.toList_truncate, twin.memory.delimiters]
  · rw [Stack.toList_truncate, Stack.toList_truncate]
    exact List.forall₂_take _ twin.memory.marks

theorem ret : Mirrors m (Exec.ret host) (Exec.ret host) Equal :=
  popDelimiter.andThen fun start => (takeFrom start).bind fun _ _ hvs => leave hvs

section

variable (oblivious : host.Oblivious m.states m.aside)
include oblivious

theorem askStep (q : Ref .asyncExternal) (object : Nat) {history history' : List (List Value)}
    (hhistory : List.Forall₂ (Value.Twins m.like) history history') :
    Mirrors m (Exec.askStep host q object history) (Exec.askStep host q object history')
      (AsyncStep.Twin m.like) := by
  refine get fun M M' twin => ?_
  obtain ⟨h, memory, config, s⟩ := M
  obtain ⟨h', memory', config', s'⟩ := M'
  obtain ⟨hreply, hstate⟩ := oblivious.async q object twin.heap hhistory twin.state
  have htwin : Machine.Twin m ⟨h, memory, config, (host.stepAsync q object h history s).2⟩
      ⟨h', memory', config', (host.stepAsync q object h' history' s').2⟩ :=
    { twin with state := hstate }
  exact (set htwin).andThen fun _ => ofFault hreply

/-- A step of an asynchronous call. -/
theorem stepAsync {f f' : Frame} (hf : f.Twin m.like f') (q : Ref .asyncExternal) (object : Nat)
    {past past' : List (List Value)} (hpast : List.Forall₂ (Value.Twins m.like) past past') :
    Mirrors m (Exec.stepAsync host f ⟨q, object, past⟩)
      (Exec.stepAsync host f' ⟨q, object, past'⟩) (Option.Rel (Exit.Twin m.like)) := by
  rw [hf.rest]
  refine (takeFrom f.stackBase).bind fun args args' hargs => ?_
  have hhistory : List.Forall₂ (Value.Twins m.like) (past ++ [args]) (past' ++ [args']) :=
    List.rel_append hpast (.cons hargs .nil)
  have hrecord (g g' : Frame) (hg : g.Twin m.like g') : (Exec.recordStep g (past ++ [args])).Twin
      m.like (Exec.recordStep g' (past' ++ [args'])) := by
    obtain ⟨hactivity, hip, hnextIp, hprogress, hrest⟩ := hg
    cases g with | mk activity => ?_
    cases g' with | mk activity' => ?_
    dsimp only at hactivity hip hnextIp hprogress hrest
    cases hactivity with
    | bytecode r c => exact ⟨.bytecode r c, hip, hnextIp, hprogress, hrest⟩
    | async q object _ =>
      cases hrest
      exact ⟨.async q object hhistory, hip, hnextIp, hprogress, rfl⟩
  refine (modifyFrame hrecord).andThen fun _ =>
    (askStep oblivious q object hhistory).bind fun a b hanswer => ?_
  cases hanswer with
  | finish values => exact (leave values).andThen fun _ => pure .none
  | yield values => exact pure (.some (.yielded values))
  | switch paired values => exact pure (.some (.switched paired values))
  | call callee values =>
    exact (pushAll values).andThen fun _ => (invoke oblivious callee _ none).andThen fun _ =>
      pure .none

end

end Mirrors

end ScriptVm
