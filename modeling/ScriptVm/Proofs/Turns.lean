import ScriptVm.Proofs.CallContract

/-!
# The turns of an asynchronous call

A call of an asynchronous function is in flight from the moment it is made until it
returns.  It has its **turn** when its frame is the current one.  Then the function is
asked for one step, which is given what lies on the stack above the base of the frame:
the arguments of the call at first, and later what came of the step before.

A step may call another function, and it is the turn of the call again when that one
has returned; or control leaves the coroutine, and it is its turn again when the
coroutine is resumed.  In between, the frame and what lies below it stay as they are,
so nothing but the results of the one, or the values of the other, is there at the
next turn.

Main statements: `Flight.step_eq` (what a turn comes to), `Machine.Lives.stands` (where
a call in flight is at any time) and `Flight.completes` (how it ends).
-/

namespace ScriptVm

variable {σ : Type}

/-! ### Calls within a call -/

namespace Machine

variable {host : Host σ} {M N : Machine σ}

/-- **A call within a life**: it lives as long as the life lasts, or it returns and the life goes on
from there. -/
theorem Lives.returns {p : Layer} {f : Frame} {depth : Nat} {trace : List (Machine σ)}
    {L : Machine σ} (h : M.Lives host depth trace L) (behaves : ∀ K ∈ trace, K.Behaves host)
    (hM : M.Above host p f) :
    M.Lives host p.frames.length trace L ∨
    ∃ inner last N outer results, M.Lives host p.frames.length inner last ∧
      Exec.step host last = .ok none N ∧ N.depth = p.frames.length ∧
      last.returning host = some results ∧ N.On p (.bare (shaped f.returnSize results)) ∧
      N.Lives host depth outer L ∧ trace = inner ++ outer := by
  induction h with
  | last _ => exact .inl (.last (Abreast.deep hM).1)
  | @step M N L trace deep step rest ih =>
    obtain ⟨behavesM, behaves⟩ := List.forall_mem_cons.mp behaves
    have hdeep := (Abreast.deep hM).1
    rcases hM.step behavesM step with ⟨hN, -⟩ | ⟨hdepth, results, hreturning, on⟩
    · rcases ih behaves hN with stays | ⟨inner, last, K, outer, results, lives, hstep, hK⟩
      · exact .inl (.step hdeep step stays)
      · refine .inr ⟨M :: inner, last, K, outer, results, .step hdeep step lives, hstep, ?_⟩
        simpa using hK
    · exact .inr ⟨[M], M, N, trace, results, .last hdeep, step, hdepth, hreturning, on,
        rest, rfl⟩
  | @away M N L trace exit deep step heap state values rest ih =>
    obtain ⟨behavesM, behaves⟩ := List.forall_mem_cons.mp behaves
    have hdeep := (Abreast.deep hM).1
    have hN := hM.exit behavesM step
    rcases ih (List.forall_mem_cons.mp behaves).2 (Abreast.resumed hN heap state values) with
      stays | ⟨inner, last, K, outer, results, lives, hstep, hK⟩
    · exact .inl (.away hdeep step heap state values stays)
    · refine .inr ⟨M :: N :: inner, last, K, outer, results,
        .away hdeep step heap state values lives, hstep, ?_⟩
      simpa using hK

end Machine

/-! ### A call in flight -/

/-- **A call of an asynchronous function in flight**, by what stays the same of it. -/
structure Flight where
  /-- What lies below its arguments. -/
  below : Layer
  function : Ref .asyncExternal
  /-- The number under which the function knows it. -/
  object : Nat
  /-- The number of its arguments. -/
  arity : Nat
  /-- How many results the caller wants; none takes them all. -/
  returnSize : Option Nat

/-- The exit that a step asks for. -/
def AsyncStep.exit? : AsyncStep → Option Exit
  | .yield values => some (.yielded values)
  | .switch coroutine args => some (.switched coroutine args)
  | _ => none

namespace Flight

/-- The call that is made with the arguments from `base` upward. -/
def made (host : Host σ) (M : Machine σ) (r : Ref .asyncExternal) (base : Nat)
    (returnSize : Option Nat) : Flight where
  below := M.memory.view.cut base
  function := r
  object := (host.openAsync r ⟨M.heap, M.memory, M.config⟩ M.state).1
  arity := M.memory.values.size - base
  returnSize

/-- The position of its arguments. -/
def base (c : Flight) : Nat :=
  c.below.values.length

/-- The number of functions that were active when it was made. -/
def depth (c : Flight) : Nat :=
  c.below.frames.length

/-- What it has on the stacks at its turn: its frame, with the lists that its steps were given so
far, and the list that the next one will be given. -/
def layer (c : Flight) (history : List (List Value)) (args : List Value) : Layer :=
  ⟨args, [.fresh (.async ⟨c.function, c.object, history⟩) c.arity 0 c.returnSize], [], []⟩

/-- **The turn of a call**: its steps so far were given the lists of `history`, and `args` is all
that the next one will be given. -/
def Turn (c : Flight) (history : List (List Value)) (args : List Value) (M : Machine σ) : Prop :=
  M.On c.below (c.layer history args)

variable {host : Host σ} {c : Flight} {history : List (List Value)} {args : List Value}
  {M N : Machine σ}

/-- What the function answers at a turn. -/
def answer (host : Host σ) (c : Flight) (history : List (List Value)) (args : List Value)
    (M : Machine σ) : Except Fault AsyncStep :=
  (host.stepAsync c.function c.object M.heap (history ++ [args]) M.state).1

/-- The machine once the function has answered: the list is on record and off the stack. -/
def answered (host : Host σ) (c : Flight) (history : List (List Value)) (args : List Value)
    (M : Machine σ) : Machine σ :=
  { M with
    memory := { M.memory with
      values := M.memory.values.truncate c.base
      frames := M.memory.frames.modifyLast (Exec.recordStep · (history ++ [args])) }
    state := (host.stepAsync c.function c.object M.heap (history ++ [args]) M.state).2 }

/-- The machine on which a step calls another function. -/
def calling (host : Host σ) (c : Flight) (history : List (List Value)) (args : List Value)
    (M : Machine σ) (given : List Value) : Machine σ :=
  (c.answered host history args M).onValues fun values => values.pushAll given

theorem layer_pile (c : Flight) (history : List (List Value)) (args : List Value) :
    (c.below.pile (c.layer history [])).pile (.bare args) = c.below.pile (c.layer history args) :=
  Layer.pile_pile_bare c.below (c.layer history []) args

/-- A turn is deeper than the call that was made. -/
theorem Turn.depth_eq (h : c.Turn history args M) : M.depth = c.depth + 1 := h.depth

/-- The stacks tell which lists the steps of a call were given and which one comes next. -/
theorem Turn.unique {history' : List (List Value)} {args' : List Value} (h : c.Turn history args M)
    (h' : c.Turn history' args' M) : history = history' ∧ args = args' := by
  have hlayer : c.below.pile (c.layer history args) = c.below.pile (c.layer history' args') :=
    h.symm.trans h'
  have hvalues := List.append_cancel_left (congrArg Layer.values hlayer)
  have hframes := List.append_cancel_left (congrArg Layer.frames hlayer)
  have hactivity := congrArg (List.map Frame.activity) hframes
  simp only [layer, List.map_cons, List.map_nil, List.cons.injEq, and_true] at hactivity
  cases hactivity
  exact ⟨rfl, hvalues⟩

/-- **At its first turn** a call has its arguments. -/
theorem turn_of_invoke {r : Ref .asyncExternal} {base : Nat} {returnSize : Option Nat}
    (h : Exec.invoke host (.asyncFn r) base returnSize M = .ok () N) :
    (made host M r base returnSize).Turn [] (M.memory.view.values.drop base) N := by
  have hbase := Machine.base_le_of_invoke h
  let c := made host M r base returnSize
  let opened : Machine σ :=
    { M with state := (host.openAsync r ⟨M.heap, M.memory, M.config⟩ M.state).2 }
  have hopen : Exec.openCall host r M = .ok c.object opened := rfl
  have hless : Exec.heightLess base opened = .ok (M.memory.values.size - base) opened := by
    simp [Exec.heightLess, Exec.bind_apply, opened, hbase]
  have hlength := Machine.length_cut hbase
  simp only [Exec.invoke, Exec.enterAsync, Exec.bind_of_ok hopen, Exec.bind_of_ok hless] at h
  cases h
  have hframe : (M.memory.view.cut base).liftFrame
      (.fresh (.async ⟨r, c.object, []⟩) (M.memory.values.size - base) 0 returnSize)
      = ⟨.async ⟨r, c.object, []⟩, base, M.memory.values.size - base, M.memory.values.size,
        M.memory.values.size, 0, 0, M.memory.delimiters.size, M.memory.marks.size, returnSize,
        .none⟩ := by
    have hsize : base + (M.memory.values.size - base) = M.memory.values.size := by omega
    have hdelimiters : M.memory.delimiters.size = (M.memory.view.cut base).delimiters.length :=
      Stack.size_eq_length _
    have hmarks : M.memory.marks.size = (M.memory.view.cut base).marks.length :=
      Stack.size_eq_length _
    simp only [Layer.liftFrame, Frame.fresh, hlength, Nat.add_zero, hsize, hdelimiters, hmarks]
  apply Layer.ext
  · exact (List.take_append_drop base _).symm
  · show (M.memory.frames.push _).toList = M.memory.frames.toList ++ [_]
    rw [Stack.toList_push, ← hframe]
    rfl
  · exact (List.append_nil _).symm
  · exact (List.append_nil _).symm

/-- Once the function has answered, the list is on record, and nothing is above the base. -/
theorem Turn.answered (host : Host σ) (h : c.Turn history args M) :
    (c.answered host history args M).On c.below (c.layer (history ++ [args]) []) := by
  apply Layer.ext
  · show (M.memory.values.truncate c.base).toList = c.below.values ++ []
    rw [Stack.toList_truncate, h.values, List.append_nil, base, List.take_left]
  · exact Stack.toList_modifyLast h.frames _
  · exact h.delimiters
  · exact h.marks

theorem Turn.calling (host : Host σ) (h : c.Turn history args M) (given : List Value) :
    (c.calling host history args M given).On c.below (c.layer (history ++ [args]) given) := by
  rw [Machine.On, Flight.calling, Machine.view_pushAll, show Stacks.view _ = _ from h.answered host,
    layer_pile]

/-- What a call made by a step stands on. -/
theorem Turn.cut_calling (host : Host σ) (h : c.Turn history args M) (given : List Value) :
    (c.calling host history args M given).memory.view.cut c.base
      = c.below.pile (c.layer (history ++ [args]) []) := by
  rw [show Stacks.view _ = _ from h.calling host given]
  apply Layer.ext <;> simp [Layer.cut, layer, base]

/-- **A turn**: the function is asked for one step, with the list that lies above the base, and what
it answers is done. -/
theorem Turn.advance_eq (host : Host σ) (h : c.Turn history args M) :
    Exec.advance host M = match c.answer host history args M with
      | .error f => .error (.fault f) (c.answered host history args M)
      | .ok (.finish results) => .ok (.returns results) (c.answered host history args M)
      | .ok (.yield values) => .ok (.exits (.yielded values)) (c.answered host history args M)
      | .ok (.switch r given) => .ok (.exits (.switched r given)) (c.answered host history args M)
      | .ok (.call callee given) => (do
          Exec.invoke host callee c.base none
          return .goes : Exec σ Outcome) (c.calling host history args M given) := by
  have hlast : M.memory.frames.last? = some (c.below.liftFrame
      (.fresh (.async ⟨c.function, c.object, history⟩) c.arity 0 c.returnSize)) :=
        h.last_frame rfl
  have hsize : c.base ≤ M.memory.values.size := by
    rw [h.height]
    exact Nat.le_add_right _ _
  have htake : Exec.takeFrom c.base M
      = .ok args (M.onValues fun values => values.truncate c.base) := by
    rw [Exec.takeFrom_apply hsize, h.values, base, List.drop_left]
    rfl
  have hrecord : (Exec.modifyFrame (Exec.recordStep · (history ++ [args])) : Exec σ Unit)
      (M.onValues fun values => values.truncate c.base)
      = .ok () { c.answered host history args M with state := M.state } :=
    Exec.modifyFrame_apply (M := M.onValues fun values => values.truncate c.base) hlast _
  have hask : Exec.askStep host c.function c.object (history ++ [args])
      { c.answered host history args M with state := M.state }
      = Exec.ofFault (c.answer host history args M) (c.answered host history args M) := by
    simp only [Exec.askStep, Exec.bind_apply, Exec.get_apply, Exec.set_apply]
    rfl
  rw [Exec.advance, Exec.bind_of_ok (Exec.get_apply M), hlast]
  show Exec.advanceAsync host (c.below.liftFrame _) ⟨c.function, c.object, history⟩ M = _
  rw [Exec.advanceAsync]
  show (Exec.takeFrom c.base >>= _) M = _
  rw [Exec.bind_of_ok htake, Exec.bind_of_ok hrecord, Exec.bind_apply, hask]
  cases c.answer host history args M with
  | error f => rfl
  | ok step => cases step <;> rfl

/-! ### From turn to turn -/

/-- **What a call in flight has been given.**  On the way from its first turn at `first`, with the
machines of `trace` before, it is its turn at the last one; the steps so far were given the lists of
`history`, one after the other, and the next one will be given the last list.  That is the arguments
of the call; then, when a step has called another function, all that this one has returned; and when
a step has let control leave the coroutine, the values that this one is resumed with. -/
inductive Given (host : Host σ) (c : Flight) (first : Machine σ) :
    List (List Value) → List Value → List (Machine σ) → Machine σ → Prop
  | arguments {args : List Value} (turn : c.Turn [] args first) :
      Given host c first [] args [] first
  | results {history : List (List Value)} {args : List Value} {trace : List (Machine σ)}
      {M : Machine σ}
      {callee : Value} {given : List Value} {inner : List (Machine σ)} {results : List Value}
      {N : Machine σ} (before : Given host c first history args trace M)
      (answer : c.answer host history args M = .ok (.call callee given))
      (completes : (c.calling host history args M given).Completes host callee c.base none inner
        (some results) N)
      (turn : c.Turn (history ++ [args]) results N) :
      Given host c first (history ++ [args]) results (trace ++ M :: inner) N
  | resumed {history : List (List Value)} {args : List Value} {trace : List (Machine σ)}
      {M : Machine σ}
      {step : AsyncStep} {exit : Exit} (before : Given host c first history args trace M)
      (answer : c.answer host history args M = .ok step) (leaves : step.exit? = some exit)
      (heap : Heap) (state : σ) (values : List Value)
      (turn : c.Turn (history ++ [args]) values
        ({ c.answered host history args M with heap, state }.onValues fun s => s.pushAll values)) :
      Given host c first (history ++ [args]) values (trace ++ [M, c.answered host history args M])
        ({ c.answered host history args M with heap, state }.onValues fun s => s.pushAll values)

/-- **Where a call in flight is**: it is its turn, or a function is at work that it has called at
its last turn. -/
inductive Stands (host : Host σ) (c : Flight) (first : Machine σ) :
    List (Machine σ) → Machine σ → Prop
  | turn {history : List (List Value)} {args : List Value} {trace : List (Machine σ)}
      {L : Machine σ}
      (given : Given host c first history args trace L) : Stands host c first (trace ++ [L]) L
  | calling {history : List (List Value)} {args : List Value} {trace : List (Machine σ)}
      {M : Machine σ}
      {callee : Value} {given : List Value} {K : Machine σ} {inner : List (Machine σ)}
      {L : Machine σ}
      (before : Given host c first history args trace M)
      (answer : c.answer host history args M = .ok (.call callee given))
      (call : Exec.invoke host callee c.base none (c.calling host history args M given) = .ok () K)
      (lives : K.Lives host (c.depth + 1) inner L) : Stands host c first (trace ++ M :: inner) L

variable {first L : Machine σ} {trace : List (Machine σ)}

theorem Given.turn (h : c.Given host first history args trace M) : c.Turn history args M := by
  cases h with
  | arguments turn => exact turn
  | results _ _ _ turn => exact turn
  | resumed _ _ _ _ _ _ turn => exact turn

/-- What a step of a turn comes to that does not stop. -/
inductive Turn.Comes (host : Host σ) (c : Flight) (history : List (List Value)) (args : List Value)
    (M : Machine σ) : Option Exit → Machine σ → Prop
  | finishes {results : List Value} {N : Machine σ}
      (answer : c.answer host history args M = .ok (.finish results))
      (returning : M.returning host = some results)
      (leave : Exec.leave host results (c.answered host history args M) = .ok () N) :
      Comes host c history args M none N
  | calls {callee : Value} {given : List Value} {N : Machine σ}
      (answer : c.answer host history args M = .ok (.call callee given))
      (call : Exec.invoke host callee c.base none (c.calling host history args M given)
        = .ok () N) :
      Comes host c history args M none N
  | leaves {step : AsyncStep} {exit : Exit} (answer : c.answer host history args M = .ok step)
      (leaves : step.exit? = some exit) :
      Comes host c history args M (some exit) (c.answered host history args M)

theorem Turn.comes (h : c.Turn history args M) {e : Option Exit}
    (hstep : Exec.step host M = .ok e N) : Comes host c history args M e N := by
  have hadvance := h.advance_eq host
  rw [Exec.step_eq, Exec.bind_apply, hadvance] at hstep
  cases hanswer : c.answer host history args M with
  | error f => simp [hanswer] at hstep
  | ok step =>
    simp only [hanswer] at hstep hadvance
    cases step with
    | finish results =>
      simp only [Exec.conclude, Exec.bind_apply] at hstep
      have hreturning : M.returning host = some results := by
        simp only [Machine.returning, hadvance]
      cases hleave : Exec.leave host results (c.answered host history args M) with
      | error f N => simp [hleave] at hstep
      | ok u K =>
        simp only [hleave] at hstep
        cases hstep
        exact .finishes hanswer hreturning hleave
    | yield values =>
      cases hstep
      exact .leaves hanswer rfl
    | switch r given =>
      cases hstep
      exact .leaves hanswer rfl
    | call callee given =>
      simp only [Exec.bind_apply] at hstep
      cases hcall : Exec.invoke host callee c.base none (c.calling host history args M given) with
      | error f N => simp [hcall] at hstep
      | ok u K =>
        simp only [hcall] at hstep
        cases hstep
        exact .calls hanswer hcall

/-- Values come on top of what an answered step has left. -/
theorem Turn.resumed (host : Host σ) (h : c.Turn history args M) (heap : Heap) (state : σ)
    (values : List Value) : c.Turn (history ++ [args]) values
      ({ c.answered host history args M with heap, state }.onValues fun s => s.pushAll values) := by
  have on : ({ c.answered host history args M with heap, state } : Machine σ).On c.below
      (c.layer (history ++ [args]) []) := h.answered host
  rw [Turn, Machine.On, Machine.view_pushAll, show Stacks.view _ = _ from on, layer_pile]

/-- The results of a call that has returned are all that lies above the base. -/
theorem Turn.returned (h : c.Turn history args M) {given results : List Value}
    (on : N.On ((c.calling host history args M given).memory.view.cut c.base)
      (.bare (shaped none results))) : c.Turn (history ++ [args]) results N := by
  rw [h.cut_calling host, Machine.On, layer_pile] at on
  exact on

/-- **The end of a call**: its results, shaped, lie where its arguments were. -/
theorem Turn.finished (h : c.Turn history args M) {results : List Value}
    (leave : Exec.leave host results (c.answered host history args M) = .ok () N) :
    N.On c.below (.bare (shaped c.returnSize results)) := by
  have hactivation :
      Layer.Activation (.fresh (.async ⟨c.function, c.object, []⟩) c.arity 0 c.returnSize)
        (c.layer (history ++ [args]) []) := .async rfl (.fresh _ _ _ _) ⟨⟨_, rfl⟩, rfl, rfl⟩
  have hfares := Steady.fares (Lockstep.leave (host.mute_suits c.below) hactivation results)
    (h.answered host) rfl
  rw [show Exec.leave host.mute results _ = _ from leave] at hfares
  cases hfares with
  | ok on _ result => exact result ▸ on

/-- What a call made by a step has left is deeper than the call in flight. -/
theorem Turn.depth_calling (host : Host σ) (h : c.Turn history args M) (given : List Value) :
    ((c.calling host history args M given).memory.view.cut c.base).frames.length = c.depth + 1 := by
  rw [h.cut_calling host]
  simp [layer, depth]

/-- **From a turn on**, wherever the life of the call leads to. -/
theorem Given.stands {rest : List (Machine σ)} (h : c.Given host first history args trace M)
    (lives : M.Lives host c.depth rest L) (behaves : ∀ K ∈ rest, K.Behaves host) :
    c.Stands host first (trace ++ rest) L := by
  -- The induction is on the length of the life, for a call within it takes away a part of any
  -- length.
  generalize hn : rest.length = n
  induction n using Nat.strongRecOn generalizing history args trace M rest with
  | ind n ih =>
  subst hn
  have hturn := h.turn
  cases lives with
  | last _ => exact .turn h
  | @step _ N _ rest deep hstep lives =>
    obtain ⟨-, behaves⟩ := List.forall_mem_cons.mp behaves
    cases hturn.comes hstep with
    | finishes answer returning leave =>
      have hdeep := lives.deep
      rw [(hturn.finished leave).depth] at hdeep
      exact absurd hdeep (Nat.lt_irrefl _)
    | @calls callee given _ answer call =>
      obtain ⟨b, on, invoked⟩ := Machine.on_of_invoke call
      have hdepth : (c.calling host history args M given).depth = c.depth + 1 :=
        (Machine.On.depth (hturn.calling host given)).trans rfl
      cases invoked with
      | done results =>
        have level : N.depth ≤ (c.calling host history args M given).depth := by
          rw [on.depth, hturn.depth_calling host, hdepth]
          exact Nat.le_refl _
        obtain ⟨list, hanswer, on'⟩ := Machine.answer_of_invoke call level
        have completes := Machine.Completes.external call level
        rw [hanswer] at completes
        have hnext := h.results answer completes (hturn.returned on')
        have hstands := ih rest.length (Nat.lt_succ_self _) hnext lives behaves rfl
        rwa [List.append_assoc] at hstands
      | entered activation =>
        obtain ⟨f, hsize, hf⟩ := activation
        rcases lives.returns behaves (Abreast.of_activation (.single on) hf) with
          stays | ⟨inner, last, K, outer, results, hlives, hlast, hK, hreturning, hon,
            houter, rfl⟩
        · rw [hturn.depth_calling host] at stays
          exact .calling h answer call stays
        · rw [hturn.depth_calling host] at hK
          rw [hturn.depth_calling host, ← hdepth] at hlives
          have completes := Machine.Completes.activation call hlives hlast
            (Nat.le_of_eq (hK.trans hdepth.symm))
          rw [hreturning] at completes
          rw [hsize] at hon
          have hnext := h.results answer completes (hturn.returned hon)
          have hshorter : outer.length < (M :: (inner ++ outer)).length := by
            simp only [List.length_cons, List.length_append]
            omega
          have hstands := ih outer.length hshorter hnext houter
            (fun K hK => behaves K (List.mem_append_right _ hK)) rfl
          rwa [List.append_assoc, List.cons_append] at hstands
  | @away _ N _ rest exit deep hstep heap state values lives =>
    have behavesRest := (List.forall_mem_cons.mp (List.forall_mem_cons.mp behaves).2).2
    cases hturn.comes hstep with
    | leaves answer leaves =>
      have hnext := h.resumed answer leaves heap state values (hturn.resumed host heap state values)
      have hshorter : rest.length < (M :: c.answered host history args M :: rest).length := by
        simp only [List.length_cons]
        omega
      have hstands := ih rest.length hshorter hnext lives behavesRest rfl
      rwa [List.append_assoc] at hstands

/-- A step of a function that was called at a turn leaves the call in flight. -/
theorem Turn.depth_lt_inside (h : c.Turn history args M) {callee : Value} {given : List Value}
    {K : Machine σ}
    (call : Exec.invoke host callee c.base none (c.calling host history args M given)
      = .ok () K) (lives : K.Lives host (c.depth + 1) trace L) (behaves : ∀ K ∈ trace,
      K.Behaves host)
    (step : Exec.step host L = .ok none N) : c.depth < N.depth := by
  obtain ⟨b, on, invoked⟩ := Machine.on_of_invoke call
  have hdepth := h.depth_calling host given
  cases invoked with
  | done results =>
    have hdeep := lives.deep
    rw [on.depth, hdepth] at hdeep
    exact absurd hdeep (Nat.lt_irrefl _)
  | entered activation =>
    obtain ⟨f, -, hf⟩ := activation
    rw [← hdepth] at lives
    obtain ⟨above, -⟩ := lives.above behaves (Abreast.of_activation (.single on) hf)
    rcases above.step (behaves L lives.mem) step with ⟨-, deep⟩ | ⟨level, -⟩
    · rw [hdepth] at deep
      exact Nat.lt_of_succ_lt deep
    · rw [level, hdepth]
      exact Nat.lt_succ_self _

/-- **How a call in flight ends**: at a turn, the answer to which is its results. -/
theorem completes {r : Ref .asyncExternal} {base : Nat} {returnSize : Option Nat}
    {results : Option (List Value)}
    (h : M.Completes host (.asyncFn r) base returnSize trace results N)
    (behaves : ∀ K ∈ trace, K.Behaves host) :
    ∃ first history args before last list,
      Exec.invoke host (.asyncFn r) base returnSize M = .ok () first ∧
      (made host M r base returnSize).Given host first history args before last ∧
      trace = before ++ [last] ∧ Exec.step host last = .ok none N ∧
      (made host M r base returnSize).answer host history args last = .ok (.finish list) ∧
      results = some list ∧ N.On (M.memory.view.cut base) (.bare (shaped returnSize list)) := by
  cases h with
  | external call level =>
    have hdepth := (turn_of_invoke call).depth_eq
    rw [depth, made, Machine.depth_cut] at hdepth
    exact absurd level (by omega)
  | @activation first last _ _ call lives step level =>
    have hmade := turn_of_invoke call
    have hdepth : (made host M r base returnSize).depth = M.depth := M.depth_cut base
    rw [← hdepth] at lives level
    have hgiven : (made host M r base returnSize).Given host first [] _ [] first := .arguments hmade
    have hstands := hgiven.stands lives behaves
    rw [List.nil_append] at hstands
    have hlast := behaves last lives.mem
    cases hstands with
    | @turn history args before _ given =>
      cases given.turn.comes step with
      | @finishes list _ answer returning leave =>
        exact ⟨first, history, args, before, last, list, call, given, rfl, step,
          answer, returning, given.turn.finished leave⟩
      | @calls callee passed _ answer invoke =>
        obtain ⟨b, on, -⟩ := Machine.on_of_invoke invoke
        have hdeep := on.depth
        rw [given.turn.depth_calling host] at hdeep
        omega
    | @calling history args before K callee passed K' inner _ given answer invoke inside =>
      have hdeep := given.turn.depth_lt_inside invoke inside
        (fun K hK => behaves K (List.mem_append_right _ (List.mem_cons_of_mem _ hK))) step
      omega

end Flight

end ScriptVm
