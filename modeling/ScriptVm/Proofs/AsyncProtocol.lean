import ScriptVm.Proofs.Turns
import ScriptVm.Proofs.Awaiting

/-!
# The protocol of asynchronous functions

The steps of an asynchronous call follow one another.  The first one is given the
arguments of the call.  Each later one is given what came of the step before, and
nothing else: the results of the function that this one has called, or the values
that the coroutine was resumed with after this one had let control leave it.  The
last one hands over the results of the call.

System calls that write where they should not can break this
(`async_protocol_return_size`).

Main statement: `async_protocol`.
-/

namespace ScriptVm

variable {σ : Type}

namespace Flight

variable {host : Host σ} {c : Flight} {history : List (List Value)} {args : List Value}
  {M N : Machine σ}

/-- A coroutine whose entry is an asynchronous function gives it the values that it is started
with. -/
theorem turn_of_start {r : Ref .asyncExternal} {context : Option (Ref .context)}
    (h : Coroutine.start host (.asyncFn r) context args M = .ok () N) :
    (made host (M.onValues fun s => s.pushAll args) r M.memory.values.size none).Turn
    [] args N := by
  have hinvoke : Exec.invoke host (.asyncFn r) M.memory.values.size none
      (M.onValues fun s => s.pushAll args) = .ok () N := h
  have hturn := turn_of_invoke hinvoke
  have hdrop : (M.onValues fun s => s.pushAll args).memory.view.values.drop M.memory.values.size
      = args := by
    rw [Machine.view_pushAll]
    exact List.drop_left' (Stack.size_eq_length _).symm
  rwa [hdrop] at hturn

/-- What a step gives to the function that it calls. -/
theorem Turn.drop_calling (host : Host σ) (h : c.Turn history args M) (given : List Value) :
    (c.calling host history args M given).memory.view.values.drop c.base = given := by
  rw [show Stacks.view _ = _ from h.calling host given]
  exact List.drop_left

/-- **A turn**: what the function answers is done. -/
theorem Turn.step_eq (host : Host σ) (h : c.Turn history args M) :
    Exec.step host M = match c.answer host history args M with
      | .error f => .error (.fault f) (c.answered host history args M)
      | .ok (.finish results) => (do
          Exec.leave host results
          return none : Exec σ (Option Exit)) (c.answered host history args M)
      | .ok (.yield values) => .ok (some (.yielded values)) (c.answered host history args M)
      | .ok (.switch r given) => .ok (some (.switched r given)) (c.answered host history args M)
      | .ok (.call callee given) => (do
          Exec.invoke host callee c.base none
          return none : Exec σ (Option Exit)) (c.calling host history args M given) := by
  rw [Exec.step_eq, Exec.bind_apply, h.advance_eq host]
  cases c.answer host history args M with
  | error f => rfl
  | ok step =>
    cases step with
    | call callee given =>
      simp only [Exec.bind_apply]
      cases Exec.invoke host callee c.base none (c.calling host history args M given) <;> rfl
    | _ => rfl

end Flight

/-- **The protocol of asynchronous functions.**  A call of one has its first turn with its
arguments, and so has one that is the entry of a coroutine.  At a turn the function is asked for one
step, with the list that lies above its base, and what it answers is done; a function that it calls
gets the arguments it has given.  From turn to turn, whatever happens in between, the lists that it
is given are its arguments, then what came of each step, in order; and it is always its turn, or a
function at work that it has called.  It ends at a turn, with the results that it answers.  A
coroutine that is resumed again goes on where it was left, with the values that it is resumed with;
and one that has switched to another one comes back when that one has finished or yielded, and is
resumed with what it has finished or yielded with. -/
theorem async_protocol (host : Host σ) :
    -- the first turn
    (∀ (M N : Machine σ) (r : Ref .asyncExternal) (base : Nat) (returnSize : Option Nat),
      Exec.invoke host (.asyncFn r) base returnSize M = .ok () N →
      (Flight.made host M r base returnSize).Turn [] (M.memory.view.values.drop base) N) ∧
    (∀ (M N : Machine σ) (r : Ref .asyncExternal) (context : Option (Ref .context))
        (args : List Value),
      Coroutine.start host (.asyncFn r) context args M = .ok () N →
      (Flight.made host (M.onValues fun s => s.pushAll args) r M.memory.values.size none).Turn
      [] args N) ∧
    -- a turn
    (∀ (c : Flight) (history : List (List Value)) (args : List Value) (M : Machine σ),
      c.Turn history args M →
      (Exec.step host M = match c.answer host history args M with
        | .error f => .error (.fault f) (c.answered host history args M)
        | .ok (.finish results) => (do
            Exec.leave host results
            return none : Exec σ (Option Exit)) (c.answered host history args M)
        | .ok (.yield values) => .ok (some (.yielded values)) (c.answered host history args M)
        | .ok (.switch r given) => .ok (some (.switched r given)) (c.answered host history args M)
        | .ok (.call callee given) => (do
            Exec.invoke host callee c.base none
            return none : Exec σ (Option Exit)) (c.calling host history args M given)) ∧
      ∀ given, (c.calling host history args M given).memory.view.values.drop c.base = given) ∧
    -- from turn to turn
    (∀ (c : Flight) (args : List Value) (first L : Machine σ) (trace : List (Machine σ)),
      c.Turn [] args first → first.Lives host c.depth trace L →
      (∀ K ∈ trace, K.Behaves host) →
      c.Stands host first trace L) ∧
    -- the end
    (∀ (M N : Machine σ) (r : Ref .asyncExternal) (base : Nat) (returnSize : Option Nat)
        (trace : List (Machine σ)) (results : Option (List Value)),
      M.Completes host (.asyncFn r) base returnSize trace results N →
      (∀ K ∈ trace, K.Behaves host) →
      ∃ first history args before last list,
        Exec.invoke host (.asyncFn r) base returnSize M = .ok () first ∧
        (Flight.made host M r base returnSize).Given host first history args before last ∧
        trace = before ++ [last] ∧ Exec.step host last = .ok none N ∧
        (Flight.made host M r base returnSize).answer host history args last = .ok
        (.finish list) ∧
        results = some list ∧ N.On (M.memory.view.cut base) (.bare (shaped returnSize list))) ∧
    -- a coroutine goes on
    (∀ (vm vm₁ : Vm σ) (fuel : Nat) (r : Ref .coroutine) (args : List Value) (exit : Exit),
      Coroutine.resume host fuel r args vm = .ok exit vm₁ →
      ∃ M N, vm.Runs host r args M ∧ Exec.step host M = .ok (some exit) N ∧
        ∀ vm₂, Vm.Acts host (· ≠ some r) vm₁ vm₂ → ∀ values, ∃ heap state,
          Coroutine.begin host vm₂ r values
            = .ok () ({ N with heap, state }.onValues fun s => s.pushAll values)) ∧
    -- a coroutine comes back
    ∀ (vm : Vm σ) (fuel : Nat) (root : Ref .coroutine) (args : List Value) (a b : Vm.Head σ)
        (top next : Ref .coroutine) (below : List (Ref .coroutine)),
      vm.Idle → (vm.start fuel root args).Leads host a → a.Next host b →
      a.vm.active = top :: below → b.vm.active = next :: top :: below →
      ∃ vm₁, Coroutine.resume host b.fuel top a.values a.vm
        = .ok (.switched next b.values) vm₁ ∧
        ∀ c, b.Leads host c →
          (Vm.Acts host (· ≠ some top) vm₁ c.vm ∧
            ∃ above, c.vm.active = above ++ next :: top :: below) ∨
          ∃ p d, b.Leads host p ∧ Vm.Head.HandsBack host top next below p d ∧
            Vm.Acts host (· ≠ some top) vm₁ d.vm ∧ d.Leads host c := by
  refine ⟨fun M N r base returnSize => Flight.turn_of_invoke,
    fun M N r context args => Flight.turn_of_start,
    fun c history args M turn => ⟨turn.step_eq host, turn.drop_calling host⟩, ?_,
    fun M N r base returnSize trace results => Flight.completes,
    fun vm vm₁ fuel r args exit => Vm.begin_again, ?_⟩
  · intro c args first L trace turn lives behaves
    exact (Flight.Given.arguments turn).stands lives behaves
  · intro vm fuel root args a b top next below idle leads step hactive hnext
    obtain ⟨vm₁, hresume, hsame⟩ := step.switches hactive hnext
    have nested := Vm.Head.Leads.nested (leads.tail step) (idle.rests.nested fuel root args)
    have hpushed : Vm.Acts host (· ≠ some top) vm₁ b.vm :=
      .single ⟨none, nofun, .arrange hsame⟩
    refine ⟨vm₁, hresume, fun c hleads => ?_⟩
    rcases Vm.Head.Leads.awaits hleads nested hnext with ⟨acts, above⟩ |
      ⟨p, d, hp, back, acts, hd⟩
    · exact .inl ⟨hpushed.trans acts, above⟩
    · exact .inr ⟨p, d, hp, back, hpushed.trans acts, hd⟩

/-! ### A call that does all of it -/

/-- A closure that makes a system call and returns what is on its stack then. -/
def Heap.answering : Heap :=
  { Heap.empty with
    units := ⟨#[⟨#[
      ⟨"answering", #[(Op.syscall ⟨0, Nat.succ_pos 7⟩).byte, (Op.control .ret).byte],
        0, []⟩], #[], 0⟩]⟩
    functions := ⟨#[⟨⟨0⟩, 0, none⟩]⟩ }

/-- A function that calls the closure, switches to the second coroutine with its results, and
finishes with what it gets back; and one that yields two numbers. -/
def Scripted.asking : Library where
  pures := #[]
  effects := #[]
  asyncs := #[
    [⟨.call (.value (.function ⟨0⟩)), .args, false⟩,
      ⟨.resume (.value (.coroutine ⟨1⟩)), .args, false⟩, ⟨.finish, .args, false⟩],
    [⟨.yield, .values [.int 8, .int 9], false⟩]]

/-- Three numbers on the stack. -/
def Machine.asking : Machine (Array Scripted.Event) where
  heap := .answering
  memory := { Stacks.new .standard with values := ⟨#[.int 1, .int 2, .int 3], 4⟩ }
  config := .standard
  state := #[]

/-- The function is called with the last number.  The system call puts a value on the stack of the
closure. -/
theorem async_protocol_asking :
    let host := Scripted.asking.host fun _ => some [.push (.int 7)]
    let M := Machine.asking
    let c : Flight := .made host M ⟨0⟩ 2 (some 2)
    ∃ trace N, M.Completes host (.asyncFn ⟨0⟩) 2 (some 2) trace (some [.int 8, .int 9]) N ∧
      (∀ K ∈ trace, K.Behaves host) ∧
      ∃ first before last,
        c.Given host first [[.int 3], [.int 7]] [.int 8, .int 9] before last ∧
        c.answer host [[.int 3], [.int 7]] [.int 8, .int 9] last
          = .ok (.finish [.int 8, .int 9]) ∧
        N.memory.view.values = [.int 1, .int 2, .int 8, .int 9] := by
  intro host M c
  have behaves (K : Machine (Array Scripted.Event)) : K.Behaves host := by
    refine .of_syscalls (fun i call hcall heap s state => ?_) K
    obtain rfl : Scripted.runSyscall [.push (.int 7)] = call := Option.some.inj hcall
    exact s.within_push _
  let K₀ := Exec.last (Exec.invoke host (.asyncFn ⟨0⟩) 2 (some 2) M)
  let K₁ := Exec.last (Exec.step host K₀)
  let K₂ := Exec.last (Exec.step host K₁)
  let K₃ := Exec.last (Exec.step host K₂)
  let K₄ := Exec.last (Exec.step host K₃)
  let K₅ :=
    { K₄ with heap := Heap.answering, state := (#[] : Array Scripted.Event) }.onValues fun s =>
    s.pushAll [.int 8, .int 9]
  let N := Exec.last (Exec.step host K₅)
  have hcall : Exec.invoke host (.asyncFn ⟨0⟩) 2 (some 2) M = .ok () K₀ :=
    Exec.ok_of_answer? (by decide +kernel)
  have hsteps : Exec.step host K₀ = .ok none K₁ ∧ Exec.step host K₁ = .ok none K₂ ∧
      Exec.step host K₂ = .ok none K₃ :=
    ⟨Exec.ok_of_answer? (by decide +kernel), Exec.ok_of_answer? (by decide +kernel),
      Exec.ok_of_answer? (by decide +kernel)⟩
  have haway : Exec.step host K₃ = .ok (some (.switched ⟨1⟩ [.int 7])) K₄ :=
    Exec.ok_of_answer? (by decide +kernel)
  have hlast : Exec.step host K₅ = .ok none N := Exec.ok_of_answer? (by decide +kernel)
  have hdeep : 0 < K₀.depth ∧ 0 < K₁.depth ∧ 0 < K₂.depth ∧ 0 < K₃.depth ∧
    0 < K₅.depth := by
    decide +kernel
  have lives : K₀.Lives host M.depth [K₀, K₁, K₂, K₃, K₄, K₅] K₅ :=
    .step hdeep.1 hsteps.1 (.step hdeep.2.1 hsteps.2.1 (.step hdeep.2.2.1 hsteps.2.2
      (.away hdeep.2.2.2.1 haway .answering #[] [.int 8, .int 9] (.last hdeep.2.2.2.2))))
  have completes := Machine.Completes.activation hcall lives hlast (by decide +kernel)
  have hreturning : K₅.returning host = some [.int 8, .int 9] := by decide +kernel
  rw [hreturning] at completes
  have hprotocol := async_protocol host
  obtain ⟨first, history, args, before, last, list, -, given, htrace, -, hanswer, hlist, -⟩ :=
    hprotocol.2.2.2.2.1 M N ⟨0⟩ 2 (some 2) _ _ completes fun K _ => behaves K
  obtain rfl : [.int 8, .int 9] = list := Option.some.inj hlist
  obtain rfl : K₅ = last := by simpa using congrArg List.getLast? htrace
  have turn : c.Turn [[.int 3], [.int 7]] [.int 8, .int 9] K₅ := by
    show K₅.memory.view = c.below.pile (c.layer [[.int 3], [.int 7]] [.int 8, .int 9])
    decide +kernel
  obtain ⟨rfl, rfl⟩ := turn.unique given.turn
  exact ⟨_, N, completes, fun K _ => behaves K, first, before, K₅, given,
    hanswer, by decide +kernel⟩

/-- A system call that says how many results the closure hands over, after it has put two of them on
its stack: the step that follows gets one, and the other one is lost. -/
theorem async_protocol_return_size :
    let host := Scripted.asking.host fun _ =>
      some [.push (.int 7), .push (.int 8), .setReturnSize (some 1)]
    let c : Flight := .made host Machine.asking ⟨0⟩ 2 (some 2)
    ∃ first inner N, Exec.invoke host (.asyncFn ⟨0⟩) 2 (some 2) Machine.asking
      = .ok () first ∧
      c.answer host [] [.int 3] first = .ok (.call (.function ⟨0⟩) [.int 3]) ∧
      (c.calling host [] [.int 3] first [.int 3]).Completes host (.function ⟨0⟩)
        c.base none inner (some [.int 7, .int 8]) N ∧
      c.Turn [[.int 3]] [.int 7] N ∧ ¬ c.Turn [[.int 3]] [.int 7, .int 8] N := by
  intro host c
  let K₀ := Exec.last (Exec.invoke host (.asyncFn ⟨0⟩) 2 (some 2) Machine.asking)
  let P := c.calling host [] [.int 3] K₀ [.int 3]
  let K₁ := Exec.last (Exec.invoke host (.function ⟨0⟩) c.base none P)
  let K₂ := Exec.last (Exec.step host K₁)
  let N := Exec.last (Exec.step host K₂)
  have hcall : Exec.invoke host (.asyncFn ⟨0⟩) 2 (some 2) Machine.asking = .ok () K₀ :=
    Exec.ok_of_answer? (by decide +kernel)
  have hinner : Exec.invoke host (.function ⟨0⟩) c.base none P = .ok () K₁ :=
    Exec.ok_of_answer? (by decide +kernel)
  have hstep : Exec.step host K₁ = .ok none K₂ := Exec.ok_of_answer? (by decide +kernel)
  have hlast : Exec.step host K₂ = .ok none N := Exec.ok_of_answer? (by decide +kernel)
  have hdeep : P.depth < K₁.depth ∧ P.depth < K₂.depth ∧ N.depth ≤ P.depth := by
    decide +kernel
  have lives : K₁.Lives host P.depth [K₁, K₂] K₂ := .step hdeep.1 hstep (.last hdeep.2.1)
  have completes := Machine.Completes.activation hinner lives hlast hdeep.2.2
  have hreturning : K₂.returning host = some [.int 7, .int 8] := by decide +kernel
  rw [hreturning] at completes
  have hanswer : c.answer host [] [.int 3] K₀ = .ok (.call (.function ⟨0⟩) [.int 3]) := rfl
  have turn : c.Turn [[.int 3]] [.int 7] N := by
    show N.memory.view = c.below.pile (c.layer [[.int 3]] [.int 7])
    decide +kernel
  exact ⟨K₀, _, N, hcall, hanswer, completes, turn,
    fun whole => absurd (turn.unique whole).2 (by decide)⟩

end ScriptVm
