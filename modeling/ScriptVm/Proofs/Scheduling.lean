import ScriptVm.Proofs.Rounds

/-!
# The scheduler's stack

The stack of a run and the states of the coroutines agree (`Vm.Nested`): below the
top there are exactly the coroutines that have switched away since the run began.
So none of them is there twice, since a coroutine that has switched away is
refused.  Between requests the stack is empty and nothing runs (`Vm.Rests`).

Main statements: `Vm.Nested.round` (one round), `Vm.Head.Leads.nested` (any number
of them), `Vm.Rests.execute` (a run), `scheduler_stack`.
-/

namespace ScriptVm

variable {σ α : Type}

/-! ### Coroutines that have switched away -/

/-- A coroutine of the heap has switched away. -/
def Heap.Away (h : Heap) (q : Ref .coroutine) : Prop :=
  h.coroutines.Holds q ∧ (h.coroutine q).state = .inStack

/-- No coroutine of the heap is running. -/
abbrev Heap.Calm (h : Heap) : Prop :=
  h.All (·.state ≠ .running)

namespace Heap

variable {h h' : Heap} {r q : Ref .coroutine}

theorem not_away_of_canResume (hcan : Coroutine.canResume (h.coroutine r).state) : ¬ h.Away r := by
  rintro ⟨-, hstate⟩
  simp [hstate, Coroutine.canResume] at hcan

/-- After a resume, the coroutine has switched away or not, and the others are as before. -/
theorem Turned.away_iff {state : Lifecycle} {memory : Stacks} (hturned : h.Turned r state memory h')
    (hr : ¬ h.Away r) (hholds : h.coroutines.Holds r ∨ state ≠ .inStack) :
    h'.Away q ↔ (q = r ∧ state = .inStack) ∨ h.Away q := by
  by_cases hne : q = r
  · subst hne
    constructor
    · rintro ⟨hq, hstate⟩
      exact .inl ⟨rfl, (hturned.self hq).1 ▸ hstate⟩
    · rintro (⟨-, hin⟩ | haway)
      · have hq := hturned.keeps q (hholds.resolve_right fun h => h hin)
        exact ⟨hq, (hturned.self hq).1.trans hin⟩
      · exact absurd haway hr
  · constructor
    · rintro ⟨hq, hstate⟩
      rcases hturned.fresh q hne hq with hold | ⟨entry, config, hmade⟩
      · rw [hturned.others q hne hold] at hstate
        exact .inr ⟨hold, hstate⟩
      · rw [hmade] at hstate
        cases hstate
    · rintro (⟨heq, -⟩ | ⟨hq, hstate⟩)
      · exact absurd heq hne
      · refine ⟨hturned.keeps q hq, ?_⟩
        rw [hturned.others q hne hq, hstate]

theorem away_setResumable : (Coroutine.setResumable r h).Away q ↔ q ≠ r ∧ h.Away q := by
  by_cases hne : q = r
  · subst hne
    refine ⟨fun ⟨hq, hstate⟩ => ?_, fun ⟨hne, _⟩ => absurd rfl hne⟩
    exact absurd hstate (Coroutine.waits_setResumable (holds_modifyCoroutine.mp hq)).2
  · simp only [Away, Coroutine.setResumable, holds_modifyCoroutine, coroutine_modify_of_ne hne]
    exact ⟨fun h => ⟨hne, h⟩, And.right⟩

theorem calm_setResumable (hcalm : h.Calm) : (Coroutine.setResumable r h).Calm := by
  refine hcalm.modify fun hr => ?_
  have hstate := hcalm r hr
  generalize h.coroutine r = c at hstate
  obtain ⟨entry, context, state, config, memory⟩ := c
  cases state with
  | running => exact absurd rfl hstate
  | _ => nofun

theorem calm_turned {state : Lifecycle} {memory : Stacks} (hcalm : h.Calm)
    (hturned : h.Turned r state memory h') (hstate : state ≠ .running) : h'.Calm := by
  refine hcalm.turned hturned (fun _ _ => nofun) fun hr => ?_
  rwa [(hturned.self hr).1]

end Heap

namespace Coroutine

variable {host : Host σ} {fuel : Nat} {vm vm' : Vm σ} {r : Ref .coroutine} {args : List Value}

/-- What a resume has done to the heap from which control has come back. -/
theorem turned_of_ok {exit : Exit} (h : resume host fuel r args vm = .ok exit vm') :
    vm.heap.coroutines.Holds r ∧ ¬ vm.heap.Away r ∧
      ∃ memory, vm.heap.Turned r (stateAfter exit) memory vm'.heap := by
  obtain ⟨haccepted, M, N, runs, step, rfl⟩ := resume_eq_ok h
  have hgrows := runs.grows.trans ((Exec.step_paces host M).1 step).grows
  exact ⟨runs.holds, Heap.not_away_of_canResume haccepted, _, .of_grows hgrows _ _⟩

/-- A resume that has failed was refused, or the coroutine has stopped. -/
theorem turned_of_error {e : Failure} (h : resume host fuel r args vm = .error e vm')
    (he : e.Answers) :
    (e = .usage (.invalidResume (vm.heap.coroutine r).state) ∧ vm' = vm) ∨
    ((∃ f trace, e = .runtime f trace) ∧ ¬ vm.heap.Away r ∧
      ∃ memory, vm.heap.Turned r .stopped memory vm'.heap) := by
  by_cases haccepted : canResume (vm.heap.coroutine r).state
  · have hresumed := resumed host fuel args haccepted
    rw [h] at hresumed
    cases hresumed with
    | faults grows =>
      exact .inr ⟨⟨_, _, rfl⟩, Heap.not_away_of_canResume haccepted, _, .of_grows grows _ _⟩
    | breaks unanswered grows => exact absurd he unanswered
  · rw [resume_refused host fuel args haccepted] at h
    cases h
    exact .inl ⟨rfl, rfl⟩

end Coroutine

/-! ### The stack of coroutines -/

namespace Vm

/-- Nothing runs, and no coroutine is on the scheduler's stack. -/
structure Rests (vm : Vm σ) : Prop where
  empty : vm.active = []
  calm : vm.heap.Calm

/-- **How coroutines lie on the scheduler's stack** at a head: those below the top are distinct, and
they are the ones that have switched away since the run began. -/
structure Nested (before : Heap) (vm : Vm σ) : Prop where
  busy : vm.active ≠ []
  calm : vm.heap.Calm
  distinct : vm.active.tail.Nodup
  away : ∀ q, vm.heap.Away q ↔ before.Away q ∨ q ∈ vm.active.tail
  apart : ∀ q ∈ vm.active.tail, ¬ before.Away q

variable {host : Host σ} {fuel : Nat} {values : List Value} {vm vm' : Vm σ} {before : Heap}

theorem Rests.nested (h : vm.Rests) (fuel : Nat) (root : Ref .coroutine) (args : List Value) :
    (vm.start fuel root args).vm.Nested vm.heap := by
  obtain ⟨hempty, hcalm⟩ := h
  refine ⟨nofun, hcalm, ?_, ?_, ?_⟩ <;> simp [start, hempty]

section

variable {top : Ref .coroutine} {below : List (Ref .coroutine)}

/-- The top coroutine has switched away, and another one comes on top of it. -/
theorem Nested.switched {next : Ref .coroutine} {args : List Value} (h : vm.Nested before)
    (hactive : vm.active = top :: below)
    (hresume : Coroutine.resume host fuel top values vm = .ok (.switched next args) vm') :
    Vm.Nested before { vm' with active := next :: top :: below } := by
  obtain ⟨-, hcalm, hdistinct, haway, hapart⟩ := h
  rw [hactive, List.tail_cons] at hdistinct haway hapart
  obtain ⟨hholds, hfree, memory, hturned⟩ := Coroutine.turned_of_ok hresume
  have hfresh : ¬ before.Away top ∧ top ∉ below := by
    rw [haway] at hfree
    exact not_or.mp hfree
  refine ⟨nofun, Heap.calm_turned hcalm hturned nofun, ?_, ?_, ?_⟩
  · exact List.nodup_cons.mpr ⟨hfresh.2, hdistinct⟩
  · intro q
    rw [hturned.away_iff hfree (.inl hholds), haway]
    simp only [Coroutine.stateAfter, and_true, List.tail_cons, List.mem_cons]
    exact or_left_comm
  · intro q hq
    rcases List.mem_cons.mp hq with rfl | hq
    · exact hfresh.1
    · exact hapart q hq

/-- The top coroutine is taken away, and the one below it may be resumed again. -/
theorem Nested.returned {parent : Ref .coroutine} {exit : Exit} {results : List Value}
    (h : vm.Nested before) (hactive : vm.active = top :: parent :: below)
    (hresume : Coroutine.resume host fuel top values vm = .ok exit vm')
    (hexit : exit = .finished results ∨ exit = .yielded results) :
    Vm.Nested before { vm' with
      heap := Coroutine.setResumable parent vm'.heap
      active := parent :: below } := by
  obtain ⟨-, hcalm, hdistinct, haway, hapart⟩ := h
  rw [hactive, List.tail_cons] at hdistinct haway hapart
  obtain ⟨hholds, hfree, memory, hturned⟩ := Coroutine.turned_of_ok hresume
  have hstate : Coroutine.stateAfter exit ≠ .running ∧
    Coroutine.stateAfter exit ≠ .inStack := by
    rcases hexit with rfl | rfl <;> simp [Coroutine.stateAfter]
  obtain ⟨hparent, hrest⟩ := List.nodup_cons.mp hdistinct
  have hbefore : ¬ before.Away parent := hapart parent (List.mem_cons_self ..)
  refine ⟨nofun, Heap.calm_setResumable (Heap.calm_turned hcalm hturned hstate.1),
    hrest, ?_, ?_⟩
  · intro q
    rw [Heap.away_setResumable, hturned.away_iff hfree (.inl hholds), haway]
    simp only [hstate.2, and_false, false_or, List.mem_cons, List.tail_cons]
    constructor
    · rintro ⟨hne, hq | hq | hq⟩
      · exact .inl hq
      · exact absurd hq hne
      · exact .inr hq
    · rintro (hq | hq)
      · refine ⟨?_, .inl hq⟩
        rintro rfl
        exact hbefore hq
      · refine ⟨?_, .inr (.inr hq)⟩
        rintro rfl
        exact hparent hq
  · intro q hq
    exact hapart q (List.mem_cons_of_mem _ hq)

end

/-- **One round** keeps the stack so. -/
theorem Nested.round {values' : List Value} (h : vm.Nested before)
    (hround : round host 0 fuel values vm = .ok (.again values') vm') : vm'.Nested before := by
  obtain ⟨top, below, hactive⟩ := List.exists_cons_of_ne_nil h.busy
  have hturns : Turns host fuel values vm top below _ := turns hactive
  rw [hround] at hturns
  cases hturns with
  | switches resume => exact h.switched hactive resume
  | returns resume gone => exact h.returned hactive resume gone

/-- **Any number of rounds** keep the stack so. -/
theorem Head.Leads.nested {a b : Head σ} (hleads : a.Leads host b) (h : a.vm.Nested before) :
    b.vm.Nested before := by
  induction hleads with
  | refl => exact h
  | tail _ next ih => exact ih.round next.2

/-- The round in which a run is done. -/
theorem Nested.done {results : List Value} (h : vm.Nested before)
    (hround : Vm.round host 0 fuel values vm = .ok (.done results) vm') :
    vm'.Rests ∧ ∀ q, vm'.heap.Away q ↔ before.Away q := by
  obtain ⟨top, below, hactive⟩ := List.exists_cons_of_ne_nil h.busy
  obtain ⟨-, hcalm, -, haway, -⟩ := h
  have hturns : Turns host fuel values vm top below _ := turns hactive
  rw [hround] at hturns
  cases hturns with
  | ends resume =>
    obtain ⟨hholds, hfree, memory, hturned⟩ := Coroutine.turned_of_ok resume
    refine ⟨⟨rfl, Heap.calm_turned hcalm hturned nofun⟩, fun q => ?_⟩
    rw [hturned.away_iff hfree (.inl hholds), haway, hactive]
    simp [Coroutine.stateAfter]

/-- The round in which a run fails. -/
theorem Nested.failed {e : Failure} (h : vm.Nested before)
    (hround : Vm.round host 0 fuel values vm = .error e vm') (he : e.Answers) :
    vm'.heap.Calm ∧
      (∀ q, vm'.heap.Away q ↔ before.Away q ∨ q ∈ vm.active.tail) ∧
      (e = .usage .yieldFromRoot → vm.active.tail = []) := by
  obtain ⟨top, below, hactive⟩ := List.exists_cons_of_ne_nil h.busy
  obtain ⟨-, hcalm, -, haway, -⟩ := h
  have hturns : Turns host fuel values vm top below _ := turns hactive
  rw [hround] at hturns
  cases hturns with
  | fails resume =>
    rcases Coroutine.turned_of_error resume he with
      ⟨rfl, rfl⟩ | ⟨⟨f, trace, rfl⟩, hfree, memory, hturned⟩
    · exact ⟨hcalm, haway, nofun⟩
    · refine ⟨Heap.calm_turned hcalm hturned nofun, fun q => ?_, nofun⟩
      rw [hturned.away_iff hfree (.inr nofun), haway]
      simp
  | strays resume =>
    obtain ⟨hholds, hfree, memory, hturned⟩ := Coroutine.turned_of_ok resume
    refine ⟨Heap.calm_turned hcalm hturned nofun, fun q => ?_, fun _ => by rw [hactive]; rfl⟩
    rw [hturned.away_iff hfree (.inl hholds), haway]
    simp [Coroutine.stateAfter]

/-! ### Requests -/

/-- A request has come back, and has left this scheduler behind. -/
inductive ComesBack : EStateM.Result Failure (Vm σ) α → Vm σ → Prop
  | ok (a : α) (vm : Vm σ) : ComesBack (.ok a vm) vm
  | error {e : Failure} (answers : e.Answers) (vm : Vm σ) : ComesBack (.error e vm) vm

/-- A run that has ended well has left no coroutine behind that has switched away. -/
theorem Rests.execute_ok {root : Ref .coroutine} {args results : List Value} (h : vm.Rests)
    (hrun : Vm.execute host fuel root args vm = .ok results vm') :
    vm'.Rests ∧ ∀ q, vm'.heap.Away q ↔ vm.heap.Away q := by
  obtain ⟨head, hleads, hlast⟩ := Head.exists_last host (vm.start fuel root args)
  have hnested := hleads.nested (h.nested fuel root args)
  rw [execute_eq host fuel root args h.empty] at hrun
  rw [eq_ok_of_settled hrun] at hlast
  cases hlast with
  | done left round => exact hnested.done round

/-- A run that has failed has left those behind that were below the top. -/
theorem Rests.execute_error {root : Ref .coroutine} {args : List Value} {e : Failure} (h : vm.Rests)
    (hrun : Vm.execute host fuel root args vm = .error e vm') (he : e.Answers) :
    vm'.Rests ∧ ∃ head, (vm.start fuel root args).Leads host head ∧
      (∃ vm'', head.Last host (.error e vm'')) ∧
      (∀ q, vm'.heap.Away q ↔ vm.heap.Away q ∨ q ∈ head.vm.active.tail) ∧
      (e = .usage .yieldFromRoot → head.vm.active.tail = []) := by
  obtain ⟨head, hleads, hlast⟩ := Head.exists_last host (vm.start fuel root args)
  have hnested := hleads.nested (h.nested fuel root args)
  rw [execute_eq host fuel root args h.empty] at hrun
  obtain ⟨vm'', hresult, rfl⟩ := eq_error_of_settled hrun he
  rw [hresult] at hlast
  cases hlast with
  | exhausted left => exact absurd he id
  | failed left round =>
    obtain ⟨hcalm, haway, hroot⟩ := hnested.failed round he
    exact ⟨⟨rfl, hcalm⟩, head, hleads, ⟨vm'', .failed left round⟩, haway, hroot⟩

/-- **A run that is answered** leaves nothing running and nothing on the stack. -/
theorem Rests.execute {root : Ref .coroutine} {args : List Value} (h : vm.Rests)
    (hback : ComesBack (Vm.execute host fuel root args vm) vm') : vm'.Rests := by
  generalize hrun : Vm.execute host fuel root args vm = result at hback
  cases hback with
  | ok results vm' => exact (h.execute_ok hrun).1
  | error answers vm' => exact (h.execute_error hrun answers).1

/-- **How a request begins**, as far as the coroutines are concerned. -/
inductive Begins (host : Host σ) (fuel : Nat) (vm : Vm σ) :
    EStateM.Result Failure (Vm σ) (List Value) → Prop
  | refused {vm₀ : Vm σ} (active : vm₀.active = vm.active)
      (coroutines : vm₀.heap.coroutines = vm.heap.coroutines) (e : Failure) :
      Begins host fuel vm (.error e vm₀)
  | runs {vm₀ : Vm σ} (active : vm₀.active = vm.active)
      (coroutines : vm₀.heap.coroutines = vm.heap.coroutines) (root : Ref .coroutine)
      (entry : Value) (context : Option (Ref .context)) (args : List Value) :
      Begins host fuel vm (Vm.execute host fuel root args
        { vm₀ with heap := (vm₀.heap.newCoroutine (.new entry context vm₀.config)).2 })

/-- **Every request** begins so. -/
theorem begins (host : Host σ) (fuel : Nat) (vm : Vm σ) (request : Request) :
    vm.Begins host fuel (request.run host fuel vm) := by
  have hbegins := request.begins host fuel vm
  generalize request.run host fuel vm = result at hbegins
  let vm₀ : Vm σ := { vm with heap := request.opened vm.heap }
  have hactive : vm₀.active = vm.active := rfl
  have hcoroutines : vm₀.heap.coroutines = vm.heap.coroutines := request.coroutines_opened vm.heap
  cases hbegins with
  | refused e => exact .refused hactive hcoroutines e
  | runs entry args => exact .runs hactive hcoroutines _ entry request.context? args

/-- A text is found without a run, or by a call. -/
theorem stringify_back {v : Value} (hback : ComesBack (stringify host fuel v vm) vm') :
    vm' = vm ∨ ∃ method, ComesBack (call host fuel method [v] vm) vm' := by
  unfold stringify at hback
  split at hback
  · cases hback
    exact .inl rfl
  · rw [bind_apply, get_apply] at hback
    dsimp only at hback
    cases hmethod : vm.heap.metamethod v "__str" with
    | none =>
      rw [hmethod] at hback
      cases hback
      exact .inl rfl
    | some method =>
      refine .inr ⟨method, ?_⟩
      rw [hmethod] at hback
      dsimp only at hback
      rw [bind_apply] at hback
      cases hcall : call host fuel method [v] vm with
      | error e vm'' =>
        rw [hcall] at hback
        cases hback with
        | error answers vm' => exact .error answers _
      | ok results vm'' =>
        rw [hcall] at hback
        dsimp only at hback
        split at hback
        all_goals
          cases hback
          exact .ok _ _

/-- **The schedulers a host has before it** from one request to the next.  In between it can put any
units, closures, contexts, tables and vectors on the heap, make coroutines and resume them. -/
inductive Idle : Vm σ → Prop
  | new (config : Config) (state : σ) : Idle (.new config state)
  | arrange {vm vm' : Vm σ} (before : Idle vm)
      (coroutines : vm'.heap.coroutines = vm.heap.coroutines) (active : vm'.active = vm.active) :
      Idle vm'
  | make {vm : Vm σ} (before : Idle vm) (entry : Value) (context : Option (Ref .context))
      (config : Config) :
      Idle { vm with heap := (vm.heap.newCoroutine (.new entry context config)).2 }
  | ready {vm : Vm σ} (before : Idle vm) (r : Ref .coroutine) :
      Idle { vm with heap := Coroutine.setResumable r vm.heap }
  | resumed {vm vm' : Vm σ} {host : Host σ} {fuel : Nat} {r : Ref .coroutine} {args : List Value}
      (before : Idle vm) (back : ComesBack (Coroutine.resume host fuel r args vm) vm') : Idle vm'
  | requested {vm vm' : Vm σ} {host : Host σ} {fuel : Nat} {request : Request}
      (before : Idle vm) (back : ComesBack (request.run host fuel vm) vm') : Idle vm'
  | stringified {vm vm' : Vm σ} {host : Host σ} {fuel : Nat} {v : Value}
      (before : Idle vm) (back : ComesBack (stringify host fuel v vm) vm') : Idle vm'

theorem Rests.resume {r : Ref .coroutine} {args : List Value} (h : vm.Rests)
    (hback : ComesBack (Coroutine.resume host fuel r args vm) vm') : vm'.Rests := by
  have hactive := active_resume host fuel r args vm
  generalize hresume : Coroutine.resume host fuel r args vm = result at hback hactive
  cases hback with
  | ok exit vm' =>
    obtain ⟨-, -, memory, hturned⟩ := Coroutine.turned_of_ok hresume
    have hstate : Coroutine.stateAfter exit ≠ .running := by cases exit <;> nofun
    exact ⟨hactive.trans h.empty, Heap.calm_turned h.calm hturned hstate⟩
  | error answers vm' =>
    rcases Coroutine.turned_of_error hresume answers with ⟨-, rfl⟩ | ⟨-, -, memory, hturned⟩
    · exact h
    · exact ⟨hactive.trans h.empty, Heap.calm_turned h.calm hturned nofun⟩

theorem Rests.request (request : Request) (h : vm.Rests)
    (hback : ComesBack (request.run host fuel vm) vm') : vm'.Rests := by
  have hbegins := begins host fuel vm request
  generalize request.run host fuel vm = result at hback hbegins
  cases hbegins with
  | refused active coroutines e =>
    cases hback
    exact ⟨active.trans h.empty, h.calm.of_coroutines_eq coroutines⟩
  | @runs vm₀ active coroutines root entry context args =>
    have hcalm₀ : vm₀.heap.Calm := h.calm.of_coroutines_eq coroutines
    have hrests : Rests { vm₀ with
        heap := (vm₀.heap.newCoroutine (.new entry context vm₀.config)).2 } :=
      ⟨active.trans h.empty, hcalm₀.newCoroutine nofun⟩
    exact hrests.execute hback

/-- **Between requests** nothing runs and no coroutine is on the stack. -/
theorem Idle.rests (h : vm.Idle) : vm.Rests := by
  induction h with
  | new config state => exact ⟨rfl, fun q hq => nomatch hq⟩
  | arrange _ coroutines active ih =>
    exact ⟨active.trans ih.empty, ih.calm.of_coroutines_eq coroutines⟩
  | make _ entry context config ih => exact ⟨ih.empty, ih.calm.newCoroutine nofun⟩
  | ready _ r ih => exact ⟨ih.empty, Heap.calm_setResumable ih.calm⟩
  | resumed _ back ih => exact ih.resume back
  | requested _ back ih => exact ih.request _ back
  | stringified _ back ih =>
    rcases stringify_back back with rfl | ⟨method, hcall⟩
    · exact ih
    · exact Rests.request (.call method _) ih hcall

/-! ### At a head -/

section

variable {top : Ref .coroutine} {below : List (Ref .coroutine)}

/-- The coroutines below the top have switched away. -/
theorem Nested.under (h : vm.Nested before) (hactive : vm.active = top :: below) :
    below.Nodup ∧ ∀ q ∈ below, vm.heap.Away q := by
  have hdistinct := h.distinct
  have haway := h.away
  rw [hactive, List.tail_cons] at hdistinct haway
  exact ⟨hdistinct, fun q hq => (haway q).mpr (.inr hq)⟩

/-- While the top coroutine is resumed, no other one runs. -/
theorem During.only_running {args : List Value} {H : Heap} (h : vm.During host fuel top args H)
    (hcalm : vm.heap.Calm) {q : Ref .coroutine} (hq : H.coroutines.Holds q)
    (hstate : (H.coroutine q).state = .running) : q = top := by
  by_cases hne : q = top
  · exact hne
  · exfalso
    rcases h.grows.fresh hq with hold | ⟨entry, config, hmade⟩
    · have hold' := Heap.holds_modifyCoroutine.mp hold
      rw [h.others hne hold'] at hstate
      exact hcalm q hold' hstate
    · rw [hmade] at hstate
      cases hstate

/-- A coroutine on the stack that is asked for has switched away. -/
theorem Nested.asked {next : Ref .coroutine} {args : List Value} (h : vm.Nested before)
    (hactive : vm.active = top :: below)
    (hresume : Coroutine.resume host fuel top values vm = .ok (.switched next args) vm')
    (hnext : next ∈ top :: below) : (vm'.heap.coroutine next).state = .inStack := by
  exact (((h.switched hactive hresume).under rfl).2 next hnext).2

/-- A coroutine that cannot be resumed is asked for: the run ends, and nothing has happened
since. -/
theorem run_of_refused {head : Head σ} {next : Ref .coroutine} {args : List Value}
    (hfuel : head.fuel = fuel + 2) (hactive : head.vm.active = top :: below)
    (hresume : Coroutine.resume host (fuel + 1) top head.values head.vm
      = .ok (.switched next args) vm')
    (hrefused : ¬ Coroutine.canResume (vm'.heap.coroutine next).state) :
    head.run host = .error (.usage (.invalidResume (vm'.heap.coroutine next).state))
      { vm' with active := next :: top :: below } := by
  let after : Head σ := ⟨fuel + 1, args, { vm' with active := next :: top :: below }⟩
  have hnext : head.Next host after := ⟨hfuel, round_of_switched hactive hresume⟩
  have hround : Vm.round host 0 fuel args after.vm
      = .error (.usage (.invalidResume (vm'.heap.coroutine next).state)) after.vm :=
    round_of_error rfl (Coroutine.resume_refused host fuel args hrefused)
  rw [hnext.run_eq, Head.run, loop_succ, bind_apply, hround]

end

end Vm

/-- **The stack of coroutines.**  Between requests no coroutine is on it, however they have ended.
At the head of every round of every run, the coroutines below the top are distinct and have switched
away.  While the top one is resumed, it is the only one that is running.  If it asks for a coroutine
that is on the stack, or has stopped, then the run ends there, and the failure names the state of
that coroutine. -/
theorem scheduler_stack {host : Host σ} {vm : Vm σ} (hidle : vm.Idle) :
    -- between requests
    vm.active = [] ∧
    (∀ fuel request vm', Vm.ComesBack (Request.run host fuel request vm) vm' →
      vm'.active = []) ∧
    (∀ fuel v vm', Vm.ComesBack (Vm.stringify host fuel v vm) vm' → vm'.active = []) ∧
    -- a request
    (∀ fuel request,
      (∃ e vm', Request.run host fuel request vm = .error e vm' ∧ vm'.active = [] ∧
        vm'.heap.coroutines = vm.heap.coroutines) ∨
      ∃ root args vm', vm'.Idle ∧
        Request.run host fuel request vm = Vm.execute host fuel root args vm') ∧
    -- the heads of a run
    ∀ fuel root args head, (vm.start fuel root args).Leads host head →
      ∃ top below, head.vm.active = top :: below ∧
        below.Nodup ∧
        (∀ q ∈ below, head.vm.heap.coroutines.Holds q ∧
          (head.vm.heap.coroutine q).state = .inStack) ∧
        (∀ fuel' H, head.vm.During host fuel' top head.values H →
          (H.coroutine top).state = .running ∧
          ∀ q, H.coroutines.Holds q → (H.coroutine q).state = .running → q = top) ∧
        ∀ n next args' vm', head.fuel = n + 2 →
          Coroutine.resume host (n + 1) top head.values head.vm = .ok (.switched next args') vm' →
          (next ∈ top :: below ∨ (vm'.heap.coroutine next).state = .stopped) →
          (next ∈ top :: below → (vm'.heap.coroutine next).state = .inStack) ∧
          Vm.execute host fuel root args vm
            = .error (.usage (.invalidResume (vm'.heap.coroutine next).state))
                { vm' with active := [] } := by
  have hrests := hidle.rests
  refine ⟨hrests.empty, ?_, ?_, ?_, ?_⟩
  · intro fuel request vm' hback
    exact (hrests.request request hback).empty
  · intro fuel v vm' hback
    exact (hidle.stringified hback).rests.empty
  · intro fuel request
    have hbegins := Vm.begins host fuel vm request
    generalize Request.run host fuel request vm = result at hbegins
    cases hbegins with
    | refused active coroutines e =>
      exact .inl ⟨e, _, rfl, active.trans hrests.empty, coroutines⟩
    | runs active coroutines root entry context args =>
      exact .inr ⟨root, args, _, .make (.arrange hidle coroutines active) entry context _, rfl⟩
  · intro fuel root args head hleads
    have hnested := hleads.nested (hrests.nested fuel root args)
    obtain ⟨top, below, hactive⟩ := List.exists_cons_of_ne_nil hnested.busy
    obtain ⟨hdistinct, hbelow⟩ := hnested.under hactive
    refine ⟨top, below, hactive, hdistinct, hbelow, ?_, ?_⟩
    · intro fuel' H hduring
      exact ⟨hduring.running, fun q hq hstate => hduring.only_running hnested.calm hq hstate⟩
    · intro n next args' vm' hfuel hresume hasked
      have hstack := hnested.asked hactive hresume
      refine ⟨hstack, ?_⟩
      have hrefused : ¬ Coroutine.canResume (vm'.heap.coroutine next).state := by
        rcases hasked with hnext | hstopped
        · simp [hstack hnext, Coroutine.canResume]
        · simp [hstopped, Coroutine.canResume]
      rw [Vm.execute_eq host fuel root args hrests.empty, hleads.run_eq,
        Vm.run_of_refused hfuel hactive hresume hrefused]
      rfl

/-- A closure that hands its second argument on to the coroutine it has as its first one. -/
def Heap.passing : Heap :=
  { Heap.empty with
    units := ⟨#[⟨#[⟨"passing",
      #[(Op.loadArgument (.embedded ⟨1, by decide⟩)).byte,
        (Op.loadArgument (.embedded ⟨0, by decide⟩)).byte, (Op.control .resume).byte],
      0, []⟩], #[], 0⟩]⟩
    functions := ⟨#[⟨⟨0⟩, 0, none⟩]⟩ }

/-- Two coroutines that do so. -/
def Vm.passing : Vm Unit :=
  { Vm.new .standard () with
    heap := ((Heap.passing.newCoroutine (.new (.function ⟨0⟩) none .standard)).2.newCoroutine
      (.new (.function ⟨0⟩) none .standard)).2 }

theorem Vm.idle_passing : Vm.passing.Idle := by
  let vm : Vm Unit := { Vm.new .standard () with heap := Heap.passing }
  have hvm : vm.Idle := .arrange (.new .standard ()) rfl rfl
  exact .make (.make hvm (.function ⟨0⟩) none .standard) (.function ⟨0⟩) none .standard

/-- The second coroutine asks for the first one, which had asked for it. -/
theorem scheduler_stack_passing :
    let args : List Value := [.coroutine ⟨1⟩, .coroutine ⟨0⟩]
    Vm.passing.Idle ∧ ∃ head, (Vm.passing.start 9 ⟨0⟩ args).Leads .bare head ∧
      head.vm.active = [⟨1⟩, ⟨0⟩] ∧ (head.vm.heap.coroutine ⟨0⟩).state = .inStack ∧
      ∃ vm', Vm.execute .bare 9 ⟨0⟩ args Vm.passing
          = .error (.usage (.invalidResume .inStack)) vm' ∧
        vm'.active = [] := by
  intro args
  have hfirst :
      Vm.exit? (Coroutine.resume .bare 8 ⟨0⟩ args (Vm.passing.start 9 ⟨0⟩ args).vm)
        = some (.switched ⟨1⟩ [.coroutine ⟨0⟩]) := by
    decide +kernel
  obtain ⟨vm₁, hresume₁, hvm₁⟩ := Vm.ok_of_exit? hfirst
  let head : Vm.Head Unit :=
    ⟨8, [.coroutine ⟨0⟩], { vm₁ with active := [⟨1⟩, ⟨0⟩] }⟩
  have hsecond : Vm.exit? (Coroutine.resume .bare 7 ⟨1⟩ [.coroutine ⟨0⟩] head.vm)
      = some (.switched ⟨0⟩ [.nil]) := by
    simp only [head, hvm₁]
    decide +kernel
  obtain ⟨vm₂, hresume₂, -⟩ := Vm.ok_of_exit? hsecond
  have hleads : (Vm.passing.start 9 ⟨0⟩ args).Leads .bare head :=
    .single ⟨rfl, Vm.round_of_switched rfl hresume₁⟩
  obtain ⟨-, -, -, -, hheads⟩ := @scheduler_stack Unit .bare Vm.passing Vm.idle_passing
  obtain ⟨top, below, hactive, -, hbelow, -, hasked⟩ := hheads 9 ⟨0⟩ args head hleads
  cases hactive
  obtain ⟨hstate, hrun⟩ := hasked 6 ⟨0⟩ [.nil] vm₂ rfl hresume₂ (.inl (by simp))
  rw [hstate (by simp)] at hrun
  exact ⟨Vm.idle_passing, head, hleads, rfl, (hbelow ⟨0⟩ (by simp)).2, _, hrun, rfl⟩

end ScriptVm
